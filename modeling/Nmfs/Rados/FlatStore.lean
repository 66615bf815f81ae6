import Nmfs.Rados.Operations

/-!
# The flat store

What `rados_io` is for: one byte string for every category and key.  The
abstract store `FlatStore` says what `write`, `truncate` and `remove` mean on
these byte strings, and `Represents` ties it to a pool.

A sequence of calls on an empty pool returns and keeps the representation
exactly if none of them goes beyond `offEnd` (`striped_store_correct_iff`).
-/

namespace Nmfs

open Bytes

/-- One byte string for every category and key; `none` where no object
exists. -/
abbrev FlatStore := ObjCategory → Key → Option Bytes

namespace FlatStore

def empty : FlatStore := fun _ _ => none

/-- The content, empty where there is no object. -/
def content (f : FlatStore) (category : ObjCategory) (key : Key) : Bytes :=
  (f category key).getD []

def set (f : FlatStore) (category : ObjCategory) (key : Key)
    (value : Option Bytes) : FlatStore :=
  fun category' key' =>
    if category' = category ∧ key' = key then value else f category' key'

/-- Zero-extend to the offset, then replace or extend.  Writing nothing inside
the content creates no object. -/
def write (f : FlatStore) (category : ObjCategory) (key : Key) (value : Bytes)
    (offset : Nat) : FlatStore :=
  if value = [] ∧ offset ≤ (f.content category key).length then f
  else
    f.set category key (some (overwrite (f.content category key) offset value))

/-- The first `size` bytes, zero-padded. -/
def truncate (f : FlatStore) (category : ObjCategory) (key : Key)
    (size : Nat) : FlatStore :=
  if (f category key).isNone ∧ size = 0 then f
  else f.set category key (some (resize (f.content category key) size))

def remove (f : FlatStore) (category : ObjCategory) (key : Key) : FlatStore :=
  f.set category key none

variable (f : FlatStore) (category : ObjCategory) (key : Key)

@[simp] theorem set_self (value : Option Bytes) :
    f.set category key value category key = value := by
  simp [set]

theorem set_of_ne
    {category' : ObjCategory} {key' : Key}
    (h : ¬ (category' = category ∧ key' = key)) (value : Option Bytes) :
    f.set category key value category' key' = f category' key' := by
  simp [set, h]

@[simp] theorem content_write (value : Bytes) (offset : Nat) :
    (f.write category key value offset).content category key =
      overwrite (f.content category key) offset value := by
  unfold write
  by_cases h : value = [] ∧ offset ≤ (f.content category key).length
  · rw [if_pos h, h.1, overwrite_nil h.2]
  · rw [if_neg h]
    simp [content]

@[simp] theorem content_truncate (size : Nat) :
    (f.truncate category key size).content category key =
      resize (f.content category key) size := by
  unfold truncate
  by_cases h : (f category key).isNone ∧ size = 0
  · rw [if_pos h]
    have hnone : f category key = none := by simpa using h.1
    simp [content, hnone, h.2, resize]
  · rw [if_neg h]
    simp [content]

@[simp] theorem content_remove :
    (f.remove category key).content category key = [] := by
  simp [content, remove]

section Others

variable {f : FlatStore} {category category' : ObjCategory} {key key' : Key}

theorem write_of_ne
    (h : ¬ (category' = category ∧ key' = key)) (value : Bytes) (offset : Nat) :
    f.write category key value offset category' key' = f category' key' := by
  unfold write
  split
  · rfl
  · exact set_of_ne f category key h _

theorem truncate_of_ne
    (h : ¬ (category' = category ∧ key' = key)) (size : Nat) :
    f.truncate category key size category' key' = f category' key' := by
  unfold truncate
  split
  · rfl
  · exact set_of_ne f category key h _

theorem remove_of_ne (h : ¬ (category' = category ∧ key' = key)) :
    f.remove category key category' key' = f category' key' :=
  set_of_ne f category key h none

/-- Something is written, so that there is an object. -/
theorem write_self {value : Bytes} (h : value ≠ []) (offset : Nat) :
    f.write category key value offset category key =
      some (overwrite (f.content category key) offset value) := by
  rw [write, if_neg (fun hnil => h hnil.1), set_self]

end Others

end FlatStore

/-- The pool holds the byte strings of `f`, striped over its objects. -/
structure Represents (p : Pool) (f : FlatStore) : Prop where
  file : ∀ category key, ∃ n, FileIs p category key (f.content category key) n ∧
    ((f category key).isSome ↔ 0 < n)
  bounded : ∀ category key, (f.content category key).length ≤ offEnd

theorem Represents.empty : Represents Pool.empty FlatStore.empty where
  file := by
    intro category key
    exact ⟨0, Striped.empty objSize, by simp [FlatStore.empty]⟩
  bounded := by
    intro category key
    exact Nat.zero_le _

/-- One file has changed, and the rest of the pool has not. -/
theorem Represents.update
    {p p' : Pool} {f f' : FlatStore} {category : ObjCategory} {key : Key}
    {n : Nat} (h : Represents p f)
    (hs : SameElsewhere category key p p')
    (hf : FileIs p' category key (f'.content category key) n)
    (hpos : (f' category key).isSome ↔ 0 < n)
    (hlen : (f'.content category key).length ≤ offEnd)
    (hsame : ∀ category' key', ¬ (category' = category ∧ key' = key) →
      f' category' key' = f category' key') :
    Represents p' f' := by
  constructor
  · intro category' key'
    by_cases hck : category' = category ∧ key' = key
    · obtain ⟨rfl, rfl⟩ := hck
      exact ⟨n, hf, hpos⟩
    · obtain ⟨m, hm, hmpos⟩ := h.file category' key'
      have heq := hsame category' key' hck
      refine ⟨m, ?_, by rw [heq]; exact hmpos⟩
      rw [FlatStore.content, heq]
      exact hs.fileIs hck hm
  · intro category' key'
    by_cases hck : category' = category ∧ key' = key
    · obtain ⟨rfl, rfl⟩ := hck
      exact hlen
    · rw [FlatStore.content, hsame category' key' hck]
      exact h.bounded category' key'

section Operations

variable {p : Pool} {f : FlatStore} (h : Represents p f)
  (category : ObjCategory) (key : Key)

include h

theorem Represents.run_write
    {value : Bytes} {offset : Nat} (hend : offset + value.length ≤ offEnd) :
    ∃ p', Prog.run Pool.handle (RadosIo.write category key value offset) p =
        (.ok value.length, p') ∧
      Represents p' (f.write category key value offset) := by
  obtain ⟨n, hf, hpos⟩ := h.file category key
  obtain ⟨p', n', hrun, hf', hs, hn'⟩ := RadosIo.run_write hf hend
  refine ⟨p', hrun, h.update hs (by rw [FlatStore.content_write]; exact hf')
    ?_ ?_ ?_⟩
  · rw [hn', ← hpos]
    unfold FlatStore.write
    by_cases hv : value = [] ∧ offset ≤ (f.content category key).length
    · rw [if_pos hv]
      simp [hv]
    · rw [if_neg hv]
      simp [hv]
  · rw [FlatStore.content_write, length_overwrite]
    exact Nat.max_le.mpr ⟨hend, h.bounded category key⟩
  · exact fun category' key' hne => FlatStore.write_of_ne hne _ _

theorem Represents.run_truncate
    {size : Nat} (hend : size ≤ offEnd) :
    ∃ p', Prog.run Pool.handle (RadosIo.truncate category key size) p =
        (.ok 0, p') ∧
      Represents p' (f.truncate category key size) := by
  obtain ⟨n, hf, hpos⟩ := h.file category key
  obtain ⟨p', n', hrun, hf', hs, hn'⟩ :=
    RadosIo.run_truncate hf hend (h.bounded category key)
  refine ⟨p', hrun, h.update hs (by rw [FlatStore.content_truncate]; exact hf')
    ?_ ?_ ?_⟩
  · rw [hn', ← hpos]
    unfold FlatStore.truncate
    by_cases hv : (f category key).isNone ∧ size = 0
    · rw [if_pos hv]
      simp [hv]
    · rw [if_neg hv]
      rcases hobj : f category key with _ | b
      · simp only [hobj, Option.isNone_none, true_and] at hv
        simp [Nat.pos_of_ne_zero hv]
      · simp
  · rw [FlatStore.content_truncate, length_resize]
    exact hend
  · exact fun category' key' hne => FlatStore.truncate_of_ne hne _

theorem Represents.run_remove :
    ∃ p', Prog.run Pool.handle (RadosIo.remove category key) p =
        (.ok (), p') ∧
      Represents p' (f.remove category key) := by
  obtain ⟨n, hf, -⟩ := h.file category key
  obtain ⟨p', hrun, hf', hs⟩ :=
    RadosIo.run_remove hf (h.bounded category key)
  refine ⟨p', hrun, h.update hs (by rw [FlatStore.content_remove]; exact hf')
    (by simp [FlatStore.remove]) (by simp) ?_⟩
  exact fun category' key' hne => FlatStore.remove_of_ne hne

end Operations

/-- The outcome of a read of the first object. -/
theorem Represents.run_read_first
    {p : Pool} {f : FlatStore} (hp : Represents p f) (category : ObjCategory)
    (key : Key) : (RadosIo.read category key objSize 0).run Pool.handle p =
      (if (f category key).isSome then .ok (slice (f.content category key) 0 objSize)
        else .throws (.noSuchObject (slice (f.content category key) 0 objSize)),
        p) := by
  obtain ⟨n, hf, hpos⟩ := hp.file category key
  have hend : 0 + objSize ≤ offEnd := le_offEnd (by rw [objSize]; omega)
  have hobj := objSize_pos
  have hfirst : (0 + objSize ≤ 0 ∨ objNum (0 + objSize - 1) < n) ↔
      (f category key).isSome := by
    rw [hpos, objNum_eq, Nat.div_eq_of_lt (by omega)]
    exact or_iff_right (by omega)
  rw [RadosIo.run_read hf (Nat.lt_of_le_of_lt hend offEnd_lt_offMax) (.inl hend),
    RadosIo.readOutcome, Nat.zero_add, Nat.sub_zero, List.nil_append]
  rw [Nat.zero_add] at hfirst
  simp only [hfirst]

/-- A call that changes the store. -/
inductive StoreOp where
  | write (category : ObjCategory) (key : Key) (value : Bytes) (offset : Nat)
  | truncate (category : ObjCategory) (key : Key) (offset : Nat)
  | remove (category : ObjCategory) (key : Key)

namespace StoreOp

/-- The call on the striped store. -/
def prog : StoreOp → IoProg Unit
  | .write category key value offset =>
      RadosIo.write category key value offset >>= fun _ => .ret ()
  | .truncate category key offset =>
      RadosIo.truncate category key offset >>= fun _ => .ret ()
  | .remove category key => RadosIo.remove category key

/-- The call on the flat store. -/
def apply (f : FlatStore) : StoreOp → FlatStore
  | .write category key value offset => f.write category key value offset
  | .truncate category key offset => f.truncate category key offset
  | .remove category key => f.remove category key

/-- The end of the range that the call works on. -/
def stop : StoreOp → Nat
  | .write _ _ value offset => offset + value.length
  | .truncate _ _ offset => offset
  | .remove _ _ => 0

end StoreOp

/-- The calls one after the other. -/
def runStoreOps : List StoreOp → IoProg Unit
  | [] => .ret ()
  | op :: ops => op.prog >>= fun _ => runStoreOps ops

section Runs

variable {p : Pool} {f : FlatStore}

theorem Represents.run_op
    (h : Represents p f) {op : StoreOp} (hend : op.stop ≤ offEnd) :
    ∃ p', Prog.run Pool.handle op.prog p = (.ok (), p') ∧
      Represents p' (op.apply f) := by
  cases op with
  | write category key value offset =>
      obtain ⟨p', hrun, h'⟩ := h.run_write category key hend
      exact ⟨p', by rw [StoreOp.prog, Prog.run_bind_ok _ hrun, Prog.run_ret], h'⟩
  | truncate category key offset =>
      have hend' : offset ≤ offEnd := hend
      obtain ⟨p', hrun, h'⟩ := h.run_truncate category key hend'
      exact ⟨p', by rw [StoreOp.prog, Prog.run_bind_ok _ hrun, Prog.run_ret], h'⟩
  | remove category key => exact h.run_remove category key

/-- A call that has to go beyond `offEnd` ends in undefined behaviour. -/
theorem Represents.run_op_overflow
    (h : Represents p f) {op : StoreOp} (hmax : op.stop < offMax)
    (hend : offEnd < op.stop) :
    (Prog.run Pool.handle op.prog p).1 = .faults .undefinedBehaviour := by
  cases op with
  | write category key value offset =>
      simp only [StoreOp.stop] at hmax hend
      obtain ⟨n, hf, -⟩ := h.file category key
      obtain ⟨hlt, hlb⟩ := RadosIo.lb_lt_iff hf offset
      have hlen := h.bounded category key
      rw [StoreOp.prog]
      apply Prog.run_bind_fst_faults
      rw [RadosIo.write, Prog.run_bind_ok _ (RadosIo.run_lbFileSize hf _ _)]
      by_cases hoff : offset ≤ offEnd
      · -- the gap can be closed, but the data cannot be written
        obtain ⟨p₁, n₁, hrun₁, -⟩ := RadosIo.run_fillGap hf hlt hlb hoff
        rw [Prog.run_bind_ok _ hrun₁, offStop_of_lt hmax]
        exact RadosIo.writeLoop_overflow 0 p₁ (by omega) hend
      · have hgap : (f.content category key).length < offset :=
          Nat.lt_of_le_of_lt hlen (Nat.lt_of_not_le hoff)
        rw [hlb hgap, RadosIo.fillGap, if_pos hgap]
        apply Prog.run_bind_fst_faults
        exact RadosIo.zerofill_overflow p hgap (Nat.lt_of_not_le hoff) (by omega)
  | truncate category key offset =>
      simp only [StoreOp.stop] at hmax hend
      obtain ⟨n, hf, -⟩ := h.file category key
      obtain ⟨hlt, hlb⟩ := RadosIo.lb_lt_iff hf offset
      have hgap : (f.content category key).length < offset :=
        Nat.lt_of_le_of_lt (h.bounded category key) hend
      rw [StoreOp.prog]
      apply Prog.run_bind_fst_faults
      rw [RadosIo.truncate, Prog.run_bind_ok _ (RadosIo.run_lbFileSize hf _ _)]
      by_cases hn : n = 0
      · rw [if_pos hn]
        apply Prog.run_bind_fst_faults
        have hzero : 0 < offset := Nat.zero_lt_of_lt hend
        exact RadosIo.zerofill_overflow p hzero hend hmax
      · rw [if_neg hn, Option.getD_some] at hlt hlb
        rw [if_neg hn]
        simp only [hlb hgap, if_pos hgap]
        apply Prog.run_bind_fst_faults
        exact RadosIo.zerofill_overflow p hgap hend hmax
  | remove category key =>
      simp [StoreOp.stop] at hend

/-- All calls within `offEnd`: they return, and the pool represents what they
mean. -/
theorem Represents.run_ops
    (h : Represents p f) {ops : List StoreOp}
    (hends : ∀ op ∈ ops, op.stop ≤ offEnd) :
    ∃ p', Prog.run Pool.handle (runStoreOps ops) p = (.ok (), p') ∧
      Represents p' (ops.foldl StoreOp.apply f) := by
  induction ops generalizing p f with
  | nil => exact ⟨p, rfl, h⟩
  | cons op ops ih =>
      obtain ⟨p₁, hrun₁, h₁⟩ := h.run_op (hends op (by simp))
      obtain ⟨p₂, hrun₂, h₂⟩ := ih h₁ (fun o ho => hends o (by simp [ho]))
      exact ⟨p₂, by rw [runStoreOps, Prog.run_bind_ok _ hrun₁, hrun₂], h₂⟩

/-- One call beyond `offEnd`: the run does not return. -/
theorem Represents.run_ops_overflow
    (h : Represents p f) {ops : List StoreOp}
    (hmax : ∀ op ∈ ops, op.stop < offMax)
    (hend : ∃ op ∈ ops, offEnd < op.stop) :
    (Prog.run Pool.handle (runStoreOps ops) p).1 =
      .faults .undefinedBehaviour := by
  induction ops generalizing p f with
  | nil => simp at hend
  | cons op ops ih =>
      rw [runStoreOps]
      by_cases hop : op.stop ≤ offEnd
      · obtain ⟨p₁, hrun₁, h₁⟩ := h.run_op hop
        rw [Prog.run_bind_ok _ hrun₁]
        apply ih h₁ (fun o ho => hmax o (by simp [ho]))
        obtain ⟨o, ho, hlt⟩ := hend
        rcases List.mem_cons.mp ho with rfl | ho'
        · exact absurd hop (Nat.not_le_of_lt hlt)
        · exact ⟨o, ho', hlt⟩
      · apply Prog.run_bind_fst_faults
        exact h.run_op_overflow (hmax op (by simp)) (Nat.lt_of_not_le hop)

/-- The range can be walked without overflow: it is empty, ends early enough,
or the object that ends at `offEnd` is missing and stops the walk. -/
def ReadInRange (p : Pool) (category : ObjCategory) (key : Key)
    (len offset : Nat) : Prop :=
  len = 0 ∨ offset + len ≤ offEnd ∨
    (offset < offEnd ∧
      p (objName category key (objNum (offEnd - 1))) = none)

/-- `read` gives the bytes, returned or as the `value` of the exception, and
leaves the objects alone. -/
def Delivers {σ : Type} (L : Librados σ) (s : σ) (category : ObjCategory) (key : Key)
    (len offset : Nat) (bs : Bytes) : Prop :=
  ∃ o s', (RadosIo.read category key len offset).run L.call s = (o, s') ∧
    L.objects s' = L.objects s ∧ (o = .ok bs ∨ o = .throws (.noSuchObject bs))

/-- The object that ends at `offEnd` is missing if the file is shorter. -/
theorem last_object_missing_iff
    {category : ObjCategory} {key : Key} {c : Bytes} {n : Nat}
    (hf : FileIs p category key c n) :
    p (objName category key (objNum (offEnd - 1))) = none ↔
      n * objSize < offEnd := by
  have hnum : objNum (offEnd - 1) = 2199023255550 := by
    rw [objNum_eq, offEnd_eq]
    simp [objSize]
  have hnone := hf.isSome_iff (objNum (offEnd - 1))
  rw [← Option.not_isSome_iff_eq_none, hnone, hnum, offEnd_eq]
  constructor
  · intro hge
    exact Nat.mul_lt_mul_of_pos_right (by omega) objSize_pos
  · intro hlt
    have := Nat.lt_of_mul_lt_mul_right hlt
    omega

theorem Represents.delivers_iff
    {σ : Type} {L : Librados σ} {s : σ} (h : Represents (L.objects s) f)
    (category : ObjCategory) (key : Key) {len offset : Nat}
    (hmax : offset + len < offMax) :
    Delivers L s category key len offset
        (slice (f.content category key) offset len) ↔
      ReadInRange (L.objects s) category key len offset := by
  obtain ⟨n, hf, -⟩ := h.file category key
  have hmissing := last_object_missing_iff hf
  constructor
  · rintro ⟨o, s', hrun, -, ho⟩
    by_contra hrange
    simp only [ReadInRange, not_or, not_and] at hrange
    obtain ⟨hlen, hend, hfar⟩ := hrange
    have hover : Prog.run Pool.handle
        (RadosIo.read category key len offset) (L.objects s) =
          (.faults .undefinedBehaviour, L.objects s) := by
      rw [RadosIo.read, offStop_of_lt hmax]
      apply RadosIo.readLoop_overflow hf (by omega) (Nat.lt_of_not_le hend)
      · rcases Nat.lt_or_ge offset offEnd with hlt | hge
        · right
          rw [hmissing] at hfar
          exact Nat.le_of_not_lt (hfar hlt)
        · exact Or.inl hge
      · simp
    rw [L.run_objects hrun] at hover
    obtain rfl := (Prod.mk.inj hover).1
    simp at ho
  · intro hrange
    have hout : ∃ o, Prog.run Pool.handle
        (RadosIo.read category key len offset) (L.objects s) = (o, L.objects s) ∧
          (o = .ok (slice (f.content category key) offset len) ∨
            o = .throws (.noSuchObject
              (slice (f.content category key) offset len))) := by
      rcases Nat.eq_zero_or_pos len with rfl | hpos
      · refine ⟨.ok [], ?_, Or.inl (by simp [slice])⟩
        rw [RadosIo.read, offStop_of_lt hmax, RadosIo.readLoop,
          dif_neg (by simp), Prog.run_ret]
      · have hreach : RadosIo.InReach n offset (offset + len) := by
          rcases hrange with h0 | hle | ⟨hlt, hnone⟩
          · omega
          · exact Or.inl hle
          · exact Or.inr ⟨hlt, hmissing.mp hnone⟩
        refine ⟨_, RadosIo.run_read hf hmax hreach, ?_⟩
        unfold RadosIo.readOutcome
        rw [Nat.add_sub_cancel_left, List.nil_append]
        split
        · exact Or.inl rfl
        · exact Or.inr rfl
    obtain ⟨o, hpool, ho⟩ := hout
    obtain ⟨s', hrun, hs'⟩ := L.run_of_objects hpool
    exact ⟨o, s', hrun, hs', ho⟩

end Runs

/-- **The striped store is a flat store, up to `offEnd`.**  A sequence of calls
on an empty pool returns and leaves a pool that represents what the calls mean
exactly if all of them end at or below `offEnd`.  From then on a `read`
delivers its range of the content, and leaves the pool alone, exactly if the
range can be walked without overflow. -/
theorem striped_store_correct_iff
    {σ : Type} (L : Librados σ) {s : σ} (hempty : L.objects s = Pool.empty)
    (ops : List StoreOp) (hmax : ∀ op ∈ ops, op.stop < offMax) :
    ((∃ s', (runStoreOps ops).run L.call s = (.ok (), s') ∧
        Represents (L.objects s') (ops.foldl StoreOp.apply FlatStore.empty)) ↔
      ∀ op ∈ ops, op.stop ≤ offEnd) ∧
    ∀ s', (runStoreOps ops).run L.call s = (.ok (), s') →
      ∀ category key len offset, offset + len < offMax →
        (Delivers L s' category key len offset
            (slice ((ops.foldl StoreOp.apply FlatStore.empty).content
              category key) offset len) ↔
          ReadInRange (L.objects s') category key len offset) := by
  have hs : Represents (L.objects s) FlatStore.empty := by
    rw [hempty]
    exact Represents.empty
  have hwithin : ∀ s', (runStoreOps ops).run L.call s = (.ok (), s') →
      ∀ op ∈ ops, op.stop ≤ offEnd := by
    intro s' hrun
    by_contra hnot
    have hfar : ∃ op ∈ ops, offEnd < op.stop := by
      simpa only [not_forall, Nat.not_le, exists_prop] using hnot
    have hover := hs.run_ops_overflow hmax hfar
    rw [L.run_objects hrun] at hover
    simp at hover
  refine ⟨⟨?_, ?_⟩, ?_⟩
  · rintro ⟨s', hrun, -⟩
    exact hwithin s' hrun
  · intro hends
    obtain ⟨p, hpool, hp⟩ := hs.run_ops hends
    obtain ⟨s', hrun, rfl⟩ := L.run_of_objects hpool
    exact ⟨s', hrun, hp⟩
  · intro s' hrun category key len offset hlen
    obtain ⟨p', hpool, h'⟩ := hs.run_ops (hwithin s' hrun)
    rw [L.run_objects hrun] at hpool
    cases hpool
    exact h'.delivers_iff category key hlen

/-- Two bytes and a cut. -/
theorem striped_store_correct_small :
    ∃ p, Prog.run Pool.handle
        (runStoreOps [.write .DATA ['k'] [1, 2] 0, .truncate .DATA ['k'] 1])
        Pool.empty = (.ok (), p) ∧
      Represents p (([.write .DATA ['k'] [1, 2] 0, .truncate .DATA ['k'] 1] :
        List StoreOp).foldl StoreOp.apply FlatStore.empty) := by
  apply (striped_store_correct_iff Pool.librados rfl _ ?_).1.mpr
  · simp [StoreOp.stop, offEnd_eq, objSize]
  · simp [StoreOp.stop, offMax]

/-- One byte written two bytes below the largest offset. -/
theorem striped_store_overflow :
    (StoreOp.write .DATA ['k'] [1] (2 ^ 63 - 2)).stop < offMax ∧
      (Prog.run Pool.handle
        (runStoreOps [.write .DATA ['k'] [1] (2 ^ 63 - 2)]) Pool.empty).1 =
          .faults .undefinedBehaviour := by
  have hmax : (StoreOp.write .DATA ['k'] [1] (2 ^ 63 - 2)).stop < offMax := by
    simp [StoreOp.stop, offMax]
  refine ⟨hmax, Represents.empty.run_ops_overflow ?_ ?_⟩
  · simp only [List.mem_singleton, forall_eq]
    exact hmax
  · refine ⟨_, List.mem_singleton.mpr rfl, ?_⟩
    simp [StoreOp.stop, offEnd_eq, objSize]

end Nmfs
