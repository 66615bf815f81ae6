import Nmfs.Lib.Interleavings
import Nmfs.Rados.FlatStore

/-!
# Writes that take turns

A client that does not lead a directory writes the data of its files itself, once
the leader has noted the new size.  Then `write` runs in several clients at the
same time, and the `stat` and `write` calls on the objects come in any order.

Calls that begin inside the content, or at its end, and have no byte in common
come out as if one had been made after the other (`concurrent_writes`).  Until
all have ended, the content has the first bytes of each.  A call that begins
behind the end is different: it fills the gap that it has seen, also where
another call has written in the meantime.
-/

namespace Nmfs

open Bytes

/-- A call of `rados_io::write`. -/
structure WriteCall where
  category : ObjCategory
  key : Key
  value : Bytes
  offset : Nat

namespace WriteCall

/-- `stop` -/
def stop (w : WriteCall) : Nat := w.offset + w.value.length

def prog (w : WriteCall) : IoProg Nat :=
  RadosIo.write w.category w.key w.value w.offset

/-- What the call does if it is alone. -/
def apply (f : FlatStore) (w : WriteCall) : FlatStore :=
  f.write w.category w.key w.value w.offset

/-- The call with the first bytes of its value. -/
def part (w : WriteCall) (sum : Nat) : WriteCall :=
  { w with value := w.value.take sum }

/-- It leaves no gap, and ends where offsets do not overflow. -/
structure InRange (f : FlatStore) (w : WriteCall) : Prop where
  begins : w.offset ≤ (f.content w.category w.key).length
  ends : w.stop ≤ offEnd

/-- No byte is written by both. -/
def Apart (w w' : WriteCall) : Prop :=
  ¬ (w'.category = w.category ∧ w'.key = w.key) ∨
    w.stop ≤ w'.offset ∨ w'.stop ≤ w.offset

section Apply

variable {f : FlatStore} {w w' : WriteCall} {ws : List WriteCall}

theorem Apart.symm (h : Apart w w') : Apart w' w := by
  rcases h with hne | hle | hle
  · exact .inl fun heq => hne ⟨heq.1.symm, heq.2.symm⟩
  · exact .inr (.inr hle)
  · exact .inr (.inl hle)

theorem stop_part_le (w : WriteCall) (sum : Nat) : (w.part sum).stop ≤ w.stop :=
  Nat.add_le_add_left (List.length_take_le' _ _) _

theorem Apart.part (h : Apart w w') (sum sum' : Nat) :
    Apart (w.part sum) (w'.part sum') := by
  rcases h with hne | hle | hle
  · exact .inl hne
  · exact .inr (.inl (Nat.le_trans (stop_part_le w sum) hle))
  · exact .inr (.inr (Nat.le_trans (stop_part_le w' sum') hle))

/-- Nothing is written. -/
theorem apply_nil
    (hoff : w.offset ≤ (f.content w.category w.key).length) (hnil : w.value = []) :
    apply f w = f := by
  rw [apply, FlatStore.write, if_pos ⟨hnil, hoff⟩]

theorem apply_of_ne
    {category : ObjCategory} {key : Key} (h : ¬ (category = w.category ∧ key = w.key)) :
    apply f w category key = f category key :=
  FlatStore.write_of_ne h _ _

theorem apply_self (h : w.value ≠ []) :
    apply f w w.category w.key =
      some (overwrite (f.content w.category w.key) w.offset w.value) :=
  FlatStore.write_self h _

theorem content_apply (f : FlatStore) (w : WriteCall) :
    (apply f w).content w.category w.key =
      overwrite (f.content w.category w.key) w.offset w.value :=
  FlatStore.content_write _ _ _ _ _

/-- No content gets shorter. -/
theorem length_apply (f : FlatStore) (w : WriteCall) (category : ObjCategory)
    (key : Key) :
    (f.content category key).length ≤ ((apply f w).content category key).length := by
  by_cases h : category = w.category ∧ key = w.key
  · obtain ⟨rfl, rfl⟩ := h
    rw [content_apply, length_overwrite]
    exact Nat.le_max_right _ _
  · rw [FlatStore.content, FlatStore.content, apply_of_ne h]

theorem length_foldl_apply (f : FlatStore) (ws : List WriteCall)
    (category : ObjCategory) (key : Key) :
    (f.content category key).length ≤
      ((ws.foldl apply f).content category key).length := by
  induction ws generalizing f with
  | nil => exact Nat.le_refl _
  | cons w ws ih => exact Nat.le_trans (length_apply f w category key) (ih _)

/-- Calls without gaps and without a common byte commute. -/
theorem apply_comm
    (hw : w.offset ≤ (f.content w.category w.key).length)
    (hw' : w'.offset ≤ (f.content w'.category w'.key).length) (hapart : Apart w w') :
    apply (apply f w) w' = apply (apply f w') w := by
  have hlater := Nat.le_trans hw (length_apply f w' w.category w.key)
  have hlater' := Nat.le_trans hw' (length_apply f w w'.category w'.key)
  by_cases hnil : w.value = []
  · rw [apply_nil hw hnil, apply_nil hlater hnil]
  by_cases hnil' : w'.value = []
  · rw [apply_nil hlater' hnil', apply_nil hw' hnil']
  funext category key
  by_cases h : category = w.category ∧ key = w.key
  · obtain ⟨rfl, rfl⟩ := h
    rw [apply_self hnil]
    by_cases hsame : w.category = w'.category ∧ w.key = w'.key
    · obtain ⟨hc, hk⟩ := hsame
      have hranges : w.stop ≤ w'.offset ∨ w'.stop ≤ w.offset := by
        rcases hapart with hne | hle
        · exact absurd ⟨hc.symm, hk.symm⟩ hne
        · exact hle
      have hcontent := content_apply f w
      rw [hc, hk] at hw hcontent ⊢
      rw [apply_self hnil', hcontent, content_apply]
      exact congrArg some (overwrite_comm hw hw' hranges)
    · rw [apply_of_ne hsame, apply_self hnil, FlatStore.content, FlatStore.content,
        apply_of_ne hsame]
  · rw [apply_of_ne h]
    by_cases h' : category = w'.category ∧ key = w'.key
    · obtain ⟨rfl, rfl⟩ := h'
      rw [apply_self hnil', apply_self hnil', FlatStore.content, FlatStore.content,
        apply_of_ne h]
    · rw [apply_of_ne h', apply_of_ne h', apply_of_ne h]

/-- A call may be made behind all that it is apart from. -/
theorem foldl_apply_apply
    (hw : w.offset ≤ (f.content w.category w.key).length)
    (hws : ∀ w' ∈ ws, w'.offset ≤ (f.content w'.category w'.key).length ∧ Apart w w') :
    ws.foldl apply (apply f w) = apply (ws.foldl apply f) w := by
  induction ws generalizing f with
  | nil => rfl
  | cons w' ws ih =>
      obtain ⟨hw', hapart⟩ := hws w' List.mem_cons_self
      rw [List.foldl_cons, List.foldl_cons, apply_comm hw hw' hapart]
      refine ih (Nat.le_trans hw (length_apply f w' _ _)) ?_
      intro w₁ hw₁
      obtain ⟨hoff, hapart₁⟩ := hws w₁ (List.mem_cons_of_mem _ hw₁)
      exact ⟨Nat.le_trans hoff (length_apply f w' _ _), hapart₁⟩

theorem content_apply_part (f : FlatStore) (w : WriteCall) (sum : Nat) :
    (apply f (w.part sum)).content w.category w.key =
      overwrite (f.content w.category w.key) w.offset (w.value.take sum) :=
  content_apply f (w.part sum)

/-- The bytes that have been written lie in the content. -/
theorem le_length_part {sum : Nat} (f : FlatStore) (hsum : sum ≤ w.value.length) :
    w.offset + sum ≤ ((apply f (w.part sum)).content w.category w.key).length := by
  rw [content_apply_part, length_overwrite, List.length_take, Nat.min_eq_left hsum]
  exact Nat.le_max_left _ _

/-- The bytes from `sum` on, as far as the next `n`. -/
def piece (w : WriteCall) (sum n : Nat) : WriteCall :=
  { w with value := (w.value.drop sum).take n, offset := w.offset + sum }

theorem apply_piece_eq (f : FlatStore) (w : WriteCall) (sum n : Nat) :
    apply f (w.piece sum n) =
      f.write w.category w.key ((w.value.drop sum).take n) (w.offset + sum) := rfl

theorem apply_piece_zero
    {sum : Nat} (hoff : w.offset + sum ≤ (f.content w.category w.key).length) :
    apply f (w.piece sum 0) = f := by
  rw [apply_piece_eq, List.take_zero, FlatStore.write, if_pos ⟨rfl, hoff⟩]

/-- The next bytes are written behind the first ones. -/
theorem apply_piece
    {sum n : Nat} (hsum : sum ≤ w.value.length) :
    apply (apply f (w.part sum)) (w.piece sum n) = apply f (w.part (sum + n)) := by
  have hlen : (w.value.take sum).length = sum := by simp [hsum]
  have htake : w.value.take (sum + n) =
      w.value.take sum ++ (w.value.drop sum).take n := List.take_add
  by_cases hnil : (w.value.drop sum).take n = []
  · rw [@apply_nil _ (w.piece sum n) (le_length_part f hsum) hnil]
    unfold part
    rw [htake, hnil, List.append_nil]
  funext category key
  by_cases h : category = w.category ∧ key = w.key
  · obtain ⟨rfl, rfl⟩ := h
    have hwhole : w.value.take (sum + n) ≠ [] := by
      rw [htake]
      exact List.append_ne_nil_of_right_ne_nil _ hnil
    have hjoin := overwrite_overwrite (f.content w.category w.key) w.offset
      (w.value.take sum) ((w.value.drop sum).take n)
    rw [hlen, ← htake, ← content_apply_part] at hjoin
    calc apply (apply f (w.part sum)) (w.piece sum n) w.category w.key
        = some (overwrite ((apply f (w.part sum)).content w.category w.key)
            (w.offset + sum) ((w.value.drop sum).take n)) :=
          @apply_self _ (w.piece sum n) hnil
      _ = some (overwrite (f.content w.category w.key) w.offset
            (w.value.take (sum + n))) := by rw [hjoin]
      _ = apply f (w.part (sum + n)) w.category w.key :=
          (@apply_self _ (w.part (sum + n)) hwhole).symm
  · rw [@apply_of_ne _ (w.piece sum n) _ _ h, @apply_of_ne _ (w.part sum) _ _ h,
      @apply_of_ne _ (w.part (sum + n)) _ _ h]

end Apply

/-- How far a call has come. -/
inductive Stage where
  | begins
  /-- There is no object at the offset. -/
  | below
  | writes (sum : Nat)
  | ended
deriving DecidableEq, Repr

/-- The rest of `write` behind the search. -/
def rest (w : WriteCall) (found : Option Nat) : IoProg Nat := do
  RadosIo.fillGap w.category w.key (found.getD 0) w.offset
  RadosIo.writeLoop w.category w.key w.value (offStop w.offset w.value.length) w.offset 0

/-- A call on its way. -/
structure Running where
  call : WriteCall
  stage : Stage

namespace Running

/-- How many bytes it has written. -/
def sum (g : Running) : Nat :=
  match g.stage with
  | .begins | .below => 0
  | .writes sum => sum
  | .ended => g.call.value.length

def written (g : Running) : WriteCall := g.call.part g.sum

/-- The calls on objects that are left are no more than this. -/
def rank (g : Running) : Nat :=
  match g.stage with
  | .begins => g.call.value.length + 2
  | .below => g.call.value.length + 1
  | .writes sum => g.call.value.length - sum
  | .ended => 0

/-- What is left of the program. -/
inductive At : Running → IoProg Nat → Prop
  | begins (w : WriteCall) : At ⟨w, .begins⟩ w.prog
  | below (w : WriteCall) {k : Nat} (hk : w.offset = (k + 1) * objSize) :
      At ⟨w, .below⟩ (RadosIo.lbFileSize "rados_io::write()" w.category w.key k >>= w.rest)
  | writes (w : WriteCall) {sum : Nat} (hsum : sum < w.value.length) :
      At ⟨w, .writes sum⟩ (RadosIo.writeLoop w.category w.key w.value
        (offStop w.offset w.value.length) (w.offset + sum) sum)
  | ended (w : WriteCall) : At ⟨w, .ended⟩ (.ret w.value.length)

section Steps

variable {w : WriteCall} {f : FlatStore} {p p' : Pool}

/-- The data loop has bytes to write, or has ended. -/
theorem at_writeLoop
    {cursor sum : Nat} (hend : w.stop ≤ offEnd)
    (hcursor : cursor = w.offset + sum ∧ sum < w.value.length ∨
      w.stop ≤ cursor ∧ sum = w.value.length) :
    ∃ stage, At ⟨w, stage⟩ (RadosIo.writeLoop w.category w.key w.value
        (offStop w.offset w.value.length) cursor sum) ∧
      (⟨w, stage⟩ : Running).sum = sum ∧
      (⟨w, stage⟩ : Running).rank ≤ w.value.length - sum := by
  rcases hcursor with ⟨rfl, hsum⟩ | ⟨hle, rfl⟩
  · exact ⟨.writes sum, .writes w hsum, rfl, Nat.le_refl _⟩
  · refine ⟨.ended, ?_, rfl, Nat.zero_le _⟩
    have hstop : offStop w.offset w.value.length = w.stop :=
      offStop_of_lt (Nat.lt_of_le_of_lt hend offEnd_lt_offMax)
    rw [RadosIo.writeLoop, hstop, dif_neg (Nat.not_lt_of_le hle)]
    exact .ended w

/-- The search makes one `stat`. -/
theorem step_lbFileSize
    {function : String} {category : ObjCategory} {key : Key} {k : Nat}
    {next : Option Nat → IoProg Nat} :
    (RadosIo.lbFileSize function category key k >>= next).step Pool.handle p =
      some (match p (objName category key k), k with
        | some b, k => next (some ((k <<< objBits) + b.length))
        | none, 0 => next none
        | none, k + 1 => RadosIo.lbFileSize function category key k >>= next, p) := by
  cases k with
  | zero =>
      simp only [RadosIo.lbFileSize, RadosIo.statPrev, Prog.call_bind, Prog.step,
        Pool.handle]
      cases p (objName category key 0) <;> rfl
  | succ k =>
      simp only [RadosIo.lbFileSize, RadosIo.statPrev, Prog.call_bind, Prog.step,
        Pool.handle]
      cases p (objName category key (k + 1)) <;> rfl

/-- Writing an object is one call. -/
theorem step_writeObj
    {oid : Key} {buf : Bytes} {len offset n : Nat} {next : Nat → IoProg Nat}
    (hrun : (RadosIo.writeObj oid buf len offset).run Pool.handle p = (.ok n, p')) :
    (RadosIo.writeObj oid buf len offset >>= next).step Pool.handle p =
      some (next n, p') := by
  unfold RadosIo.writeObj at hrun ⊢
  split at hrun
  · cases hrun
  · rename_i h
    rw [if_neg h]
    cases hrun
    rfl

/-- No gap has been seen, so that the data comes next. -/
theorem at_rest
    {found : Option Nat} (hfound : w.offset ≤ found.getD 0) (hend : w.stop ≤ offEnd) :
    ∃ stage, At ⟨w, stage⟩ (w.rest found) ∧ (⟨w, stage⟩ : Running).sum = 0 ∧
      (⟨w, stage⟩ : Running).rank ≤ w.value.length := by
  have hrest : w.rest found = RadosIo.writeLoop w.category w.key w.value
      (offStop w.offset w.value.length) w.offset 0 := by
    unfold rest RadosIo.fillGap
    rw [if_neg (Nat.not_lt_of_le hfound)]
    rfl
  rw [hrest]
  refine at_writeLoop hend ?_
  rcases Nat.eq_zero_or_pos w.value.length with hzero | hpos
  · exact .inr ⟨by rw [stop, hzero, Nat.add_zero], hzero.symm⟩
  · exact .inl ⟨rfl, hpos⟩

/-- The object of the offset is there, or the content ends in front of it. -/
theorem step_begins
    (hp : Represents p f) (hw : w.InRange f) :
    ∃ q stage, w.prog.step Pool.handle p = some (q, p) ∧ At ⟨w, stage⟩ q ∧
      (⟨w, stage⟩ : Running).sum = 0 ∧
      (⟨w, stage⟩ : Running).rank ≤ w.value.length + 1 := by
  obtain ⟨n, hf, -⟩ := hp.file w.category w.key
  have hbound := lt_nextBound w.offset
  rw [nextBound_eq] at hbound
  have hcursor := cursor_eq w.offset
  have hbegins := hw.begins
  have hprog : w.prog = RadosIo.lbFileSize "rados_io::write()" w.category w.key
      (objNum w.offset) >>= w.rest := rfl
  rw [hprog, step_lbFileSize]
  generalize objNum w.offset = k at hbound hcursor
  rcases Nat.lt_or_ge k n with hk | hk
  · have hobj : p (objName w.category w.key k) = some _ := hf.some_of_lt k hk
    rw [hobj]
    have hfound : w.offset ≤ (some ((k <<< objBits) +
        (slice (f.content w.category w.key) (k * objSize) objSize).length)).getD 0 := by
      rw [Option.getD_some, shiftLeft_objBits, hf.end_of_some hk]
      exact Nat.le_min.mpr ⟨hbegins, Nat.le_of_lt hbound⟩
    obtain ⟨stage, hat, hsum, hrank⟩ := at_rest hfound hw.ends
    exact ⟨_, stage, rfl, hat, hsum, Nat.le_succ_of_le hrank⟩
  · have hobj : p (objName w.category w.key k) = none := hf.none_of_ge k hk
    -- the content ends at the beginning of window `k`
    have hlen := Nat.le_trans hf.covers (Nat.mul_le_mul_right objSize hk)
    have hoff : w.offset = k * objSize := by omega
    rw [hobj]
    cases k with
    | zero =>
        rw [Nat.zero_mul] at hoff
        have hfound : w.offset ≤ (none : Option Nat).getD 0 := Nat.le_of_eq hoff
        obtain ⟨stage, hat, hsum, hrank⟩ := at_rest hfound hw.ends
        exact ⟨_, stage, rfl, hat, hsum, Nat.le_succ_of_le hrank⟩
    | succ k => exact ⟨_, .below, rfl, .below w hoff, rfl, Nat.le_refl _⟩

/-- The object before it is full. -/
theorem step_below
    {k : Nat} (hp : Represents p f) (hw : w.InRange f)
    (hk : w.offset = (k + 1) * objSize) :
    ∃ q stage, (RadosIo.lbFileSize "rados_io::write()" w.category w.key k >>=
        w.rest).step Pool.handle p = some (q, p) ∧ At ⟨w, stage⟩ q ∧
      (⟨w, stage⟩ : Running).sum = 0 ∧ (⟨w, stage⟩ : Running).rank ≤ w.value.length := by
  obtain ⟨n, hf, -⟩ := hp.file w.category w.key
  have hbegins := hw.begins
  have hlt : k < n := by
    have hle := Nat.le_trans hbegins hf.covers
    rw [hk] at hle
    exact Nat.lt_of_succ_le (Nat.le_of_mul_le_mul_right hle objSize_pos)
  have hobj : p (objName w.category w.key k) = some _ := hf.some_of_lt k hlt
  have hfound : w.offset ≤ (some ((k <<< objBits) +
      (slice (f.content w.category w.key) (k * objSize) objSize).length)).getD 0 := by
    rw [Option.getD_some, shiftLeft_objBits, hf.end_of_some hlt]
    rw [Nat.succ_mul] at hk
    exact Nat.le_min.mpr ⟨hbegins, Nat.le_of_eq hk⟩
  obtain ⟨stage, hat, hsum, hrank⟩ := at_rest hfound hw.ends
  rw [step_lbFileSize, hobj]
  exact ⟨_, stage, rfl, hat, hsum, hrank⟩

/-- The file is as a write leaves it. -/
theorem represents_write
    {category : ObjCategory} {key : Key} {value : Bytes} {offset n : Nat}
    (hp : Represents p f) (hvalue : value ≠ []) (hend : offset + value.length ≤ offEnd)
    (hs : SameElsewhere category key p p')
    (hf : FileIs p' category key (overwrite (f.content category key) offset value) n)
    (hn : 0 < n) : Represents p' (f.write category key value offset) := by
  have hcontent := FlatStore.content_write f category key value offset
  refine hp.update hs (hcontent ▸ hf) ?_ ?_ ?_
  · rw [FlatStore.write_self hvalue]
    simpa using hn
  · rw [hcontent, length_overwrite]
    exact Nat.max_le.mpr ⟨hend, hp.bounded _ _⟩
  · exact fun category' key' hne => FlatStore.write_of_ne hne _ _

/-- One object gets its bytes. -/
theorem step_writes
    {sum : Nat} (hp : Represents p f)
    (hoff : w.offset + sum ≤ (f.content w.category w.key).length)
    (hend : w.stop ≤ offEnd) (hsum : sum < w.value.length) :
    ∃ q p' n stage, (RadosIo.writeLoop w.category w.key w.value
        (offStop w.offset w.value.length) (w.offset + sum) sum).step Pool.handle p =
          some (q, p') ∧
      At ⟨w, stage⟩ q ∧ (⟨w, stage⟩ : Running).sum = sum + n ∧
      (⟨w, stage⟩ : Running).rank < w.value.length - sum ∧
      Represents p' (apply f (w.piece sum n)) := by
  obtain ⟨k, hf, -⟩ := hp.file w.category w.key
  have hstop : offStop w.offset w.value.length = w.stop :=
    offStop_of_lt (Nat.lt_of_le_of_lt hend offEnd_lt_offMax)
  have hlt : w.offset + sum < w.stop := Nat.add_lt_add_left hsum _
  obtain ⟨hpos, hle, -⟩ := subLen_spec hlt
  have hnext := nextBound_or hlt
  rw [hstop, RadosIo.writeLoop, dif_pos hlt,
    if_pos (nextBound_lt_offMax (Nat.lt_of_lt_of_le hlt hend))]
  generalize hn : subLen (w.offset + sum) w.stop = n at hpos hle hnext
  have hfits : sum + n ≤ w.value.length := by
    rw [stop, Nat.add_assoc] at hle
    exact Nat.le_of_add_le_add_left hle
  have hbuf : n ≤ (w.value.drop sum).length := by
    rw [List.length_drop]
    exact Nat.le_sub_of_add_le' hfits
  obtain ⟨p₁, hrun, hf₁, hs₁⟩ := RadosIo.run_writeObj hf hlt hoff (hn ▸ hbuf)
  rw [hn] at hrun hf₁
  rw [step_writeObj hrun]
  have hlen : ((w.value.drop sum).take n).length = n := by
    rw [List.length_take, Nat.min_eq_left hbuf]
  have hpiece : (w.value.drop sum).take n ≠ [] :=
    List.ne_nil_of_length_pos (by rw [hlen]; exact hpos)
  have hle' : w.offset + sum + ((w.value.drop sum).take n).length ≤ offEnd := by
    rw [hlen]
    exact Nat.le_trans hle hend
  have hmore : nextBound (w.offset + sum) = w.offset + (sum + n) ∧
        sum + n < w.value.length ∨
      w.stop ≤ nextBound (w.offset + sum) ∧ sum + n = w.value.length := by
    rcases hnext with ⟨hcursor, -⟩ | ⟨hcursor, hlast⟩
    · rw [← hcursor, Nat.add_assoc]
      rcases Nat.lt_or_eq_of_le hfits with hlt' | hall
      · exact .inl ⟨rfl, hlt'⟩
      · exact .inr ⟨Nat.le_of_eq (by rw [stop, hall]), hall⟩
    · rw [stop, Nat.add_assoc] at hcursor
      exact .inr ⟨hlast, Nat.add_left_cancel hcursor⟩
  obtain ⟨stage, hat, hstage, hrank⟩ := at_writeLoop hend hmore
  have hlater : (⟨w, stage⟩ : Running).rank < w.value.length - sum :=
    Nat.lt_of_le_of_lt hrank (Nat.sub_lt_sub_left hsum (Nat.lt_add_of_pos_right hpos))
  rw [hstop] at hat
  have hstored := represents_write hp hpiece hle' hs₁ hf₁
    (Nat.lt_of_lt_of_le (Nat.succ_pos _) (Nat.le_max_right _ _))
  rw [← apply_piece_eq] at hstored
  exact ⟨_, p₁, n, stage, rfl, hat, hstage, hlater, hstored⟩

/-- A call that has not ended can go on.  Nothing else of the store changes. -/
theorem At.step
    {g : Running} {q : IoProg Nat} (hat : At g q) (hrun : g.stage ≠ .ended)
    (hp : Represents p f) (hw : g.call.InRange f)
    (hoff : g.call.offset + g.sum ≤
      (f.content g.call.category g.call.key).length) :
    ∃ q' p' n stage, q.step Pool.handle p = some (q', p') ∧ At ⟨g.call, stage⟩ q' ∧
      (⟨g.call, stage⟩ : Running).sum = g.sum + n ∧
      (⟨g.call, stage⟩ : Running).rank < g.rank ∧
      Represents p' (apply f (g.call.piece g.sum n)) := by
  cases hat with
  | begins w =>
      obtain ⟨q', stage, hstep, hat', hsum, hrank⟩ := step_begins hp hw
      refine ⟨q', p, 0, stage, hstep, hat', hsum, Nat.lt_succ_of_le hrank, ?_⟩
      rw [apply_piece_zero hoff]
      exact hp
  | below w hk =>
      obtain ⟨q', stage, hstep, hat', hsum, hrank⟩ := step_below hp hw hk
      refine ⟨q', p, 0, stage, hstep, hat', hsum, Nat.lt_succ_of_le hrank, ?_⟩
      rw [apply_piece_zero hoff]
      exact hp
  | writes w hsum => exact step_writes hp hoff hw.ends hsum
  | ended w => exact absurd rfl hrun

theorem At.of_ended
    {g : Running} {q : IoProg Nat} (hat : At g q) (hend : g.stage = .ended) :
    q = .ret g.call.value.length := by
  cases hat with
  | ended w => rfl
  | begins w => cases hend
  | below w hk => cases hend
  | writes w hsum => cases hend

theorem At.sum_le {g : Running} {q : IoProg Nat} (hat : At g q) :
    g.sum ≤ g.call.value.length := by
  cases hat with
  | begins w => exact Nat.zero_le _
  | below w hk => exact Nat.zero_le _
  | writes w hsum => exact Nat.le_of_lt hsum
  | ended w => exact Nat.le_refl _

end Steps

end Running

section Together

variable {f : FlatStore} {ws : List WriteCall} {l r gs : List Running} {g g' : Running}

/-- What all calls have done so far. -/
def applied (f : FlatStore) (gs : List Running) : FlatStore :=
  (gs.map Running.written).foldl apply f

/-- The calls can be made together. -/
structure Compatible (f : FlatStore) (ws : List WriteCall) : Prop where
  inRange : ∀ w ∈ ws, w.InRange f
  apart : ws.Pairwise Apart

theorem Apart.piece
    {w w' : WriteCall} (h : Apart w w') {sum n : Nat} (hsum : sum ≤ w.value.length)
    (sum' : Nat) : Apart (w.piece sum n) (w'.part sum') := by
  have hstop : (w.piece sum n).stop ≤ w.stop := by
    rw [stop, stop, WriteCall.piece, List.length_take, List.length_drop]
    have hle : min n (w.value.length - sum) ≤ w.value.length - sum := Nat.min_le_right _ _
    dsimp only
    omega
  have hoff : w.offset ≤ (w.piece sum n).offset := Nat.le_add_right _ _
  rcases h with hne | hle | hle
  · exact .inl hne
  · exact .inr (.inl (Nat.le_trans hstop hle))
  · exact .inr (.inr (Nat.le_trans (stop_part_le w' sum') (Nat.le_trans hle hoff)))

/-- What a call has written lies in the content. -/
theorem le_length_applied
    (hg : g ∈ gs) (hsum : g.sum ≤ g.call.value.length) :
    g.call.offset + g.sum ≤
      ((applied f gs).content g.call.category g.call.key).length := by
  obtain ⟨l, r, rfl⟩ := List.append_of_mem hg
  rw [applied, List.map_append, List.map_cons, List.foldl_append, List.foldl_cons]
  exact Nat.le_trans (le_length_part _ hsum) (length_foldl_apply _ _ _ _)

/-- One call has written some bytes more. -/
theorem applied_advance
    {n : Nat} (h : Compatible f ((l ++ g :: r).map Running.call))
    (hcall : g'.call = g.call) (hsum : g'.sum = g.sum + n)
    (hle : g.sum ≤ g.call.value.length) :
    applied f (l ++ g' :: r) = apply (applied f (l ++ g :: r)) (g.call.piece g.sum n) := by
  have hwritten : g'.written = g.call.part (g.sum + n) := by
    rw [Running.written, hcall, hsum]
  have hbefore : g.written = g.call.part g.sum := rfl
  rw [applied, applied, List.map_append, List.map_append, List.map_cons, List.map_cons,
    List.foldl_append, List.foldl_append, List.foldl_cons, List.foldl_cons, hwritten,
    hbefore, ← apply_piece hle]
  refine foldl_apply_apply (le_length_part _ hle) ?_
  · intro w' hw'
    obtain ⟨g₁, hg₁, rfl⟩ := List.mem_map.mp hw'
    have hmem : g₁.call ∈ (l ++ g :: r).map Running.call :=
      List.mem_map_of_mem (by simp [hg₁])
    constructor
    · exact Nat.le_trans (h.inRange _ hmem).begins
        (Nat.le_trans (length_foldl_apply _ _ _ _) (length_apply _ _ _ _))
    · have hpair := h.apart
      rw [List.map_append, List.map_cons] at hpair
      have hlater := (List.pairwise_cons.mp (List.pairwise_append.mp hpair).2.1).1
      exact (hlater _ (List.mem_map_of_mem hg₁)).piece hle _

/-- The list around one of its entries. -/
theorem split_of_getElem?
    {i : Nat} (hg : gs[i]? = some g) :
    ∃ l r, gs = l ++ g :: r ∧ ∀ g', gs.set i g' = l ++ g' :: r := by
  obtain ⟨hi, rfl⟩ := List.getElem?_eq_some_iff.mp hg
  have hset : ∀ g', gs.set i g' = gs.take i ++ g' :: gs.drop (i + 1) := by
    intro g'
    rw [List.set_eq_take_append_cons_drop, if_pos hi]
  refine ⟨gs.take i, gs.drop (i + 1), ?_, hset⟩
  rw [← hset, List.set_getElem_self]

/-- The calls are those, and the store has what they have written. -/
def Inv (f : FlatStore) (ws : List WriteCall) (gs : List Running) (p : Pool) : Prop :=
  gs.map Running.call = ws ∧ Represents p (applied f gs)

/-- A call on an object moves one of them. -/
theorem Inv.step
    (h : Compatible f ws) {p : Pool} (hinv : Inv f ws gs p) {i : Nat}
    (hg : gs[i]? = some g) {q : IoProg Nat} (hat : Running.At g q)
    (hrun : g.stage ≠ .ended) :
    ∃ q' p' g', q.step Pool.handle p = some (q', p') ∧ Running.At g' q' ∧
      Inv f ws (gs.set i g') p' ∧ g'.rank < g.rank := by
  obtain ⟨hcalls, hp⟩ := hinv
  have hmem := List.mem_of_getElem? hg
  have hw : g.call ∈ ws := hcalls ▸ List.mem_map_of_mem hmem
  have hrange : g.call.InRange (applied f gs) :=
    ⟨Nat.le_trans (h.inRange _ hw).begins (length_foldl_apply _ _ _ _),
      (h.inRange _ hw).ends⟩
  obtain ⟨q', p', n, stage, hstep, hat', hsum, hrank, hp'⟩ :=
    hat.step hrun hp hrange (le_length_applied hmem hat.sum_le)
  obtain ⟨l, r, rfl, hset⟩ := split_of_getElem? hg
  refine ⟨q', p', ⟨g.call, stage⟩, hstep, hat', ⟨?_, ?_⟩, hrank⟩
  · rw [hset, ← hcalls]
    simp
  · rw [hset, @applied_advance f l r g ⟨g.call, stage⟩ n (hcalls ▸ h) rfl hsum hat.sum_le]
    exact hp'

/-- The stages of calls that are compatible. -/
def outline (h : Compatible f ws) :
    Threads.Outline (I := IoCtx) (ε := Exn) (α := Nat) Pool.handle Running where
  At := Running.At
  Inv := Inv f ws
  rank := Running.rank
  call := by
    intro gs p p' i g q q' hinv hg hat hstep
    by_cases hend : g.stage = .ended
    · rw [hat.of_ended hend] at hstep
      cases hstep
    · obtain ⟨q₁, p₁, g', hstep₁, hat', hinv', hrank⟩ := hinv.step h hg hat hend
      rw [hstep₁] at hstep
      cases hstep
      exact ⟨g', hat', hinv', hrank⟩

/-- The parts that have been written. -/
theorem written_eq (gs : List Running) :
    gs.map Running.written =
      (gs.map Running.call).zipWith part (gs.map Running.sum) := by
  rw [List.zipWith_map, List.zipWith_self]
  rfl

/-- No call has begun. -/
def beginning (ws : List WriteCall) : List Running := ws.map fun w => ⟨w, .begins⟩

theorem beginning_call (ws : List WriteCall) :
    (beginning ws).map Running.call = ws := by
  rw [beginning, List.map_map]
  exact List.map_id ws

theorem applied_beginning
    (h : ∀ w ∈ ws, w.InRange f) : applied f (beginning ws) = f := by
  induction ws with
  | nil => rfl
  | cons w ws ih =>
      have hnone : apply f (w.part 0) = f :=
        @apply_nil _ (w.part 0) (h w List.mem_cons_self).begins
          (@List.take_zero _ w.value)
      calc applied f (beginning (w :: ws))
          = applied (apply f (w.part 0)) (beginning ws) := rfl
        _ = applied f (beginning ws) := by rw [hnone]
        _ = f := ih fun w' hw' => h w' (List.mem_cons_of_mem _ hw')

theorem reached_beginning
    (h : Compatible f ws) {p : Pool} (hp : Represents p f) :
    (outline h).Reached (beginning ws) ⟨ws.map prog, p⟩ where
  length := by rw [beginning, List.length_map, List.length_map]
  thread := by
    intro i g q hg hq
    rw [beginning, List.getElem?_map, Option.map_eq_some_iff] at hg
    dsimp only at hq
    rw [List.getElem?_map, Option.map_eq_some_iff] at hq
    obtain ⟨w, hw, rfl⟩ := hg
    obtain ⟨w', hw', rfl⟩ := hq
    rw [hw] at hw'
    cases hw'
    exact .begins w
  inv := ⟨beginning_call ws, by rw [applied_beginning h.inRange]; exact hp⟩

/-- All calls have ended. -/
theorem applied_ended
    (h : ∀ g ∈ gs, g.stage = .ended) :
    applied f gs = (gs.map Running.call).foldl apply f := by
  have hwritten : gs.map Running.written = gs.map Running.call := by
    refine List.map_congr_left fun g hg => ?_
    rw [Running.written, Running.sum, h g hg]
    exact congrArg (fun value => { g.call with value }) (List.take_length)
  rw [applied, hwritten]

/-- **Writes that take turns.**  However the calls on the objects are interleaved,
they come to an end; no `write` throws or goes wrong; at any time the store has the
first bytes of each, and when all have returned, what they do one after the other. -/
theorem concurrent_writes
    {σ : Type} (L : Librados σ) (h : Compatible f ws) {s₀ : σ}
    (hstart : Represents (L.objects s₀) f) {sched : List Nat}
    {s : Threads IoCtx Exn Nat σ}
    (hrun : Stepper.runFrom (Threads.step L.call) ⟨ws.map prog, s₀⟩ sched = some s) :
    sched.length ≤ (ws.map fun w => w.value.length + 2).sum ∧
      (∀ (i : Nat) w q, ws[i]? = some w → s.progs[i]? = some q →
        Prog.step L.call q s.state = none → q = .ret w.value.length) ∧
      (∃ sums : List Nat, sums.length = ws.length ∧
        Represents (L.objects s.state) ((ws.zipWith part sums).foldl apply f)) ∧
      ((∀ i, Threads.step L.call s i = none) →
        Represents (L.objects s.state) (ws.foldl apply f)) := by
  obtain ⟨gs, hs, hleft⟩ := (outline h).runFrom (reached_beginning h hstart)
    (Threads.runFrom_seen L.call_eq hrun)
  obtain ⟨hcalls, hstore⟩ := hs.inv
  -- a thread that cannot move has ended
  have hended : ∀ (i : Nat) g q, gs[i]? = some g → s.progs[i]? = some q →
      Prog.step L.call q s.state = none → g.stage = .ended := by
    intro i g q hg hq hstuck
    by_contra hrun
    obtain ⟨q', p', g', hstep, -⟩ := hs.inv.step h hg (hs.thread i g q hg hq) hrun
    have hview := Prog.step_view L.call_eq q s.state
    rw [hstuck] at hview
    exact nomatch hview.trans hstep
  refine ⟨?_, ?_, ⟨gs.map Running.sum, ?_, ?_⟩, ?_⟩
  · have hsum : (outline h).left (beginning ws) =
        (ws.map fun w => w.value.length + 2).sum := by
      rw [Threads.Outline.left, beginning, List.map_map]
      rfl
    omega
  · intro i w q hw hq hstuck
    rw [← hcalls, List.getElem?_map, Option.map_eq_some_iff] at hw
    obtain ⟨g, hg, rfl⟩ := hw
    exact (hs.thread i g q hg hq).of_ended (hended i g q hg hq hstuck)
  · rw [← hcalls, List.length_map, List.length_map]
  · rw [applied, written_eq, hcalls] at hstore
    exact hstore
  · intro hstuck
    rw [applied_ended, hcalls] at hstore
    · exact hstore
    · intro g hg
      obtain ⟨i, hi, hgi⟩ := List.getElem_of_mem hg
      have hg' : gs[i]? = some g := by rw [List.getElem?_eq_getElem hi, hgi]
      obtain ⟨q, hq⟩ : ∃ q, s.progs[i]? = some q :=
        ⟨_, List.getElem?_eq_getElem (hs.length ▸ hi)⟩
      refine hended i g q hg' hq ?_
      have hnone := hstuck i
      rw [Threads.step, hq, Option.bind_some, Option.map_eq_none_iff] at hnone
      exact hnone

end Together

section Examples

/-- Two clients that write to one file. -/
def firstHalf : WriteCall := ⟨.DATA, ['f'], [1, 2], 0⟩
def secondHalf : WriteCall := ⟨.DATA, ['f'], [3, 4], 2⟩

/-- Both are compatible with a file of four bytes. -/
def fourBytes : FlatStore := FlatStore.empty.write .DATA ['f'] [0, 0, 0, 0] 0

theorem halves_compatible : Compatible fourBytes [firstHalf, secondHalf] where
  inRange := by
    have hlen : (fourBytes.content .DATA ['f']).length = 4 := rfl
    intro w hw
    rcases List.mem_pair.mp hw with rfl | rfl
    · exact ⟨Nat.zero_le _, le_offEnd (by decide)⟩
    · exact ⟨by rw [secondHalf, hlen]; decide, le_offEnd (by decide)⟩
  apart := List.pairwise_pair.mpr (.inr (.inl (Nat.le_refl 2)))

theorem concurrent_writes_halves :
    ∃ p sched s, Stepper.runFrom (Threads.step Pool.handle)
        ⟨[firstHalf, secondHalf].map prog, p⟩ sched = some s ∧
      Represents s.state ([firstHalf, secondHalf].foldl apply fourBytes) := by
  obtain ⟨p, -, hp⟩ := @Represents.run_write _ _ Represents.empty .DATA ['f'] [0, 0, 0, 0] 0
    (le_offEnd (by decide))
  obtain ⟨sched, s, hrun, hend⟩ :=
    (outline halves_compatible).exists_schedule (reached_beginning halves_compatible hp)
  obtain ⟨-, -, -, hstore⟩ :=
    concurrent_writes Pool.librados halves_compatible hp hrun
  exact ⟨p, sched, s, hrun, hstore hend⟩

end Examples

end WriteCall

end Nmfs
