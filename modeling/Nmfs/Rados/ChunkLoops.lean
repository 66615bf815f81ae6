import Nmfs.Lib.Striping
import Nmfs.Rados.ObjectNames

/-!
# The loops of `rados_io` on a striped byte string

Each loop is specified by what it does to the byte string that the objects of
one category and key hold (`FileIs`) and by the objects it leaves alone
(`SameElsewhere`).  One chunk is handled by a lemma of its own; the loops
follow by induction on the bytes that are left.

`offEnd` is the end of the last object whose `next_bound` is still an
`off_t`.  A loop that has to go beyond it runs into undefined behaviour
(`zerofillLoop_overflow`).
-/

namespace Nmfs

open Bytes

/-- Ranges up to here are handled without signed overflow. -/
def offEnd : Nat := offMax - objSize

theorem objNum_eq (cursor : Nat) : objNum cursor = cursor / objSize := by
  simp [objNum, objBits, objSize, Nat.shiftRight_eq_div_pow]

theorem objOffset_eq (cursor : Nat) : objOffset cursor = cursor % objSize := by
  have h := Nat.and_two_pow_sub_one_eq_mod cursor 22
  simpa [objOffset, objSize] using h

theorem shiftLeft_objBits (k : Nat) : k <<< objBits = k * objSize := by
  simp [objBits, objSize, Nat.shiftLeft_eq]

theorem nextBound_eq (cursor : Nat) :
    nextBound cursor = objNum cursor * objSize + objSize := by
  unfold nextBound objBase
  rw [shiftLeft_objBits]
  rfl

theorem offMax_eq : offMax = 2199023255552 * objSize := by
  simp [offMax, objSize]

theorem offEnd_eq : offEnd = 2199023255551 * objSize := by
  simp [offEnd, offMax, objSize]

theorem le_offEnd {n : Nat} (h : n ≤ 2 ^ 33) : n ≤ offEnd := by
  rw [offEnd_eq]
  calc n ≤ 2199023255551 * 1 := by omega
    _ ≤ 2199023255551 * objSize := Nat.mul_le_mul_left _ objSize_pos

/-- A cursor is an object number and an offset in that object. -/
theorem cursor_eq (cursor : Nat) :
    objNum cursor * objSize + objOffset cursor = cursor := by
  rw [objNum_eq, objOffset_eq]
  exact Nat.div_add_mod' cursor objSize

theorem objOffset_lt (cursor : Nat) : objOffset cursor < objSize := by
  rw [objOffset_eq]
  exact Nat.mod_lt _ objSize_pos

/-- The object of the cursor ends below the end of any later object. -/
theorem nextBound_le_mul {cursor n : Nat} (h : objNum cursor < n) :
    nextBound cursor ≤ n * objSize := by
  have hmul := Nat.mul_le_mul_right objSize (Nat.succ_le_of_lt h)
  rw [Nat.succ_mul] at hmul
  rw [nextBound_eq]
  exact hmul

/-- The chunk at the cursor is not empty and stays in its object. -/
theorem subLen_spec {cursor stop : Nat} (h : cursor < stop) :
    0 < subLen cursor stop ∧ cursor + subLen cursor stop ≤ stop ∧
      objOffset cursor + subLen cursor stop ≤ objSize := by
  have h₁ := lt_nextBound cursor
  have h₂ := cursor_eq cursor
  have h₃ := nextBound_eq cursor
  unfold subLen
  omega

/-- The next cursor is behind the chunk, or past the end. -/
theorem nextBound_or {cursor stop : Nat} (h : cursor < stop) :
    (cursor + subLen cursor stop = nextBound cursor ∧ nextBound cursor ≤ stop) ∨
      (cursor + subLen cursor stop = stop ∧ stop ≤ nextBound cursor) := by
  have h₁ := lt_nextBound cursor
  unfold subLen
  omega

/-- Below `offEnd` the signed addition of `next_bound` does not overflow. -/
theorem nextBound_lt_offMax {cursor : Nat} (h : cursor < offEnd) :
    nextBound cursor < offMax := by
  rw [nextBound_eq, objNum_eq]
  rw [offEnd_eq, Nat.mul_comm] at h
  have hdiv := Nat.div_lt_of_lt_mul h
  rw [offMax_eq, ← Nat.succ_mul]
  exact Nat.mul_lt_mul_of_pos_right (by omega) objSize_pos

theorem nextBound_le_offEnd {cursor : Nat} (h : nextBound cursor < offMax) :
    nextBound cursor ≤ offEnd := by
  rw [nextBound_eq, offMax_eq, ← Nat.succ_mul] at h
  have hlt := Nat.lt_of_mul_lt_mul_right h
  rw [nextBound_eq, offEnd_eq, ← Nat.succ_mul]
  exact Nat.mul_le_mul_right objSize (by omega)

/-- In the last object below `offMax` it does. -/
theorem offMax_le_nextBound {cursor : Nat} (h : offEnd ≤ cursor) :
    offMax ≤ nextBound cursor := by
  rw [offEnd_eq] at h
  have hdiv := (Nat.le_div_iff_mul_le objSize_pos).mpr h
  rw [nextBound_eq, objNum_eq, offMax_eq, ← Nat.succ_mul]
  exact Nat.mul_le_mul_right objSize (by omega)

theorem offStop_of_lt {offset len : Nat} (h : offset + len < offMax) :
    offStop offset len = offset + len := by
  have h₁ : (offset + len) % 2 ^ 64 = offset + len :=
    Nat.mod_eq_of_lt (Nat.lt_trans h (by decide))
  unfold offStop
  rw [h₁, if_pos h]

theorem offEnd_lt_offMax : offEnd < offMax := by
  simp [offEnd, offMax, objSize]

/-- The objects of `category` and `key` hold the bytes `c`, in `n` objects. -/
def FileIs (p : Pool) (category : ObjCategory) (key : Key) (c : Bytes)
    (n : Nat) : Prop :=
  Striped objSize c n (fun k => p (objName category key k))

/-- No object of another category or key differs. -/
def SameElsewhere (category : ObjCategory) (key : Key) (p p' : Pool) : Prop :=
  ∀ oid, (∀ k, oid ≠ objName category key k) → p' oid = p oid

section Frame

variable {category : ObjCategory} {key : Key} {p p' p'' : Pool}

theorem SameElsewhere.refl : SameElsewhere category key p p :=
  fun _ _ => rfl

theorem SameElsewhere.trans
    (h : SameElsewhere category key p p')
    (h' : SameElsewhere category key p' p'') :
    SameElsewhere category key p p'' :=
  fun oid hoid => (h' oid hoid).trans (h oid hoid)

theorem SameElsewhere.put (k : Nat) (b : Bytes) :
    SameElsewhere category key p (p.put (objName category key k) b) :=
  fun _ hoid => Pool.put_of_ne (hoid k) b

theorem SameElsewhere.erase (k : Nat) :
    SameElsewhere category key p (p.erase (objName category key k)) :=
  fun _ hoid => Pool.erase_of_ne (hoid k)

/-- The byte strings of all other categories and keys are unchanged. -/
theorem SameElsewhere.fileIs
    (h : SameElsewhere category key p p')
    {category' : ObjCategory} {key' : Key} {c : Bytes} {n : Nat}
    (hne : ¬ (category' = category ∧ key' = key))
    (hf : FileIs p category' key' c n) :
    FileIs p' category' key' c n := by
  have hsame : (fun k => p' (objName category' key' k)) =
      fun k => p (objName category' key' k) := by
    funext k
    apply h
    intro j hj
    obtain ⟨hc, hk, _⟩ := objName_inj hj
    exact hne ⟨hc, hk⟩
  unfold FileIs
  rw [hsame]
  exact hf

end Frame

namespace RadosIo

section Loops

variable {category : ObjCategory} {key : Key} {p : Pool} {c : Bytes} {n : Nat}

/-- The objects of a file after one of them has been replaced. -/
theorem put_objects (k : Nat) (b : Bytes) :
    (fun j => p.put (objName category key k) b (objName category key j)) =
      Function.update (fun j => p (objName category key j)) k (some b) := by
  funext j
  by_cases hj : j = k
  · subst j
    simp
  · rw [Function.update_of_ne hj, Pool.put_of_ne (by simpa using hj)]

/-- One chunk written at a cursor that leaves no gap. -/
theorem run_writeObj
    (hf : FileIs p category key c n) {cursor stop : Nat} {buf : Bytes}
    (hlt : cursor < stop) (hcur : cursor ≤ c.length)
    (hbuf : subLen cursor stop ≤ buf.length) :
    ∃ p', Prog.run Pool.handle
        (writeObj (objName category key (objNum cursor)) buf
          (subLen cursor stop) (objOffset cursor)) p =
          (.ok (subLen cursor stop), p') ∧
      FileIs p' category key
        (overwrite c cursor (buf.take (subLen cursor stop)))
        (max n (objNum cursor + 1)) ∧
      SameElsewhere category key p p' := by
  obtain ⟨hpos, -, hin⟩ := subLen_spec hlt
  have hcursor := cursor_eq cursor
  have hlen : (buf.take (subLen cursor stop)).length = subLen cursor stop := by
    simp [hbuf]
  have hw := Striped.write hf (k := objNum cursor) (o := objOffset cursor)
    (d := buf.take (subLen cursor stop))
    (by omega) (by rw [hlen]; exact hin)
    (List.ne_nil_of_length_pos (by omega))
  rw [hcursor] at hw
  refine ⟨p.put (objName category key (objNum cursor))
    (overwrite ((p (objName category key (objNum cursor))).getD [])
      (objOffset cursor) (buf.take (subLen cursor stop))), ?_, ?_,
    SameElsewhere.put _ _⟩
  · unfold writeObj
    rw [if_neg (by omega)]
    rfl
  · unfold FileIs
    rw [put_objects]
    exact hw

/-- Writing an object succeeds, unless it would read behind the buffer. -/
theorem run_writeObj_or
    (oid : Key) (value : Bytes) (len offset : Nat) (p : Pool) :
    (∃ p', Prog.run Pool.handle (writeObj oid value len offset) p =
        (.ok len, p')) ∨
      Prog.run Pool.handle (writeObj oid value len offset) p =
        (.faults .undefinedBehaviour, p) := by
  unfold writeObj
  by_cases h : value.length < len
  · right
    rw [if_pos h, Prog.run_fault]
  · left
    rw [if_neg h]
    exact ⟨_, rfl⟩

/-- The data loop of `write` writes the rest of `value` at the cursor. -/
theorem run_writeLoop
    {value : Bytes} {stop cursor sum : Nat}
    (hf : FileIs p category key c n)
    (hcur : cursor ≤ c.length) (hstop : stop ≤ offEnd)
    (hsum : sum ≤ value.length) (hrest : cursor + (value.length - sum) = stop ∨
      (stop ≤ cursor ∧ sum = value.length)) :
    ∃ p' n', Prog.run Pool.handle
        (writeLoop category key value stop cursor sum) p =
          (.ok value.length, p') ∧
      FileIs p' category key (overwrite c cursor (value.drop sum)) n' ∧
      SameElsewhere category key p p' ∧
      n ≤ n' ∧ (cursor < stop → 0 < n') := by
  induction hm : stop - cursor using Nat.strongRecOn
    generalizing cursor sum p c n with
  | ind m ih =>
    rw [writeLoop]
    by_cases hlt : cursor < stop
    · have hb := nextBound_lt_offMax (Nat.lt_of_lt_of_le hlt hstop)
      obtain ⟨hpos, hle, -⟩ := subLen_spec hlt
      have hsub : subLen cursor stop ≤ (value.drop sum).length := by
        rw [List.length_drop]
        omega
      obtain ⟨p₁, hrun₁, hf₁, hs₁⟩ := run_writeObj hf hlt hcur hsub
      have hnext := nextBound_or hlt
      have hlen₁ :
          ((value.drop sum).take (subLen cursor stop)).length =
            subLen cursor stop := by
        rw [List.length_take, Nat.min_eq_left hsub]
      -- the content reaches at least to the end of the chunk
      have hend : cursor + subLen cursor stop ≤
          (overwrite c cursor
            ((value.drop sum).take (subLen cursor stop))).length := by
        rw [length_overwrite, hlen₁]
        exact Nat.le_max_left _ _
      have hdrop : value.drop sum =
          (value.drop sum).take (subLen cursor stop) ++
            value.drop (sum + subLen cursor stop) := by
        rw [← List.drop_drop, List.take_append_drop]
      rw [dif_pos hlt, if_pos hb, Prog.run_bind_ok _ hrun₁]
      rcases hnext with ⟨hcur', hle'⟩ | ⟨hcur', hle'⟩
      · obtain ⟨p₂, n₂, hrun₂, hf₂, hs₂, hn₂, -⟩ :=
          ih (stop - nextBound cursor)
            (by have := lt_nextBound cursor; omega)
            hf₁ (by omega)
            (show sum + subLen cursor stop ≤ value.length by rw [List.length_drop] at hsub; omega) (by omega) rfl
        refine ⟨p₂, n₂, hrun₂, ?_, hs₁.trans hs₂, by omega, by omega⟩
        rw [hdrop, ← overwrite_overwrite, hlen₁, hcur']
        exact hf₂
      · -- the chunk was the last one
        have hall : sum + subLen cursor stop = value.length := by omega
        refine ⟨p₁, max n (objNum cursor + 1), ?_, ?_, hs₁, by omega, by omega⟩
        · rw [writeLoop, dif_neg (by omega), hall, Prog.run_ret]
        · rw [hdrop, hall, List.drop_length, List.append_nil]
          exact hf₁
    · have hall : sum = value.length := by omega
      refine ⟨p, n, ?_, ?_, SameElsewhere.refl, Nat.le_refl n, by omega⟩
      · rw [dif_neg hlt, hall, Prog.run_ret]
      · rw [hall, List.drop_length, overwrite_nil hcur]
        exact hf

/-- The loop of `zerofill` writes zeros from the cursor to the end. -/
theorem run_zerofillLoop
    {stop cursor z : Nat}
    (hf : FileIs p category key c n)
    (hcur : cursor ≤ c.length) (hstop : stop ≤ offEnd)
    (hz : min (stop - cursor) objSize ≤ z) :
    ∃ p' n', Prog.run Pool.handle
        (zerofillLoop category key (List.replicate z 0) stop cursor) p =
          (.ok (), p') ∧
      FileIs p' category key
        (overwrite c cursor (List.replicate (stop - cursor) 0)) n' ∧
      SameElsewhere category key p p' ∧
      n ≤ n' ∧ (cursor < stop → 0 < n') := by
  induction hm : stop - cursor using Nat.strongRecOn
    generalizing cursor p c n with
  | ind m ih =>
    rw [zerofillLoop]
    by_cases hlt : cursor < stop
    · have hb := nextBound_lt_offMax (Nat.lt_of_lt_of_le hlt hstop)
      obtain ⟨hpos, hle, hin⟩ := subLen_spec hlt
      have hsub : subLen cursor stop ≤ z :=
        Nat.le_trans (Nat.le_min.mpr ⟨by omega, by omega⟩) hz
      have hbuf : subLen cursor stop ≤ (List.replicate z (0 : UInt8)).length := by
        rw [List.length_replicate]
        exact hsub
      obtain ⟨p₁, hrun₁, hf₁, hs₁⟩ := run_writeObj hf hlt hcur hbuf
      rw [List.take_replicate, Nat.min_eq_left hsub] at hf₁
      have hend : cursor + subLen cursor stop ≤
          (overwrite c cursor
            (List.replicate (subLen cursor stop) 0)).length := by
        rw [length_overwrite, List.length_replicate]
        exact Nat.le_max_left _ _
      rw [dif_pos hlt, if_pos hb, Prog.run_bind_ok _ hrun₁]
      rcases nextBound_or hlt with ⟨hcur', hle'⟩ | ⟨hcur', hle'⟩
      · obtain ⟨p₂, n₂, hrun₂, hf₂, hs₂, hn₂, -⟩ :=
          ih (stop - nextBound cursor)
            (by have := lt_nextBound cursor; omega)
            hf₁ (by omega)
            (Nat.le_trans (Nat.le_min.mpr ⟨
              Nat.le_trans (Nat.min_le_left _ _)
                (by have := lt_nextBound cursor; omega),
              Nat.min_le_right _ _⟩) hz) rfl
        refine ⟨p₂, n₂, hrun₂, ?_, hs₁.trans hs₂, by omega, by omega⟩
        have hsplit : m = subLen cursor stop + (stop - nextBound cursor) := by
          omega
        rw [hsplit, List.replicate_add, ← overwrite_overwrite,
          List.length_replicate, hcur']
        exact hf₂
      · have hall : m = subLen cursor stop := by omega
        refine ⟨p₁, max n (objNum cursor + 1), ?_, ?_, hs₁, by omega, by omega⟩
        · rw [zerofillLoop, dif_neg (by omega), Prog.run_ret]
        · rw [hall]
          exact hf₁
    · have hall : m = 0 := by omega
      refine ⟨p, n, ?_, ?_, SameElsewhere.refl, Nat.le_refl n, by omega⟩
      · rw [dif_neg hlt, Prog.run_ret]
      · rw [hall, List.replicate_zero, overwrite_nil hcur]
        exact hf

/-- `zerofill` from the end of the content is a zero-extension. -/
theorem run_zerofill
    (hf : FileIs p category key c n) {offset : Nat}
    (hlen : c.length ≤ offset) (hoff : offset ≤ offEnd) :
    ∃ p' n', Prog.run Pool.handle
        (zerofill category key (offset - c.length) c.length) p =
          (.ok (), p') ∧
      FileIs p' category key (resize c offset) n' ∧
      SameElsewhere category key p p' ∧
      n ≤ n' ∧ (c.length < offset → 0 < n') := by
  have hsum : c.length + (offset - c.length) = offset := by omega
  have hstop : offStop c.length (offset - c.length) = offset := by
    rw [offStop_of_lt, hsum]
    rw [hsum]
    exact Nat.lt_of_le_of_lt hoff offEnd_lt_offMax
  obtain ⟨p', n', hrun, hf', hs, hn⟩ :=
    run_zerofillLoop hf (Nat.le_refl _) hoff (Nat.le_refl _)
  refine ⟨p', n', ?_, ?_, hs, hn⟩
  · rw [zerofill, hstop]
    exact hrun
  · rw [← overwrite_zeros hlen]
    exact hf'

/-- Filling beyond `offEnd` ends in undefined behaviour. -/
theorem zerofillLoop_overflow
    {stop cursor : Nat} (zeros : Bytes) (p : Pool)
    (hlt : cursor < stop) (hstop : offEnd < stop) :
    (Prog.run Pool.handle
      (zerofillLoop category key zeros stop cursor) p).1 =
        .faults .undefinedBehaviour := by
  induction hm : stop - cursor using Nat.strongRecOn
    generalizing cursor p with
  | ind m ih =>
    rw [zerofillLoop, dif_pos hlt]
    by_cases hb : nextBound cursor < offMax
    · rw [if_pos hb]
      have hle := nextBound_le_offEnd hb
      rcases run_writeObj_or (objName category key (objNum cursor)) zeros
        (subLen cursor stop) (objOffset cursor) p with ⟨p₁, hrun⟩ | hrun
      · rw [Prog.run_bind_ok _ hrun]
        exact ih (stop - nextBound cursor)
          (by have := lt_nextBound cursor; omega) p₁ (by omega) rfl
      · rw [Prog.run_bind_faults _ hrun]
    · rw [if_neg hb, Prog.run_fault]

/-- Writing beyond `offEnd` does as well. -/
theorem writeLoop_overflow
    {value : Bytes} {stop cursor : Nat} (sum : Nat) (p : Pool)
    (hlt : cursor < stop) (hstop : offEnd < stop) :
    (Prog.run Pool.handle
      (writeLoop category key value stop cursor sum) p).1 =
        .faults .undefinedBehaviour := by
  induction hm : stop - cursor using Nat.strongRecOn
    generalizing cursor sum p with
  | ind m ih =>
    rw [writeLoop, dif_pos hlt]
    by_cases hb : nextBound cursor < offMax
    · rw [if_pos hb]
      have hle := nextBound_le_offEnd hb
      rcases run_writeObj_or (objName category key (objNum cursor))
        (value.drop sum) (subLen cursor stop) (objOffset cursor) p
        with ⟨p₁, hrun⟩ | hrun
      · rw [Prog.run_bind_ok _ hrun]
        exact ih (stop - nextBound cursor)
          (by have := lt_nextBound cursor; omega) _ p₁ (by omega) rfl
      · rw [Prog.run_bind_faults _ hrun]
    · rw [if_neg hb, Prog.run_fault]

/-- One chunk read from an object that may be missing. -/
theorem run_readObj
    (oid : Key) {room len : Nat} (offset : Nat) (value : Bytes) (p : Pool)
    (hroom : len ≤ room) :
    Prog.run Pool.handle
      (Prog.tryCatch (readObj oid room len offset) (addNumBytes value)) p =
      (match p oid with
        | some b => .ok (slice b offset len)
        | none => .throws (.noSuchObject value), p) := by
  rw [Prog.run_tryCatch]
  unfold readObj
  rw [if_neg (by omega)]
  cases hobj : p oid <;>
    simp only [Prog.run_call, Pool.handle, hobj, Prog.run_ret,
      Prog.run_throw, addNumBytes]

/-- A range that ends in the window of the cursor ends in its object. -/
theorem objNum_pred_of_le
    {cursor stop : Nat} (hlt : cursor < stop)
    (hle : stop ≤ nextBound cursor) :
    objNum (stop - 1) = objNum cursor := by
  have hnext := nextBound_eq cursor
  rw [hnext, ← Nat.succ_mul] at hle
  apply Nat.le_antisymm
  · apply Nat.lt_succ_iff.mp
    rw [objNum_eq (stop - 1)]
    apply Nat.div_lt_of_lt_mul
    rw [Nat.mul_comm]
    exact Nat.lt_of_lt_of_le (by omega) hle
  · rw [objNum_eq, objNum_eq]
    exact Nat.div_le_div_right (Nat.le_pred_of_lt hlt)

theorem objNum_le_pred
    {cursor stop : Nat} (hlt : cursor < stop) :
    objNum cursor ≤ objNum (stop - 1) := by
  rw [objNum_eq, objNum_eq]
  exact Nat.div_le_div_right (Nat.le_pred_of_lt hlt)

/-- The buffer of `read` has room for what follows a chunk. -/
theorem room_of_chunk
    {room len cursor sub got next stop : Nat}
    (hroom : room + (stop - cursor) ≤ len) (hgot : got ≤ sub)
    (hnext : cursor + sub = next) (hrest : next < stop) :
    room + got + (stop - next) ≤ len := by
  omega

theorem room_of_subLen
    {room len cursor stop : Nat} (hlt : cursor < stop)
    (hroom : room + (stop - cursor) ≤ len) :
    subLen cursor stop ≤ len - room := by
  obtain ⟨-, hle, -⟩ := subLen_spec hlt
  omega

/-- What `read` gives: the range as far as the content reaches, in an exception
when the object with the last byte of the range does not exist. -/
def readOutcome (c : Bytes) (n offset stop : Nat) (value : Bytes) :
    Outcome Exn Bytes :=
  if stop ≤ offset ∨ objNum (stop - 1) < n then
    .ok (value ++ slice c offset (stop - offset))
  else
    .throws (.noSuchObject (value ++ slice c offset (stop - offset)))

/-- Reading a chunk and then the rest of the range reads the range. -/
theorem readOutcome_chunk
    (c value : Bytes) {cursor stop : Nat} (hlt : cursor < stop)
    (hn : objNum cursor < n) :
    readOutcome c n (cursor + subLen cursor stop) stop
        (value ++ slice c cursor (subLen cursor stop)) =
      readOutcome c n cursor stop value := by
  obtain ⟨-, hle, -⟩ := subLen_spec hlt
  have hjoin := slice_append_slice c cursor (subLen cursor stop)
    (stop - (cursor + subLen cursor stop))
  have hsum : subLen cursor stop + (stop - (cursor + subLen cursor stop)) =
      stop - cursor := by
    omega
  rw [hsum] at hjoin
  have hcond : (stop ≤ cursor + subLen cursor stop ∨ objNum (stop - 1) < n) ↔
      (stop ≤ cursor ∨ objNum (stop - 1) < n) := by
    constructor
    · rintro (h | h)
      · right
        rcases nextBound_or hlt with ⟨h₁, h₂⟩ | ⟨h₁, h₂⟩
        · rw [objNum_pred_of_le hlt (Nat.le_trans h (Nat.le_of_eq h₁))]
          exact hn
        · rw [objNum_pred_of_le hlt h₂]
          exact hn
      · exact Or.inr h
    · rintro (h | h)
      · exact absurd h (Nat.not_le_of_lt hlt)
      · exact Or.inr h
  unfold readOutcome
  rw [List.append_assoc, hjoin]
  simp only [hcond]

/-- `read` comes to the end of the range, or to a missing object, before its
cursor gets to `offEnd`. -/
def InReach (n cursor stop : Nat) : Prop :=
  stop ≤ offEnd ∨ (cursor < offEnd ∧ n * objSize < offEnd)

theorem InReach.lt_offEnd
    {cursor stop : Nat} (h : InReach n cursor stop) (hlt : cursor < stop) :
    cursor < offEnd := by
  rcases h with hle | ⟨hcur, -⟩
  · exact Nat.lt_of_lt_of_le hlt hle
  · exact hcur

theorem InReach.next
    {cursor stop : Nat} (h : InReach n cursor stop)
    (hn : objNum cursor < n) :
    InReach n (nextBound cursor) stop := by
  rcases h with hle | ⟨-, hobjs⟩
  · exact Or.inl hle
  · exact Or.inr ⟨Nat.lt_of_le_of_lt (nextBound_le_mul hn) hobjs, hobjs⟩

/-- The loop of `read` delivers the range, and throws when it comes to an
object that does not exist. -/
theorem run_readLoop
    {len stop cursor : Nat} {value : Bytes}
    (hf : FileIs p category key c n)
    (hreach : InReach n cursor stop)
    (hroom : cursor < stop → value.length + (stop - cursor) ≤ len) :
    Prog.run Pool.handle
        (readLoop category key len stop cursor value) p =
      (readOutcome c n cursor stop value, p) := by
  induction hm : stop - cursor using Nat.strongRecOn
    generalizing cursor value with
  | ind m ih =>
    rw [readLoop]
    by_cases hlt : cursor < stop
    · obtain ⟨hpos, hle, hin⟩ := subLen_spec hlt
      have hroom' := hroom hlt
      have hsub : subLen cursor stop ≤ len - value.length :=
        room_of_subLen hlt hroom'
      have hone := run_readObj (objName category key (objNum cursor))
        (objOffset cursor) value p hsub
      rw [dif_pos hlt, if_pos (nextBound_lt_offMax (hreach.lt_offEnd hlt))]
      by_cases hn : objNum cursor < n
      · have hobj := hf.some_of_lt _ hn
        have hread := hf.read hobj hin
        rw [cursor_eq] at hread
        simp only [hobj, hread] at hone
        have hlen : (slice c cursor (subLen cursor stop)).length ≤
            subLen cursor stop := by
          rw [length_slice]
          exact Nat.min_le_left _ _
        have hchunk := readOutcome_chunk c value hlt hn
        rw [Prog.run_bind_ok _ hone]
        rcases nextBound_or hlt with ⟨hcur', hle'⟩ | ⟨hcur', hle'⟩
        · rw [hcur'] at hchunk
          have hlt' := lt_nextBound cursor
          have hroom'' : nextBound cursor < stop →
              (value ++ slice c cursor (subLen cursor stop)).length +
                (stop - nextBound cursor) ≤ len := by
            intro hrest
            rw [List.length_append]
            exact room_of_chunk hroom' hlen hcur' hrest
          have hih := ih (stop - nextBound cursor) (by omega)
            (hreach.next hn) hroom'' rfl
          rw [hchunk] at hih
          exact hih
        · -- the chunk was the last one
          have hend : ¬ nextBound cursor < stop := Nat.not_lt_of_le hle'
          rw [hcur', readOutcome, if_pos (Or.inl (Nat.le_refl _)),
            Nat.sub_self] at hchunk
          rw [readLoop, dif_neg hend, Prog.run_ret, ← hchunk]
          simp [slice]
      · have hobj := hf.none_of_ge _ (Nat.le_of_not_lt hn)
        have hlen : c.length ≤ cursor := by
          have hobjs := Nat.mul_le_mul_right objSize (Nat.le_of_not_lt hn)
          have hbase : objNum cursor * objSize ≤ cursor := by
            rw [objNum_eq]
            exact Nat.div_mul_le_self cursor objSize
          exact Nat.le_trans hf.covers (Nat.le_trans hobjs hbase)
        have hmono := objNum_le_pred hlt
        have hcond : ¬ (stop ≤ cursor ∨ objNum (stop - 1) < n) := by omega
        simp only [hobj] at hone
        rw [Prog.run_bind_throws _ hone, readOutcome, if_neg hcond,
          slice_of_length_le hlen, List.append_nil]
    · have hzero : stop - cursor = 0 := by omega
      rw [dif_neg hlt, Prog.run_ret, readOutcome,
        if_pos (Or.inl (Nat.le_of_not_lt hlt)), hzero]
      simp [slice]

/-- A range beyond `offEnd` of a file that reaches there ends in undefined
behaviour. -/
theorem readLoop_overflow
    {len stop cursor : Nat} {value : Bytes}
    (hf : FileIs p category key c n)
    (hlt : cursor < stop) (hstop : offEnd < stop)
    (hfar : offEnd ≤ cursor ∨ offEnd ≤ n * objSize)
    (hroom : value.length + (stop - cursor) ≤ len) :
    Prog.run Pool.handle
        (readLoop category key len stop cursor value) p =
      (.faults .undefinedBehaviour, p) := by
  induction hm : stop - cursor using Nat.strongRecOn
    generalizing cursor value with
  | ind m ih =>
    rw [readLoop, dif_pos hlt]
    by_cases hb : nextBound cursor < offMax
    · have hcur : cursor < offEnd := by
        by_contra hge
        have := offMax_le_nextBound (Nat.le_of_not_lt hge)
        omega
      have hlong : offEnd ≤ n * objSize :=
        hfar.resolve_left (Nat.not_le_of_lt hcur)
      have hn : objNum cursor < n := by
        rw [objNum_eq]
        apply Nat.div_lt_of_lt_mul
        rw [Nat.mul_comm]
        exact Nat.lt_of_lt_of_le hcur hlong
      have hle := nextBound_le_offEnd hb
      obtain ⟨hpos, -, -⟩ := subLen_spec hlt
      have hsub : subLen cursor stop ≤ len - value.length :=
        room_of_subLen hlt hroom
      have hone := run_readObj (objName category key (objNum cursor))
        (objOffset cursor) value p hsub
      simp only [hf.some_of_lt _ hn] at hone
      have hnext : nextBound cursor < stop := Nat.lt_of_le_of_lt hle hstop
      have hgot : (slice (slice c (objNum cursor * objSize) objSize)
          (objOffset cursor) (subLen cursor stop)).length ≤
            subLen cursor stop := by
        rw [length_slice]
        exact Nat.min_le_left _ _
      have hcur' : cursor + subLen cursor stop = nextBound cursor := by
        rcases nextBound_or hlt with ⟨h, -⟩ | ⟨-, h⟩
        · exact h
        · exact absurd h (Nat.not_le_of_lt hnext)
      rw [if_pos hb, Prog.run_bind_ok _ hone]
      apply ih (stop - nextBound cursor) ?_ hnext (Or.inr hlong) ?_ rfl
      · have := lt_nextBound cursor
        omega
      · rw [List.length_append]
        exact room_of_chunk hroom hgot hcur' hnext
    · rw [if_neg hb, Prog.run_fault]

/-- The search of `write` and `truncate` finds the end of the content, as far
as the window of the object it starts from reaches. -/
theorem run_lbFileSize
    (hf : FileIs p category key c n) (function : String) (k : Nat) :
    Prog.run Pool.handle (lbFileSize function category key k) p =
      (.ok (if n = 0 then none else some (min c.length (k * objSize + objSize))),
        p) := by
  induction k with
  | zero =>
      unfold lbFileSize statPrev
      by_cases hn : 0 < n
      · have hobj := hf.some_of_lt 0 hn
        have hend := hf.end_of_some hn
        simp only [Prog.run_call, Pool.handle, hobj, Prog.run_ret,
          if_neg (show n ≠ 0 by omega), shiftLeft_objBits]
        rw [hend]
      · have hobj := hf.none_of_ge 0 (by omega)
        simp only [Prog.run_call, Pool.handle, hobj, Prog.run_ret,
          if_pos (show n = 0 by omega)]
  | succ k ih =>
      unfold lbFileSize statPrev
      by_cases hk : k + 1 < n
      · have hobj := hf.some_of_lt (k + 1) hk
        have hend := hf.end_of_some hk
        simp only [Prog.run_call, Pool.handle, hobj, Prog.run_ret,
          if_neg (show n ≠ 0 by omega), shiftLeft_objBits]
        rw [hend]
      · have hobj := hf.none_of_ge (k + 1) (by omega)
        simp only [Prog.run_call, Pool.handle, hobj]
        rw [ih]
        -- nothing at or above `k + 1`, so the content ends below
        have hc : c.length ≤ (k + 1) * objSize :=
          Nat.le_trans hf.covers (Nat.mul_le_mul_right objSize (by omega))
        rw [Nat.succ_mul] at hc ⊢
        rw [Nat.min_eq_left hc, Nat.min_eq_left (by omega)]

/-- The loop of `stat` adds up the sizes of the objects that are left. -/
theorem run_statLoop
    (hf : FileIs p category key c n) {left k : Nat}
    (hk : k ≤ n) (hleft : n < k + left) :
    Prog.run Pool.handle
        (statLoop category key left k (min c.length (k * objSize))) p =
      (.ok (if n = 0 then none else some c.length), p) := by
  induction left generalizing k with
  | zero => omega
  | succ left ih =>
      unfold statLoop
      rcases Nat.lt_or_ge k n with hlt | hge
      · have hobj := hf.some_of_lt k hlt
        have hnext : min c.length (k * objSize) +
            (slice c (k * objSize) objSize).length =
              min c.length ((k + 1) * objSize) := by
          rw [Nat.min_eq_right (hf.full_below k hlt), hf.end_of_some hlt,
            Nat.succ_mul]
        simp only [Prog.run_call, Pool.handle, hobj]
        rw [hnext]
        exact ih hlt (by omega)
      · have hkn : k = n := Nat.le_antisymm hk hge
        have hobj := hf.none_of_ge k hge
        simp only [Prog.run_call, Pool.handle, hobj, Prog.run_ret]
        rw [hkn, Nat.min_eq_left hf.covers]

/-- The last loop of `truncate` removes the objects that follow. -/
theorem run_removeRest
    (category : ObjCategory) (key : Key) (p : Pool) {left k : Nat} (hleft : 0 < left) (hn : n ≤ k + left)
    (hobjs : ∀ j, k < j → ((p (objName category key j)).isSome ↔ j < n)) :
    ∃ p', Prog.run Pool.handle (removeRest category key left k) p =
        (.ok (), p') ∧
      (∀ j, p' (objName category key j) =
        if j ≤ k then p (objName category key j) else none) ∧
      SameElsewhere category key p p' := by
  induction left generalizing k p with
  | zero => omega
  | succ left ih =>
      unfold removeRest
      have hk := hobjs (k + 1) (by omega)
      cases hobj : p (objName category key (k + 1)) with
      | none =>
          have hge : n ≤ k + 1 := by
            simp only [hobj, Option.isSome_none, Bool.false_eq_true,
              false_iff] at hk
            omega
          refine ⟨p, ?_, ?_, SameElsewhere.refl⟩
          · simp only [Prog.run_call, Pool.handle, hobj, Prog.run_ret]
          · intro j
            by_cases hj : j ≤ k
            · rw [if_pos hj]
            · rw [if_neg hj, ← Option.not_isSome_iff_eq_none,
                hobjs j (by omega)]
              omega
      | some b =>
          have hlt : k + 1 < n := by
            simpa [hobj] using hk
          obtain ⟨p', hrun, hp', hs⟩ :=
            ih (p.erase (objName category key (k + 1)))
              (show 0 < left by omega) (show n ≤ k + 1 + left by omega) (by
                intro j hj
                rw [Pool.erase_of_ne (by simp; omega)]
                exact hobjs j (by omega))
          refine ⟨p', ?_, ?_, (SameElsewhere.erase _).trans hs⟩
          · simp only [Prog.run_call, Pool.handle, hobj]
            exact hrun
          · intro j
            rw [hp' j]
            by_cases hj : j ≤ k
            · rw [if_pos hj, if_pos (by omega),
                Pool.erase_of_ne (by simp; omega)]
            · rw [if_neg hj]
              by_cases hj' : j = k + 1
              · subst hj'
                rw [if_pos (Nat.le_refl _), Pool.erase_self]
              · rw [if_neg (by omega)]

/-- The loop of `remove` removes all objects from `k` on. -/
theorem run_removeLoop
    (category : ObjCategory) (key : Key) (p : Pool) {left k : Nat} (hleft : 0 < left) (hn : n < k + left)
    (hobjs : ∀ j, k ≤ j → ((p (objName category key j)).isSome ↔ j < n)) :
    ∃ p', Prog.run Pool.handle (removeLoop category key left k) p =
        (.ok (), p') ∧
      (∀ j, p' (objName category key j) =
        if j < k then p (objName category key j) else none) ∧
      SameElsewhere category key p p' := by
  induction left generalizing k p with
  | zero => omega
  | succ left ih =>
      unfold removeLoop
      have hk := hobjs k (Nat.le_refl k)
      cases hobj : p (objName category key k) with
      | none =>
          have hge : n ≤ k := by
            simp only [hobj, Option.isSome_none, Bool.false_eq_true,
              false_iff] at hk
            omega
          refine ⟨p, ?_, ?_, SameElsewhere.refl⟩
          · simp only [Prog.run_call, Pool.handle, hobj, Prog.run_ret]
          · intro j
            by_cases hj : j < k
            · rw [if_pos hj]
            · rw [if_neg hj, ← Option.not_isSome_iff_eq_none,
                hobjs j (by omega)]
              omega
      | some b =>
          have hlt : k < n := by
            simpa [hobj] using hk
          obtain ⟨p', hrun, hp', hs⟩ :=
            ih (p.erase (objName category key k))
              (show 0 < left by omega) (show n < k + 1 + left by omega) (by
                intro j hj
                rw [Pool.erase_of_ne (by simp; omega)]
                exact hobjs j (by omega))
          refine ⟨p', ?_, ?_, (SameElsewhere.erase _).trans hs⟩
          · simp only [Prog.run_call, Pool.handle, hobj]
            exact hrun
          · intro j
            rw [hp' j]
            by_cases hj : j < k
            · rw [if_pos hj, if_pos (by omega),
                Pool.erase_of_ne (by simp; omega)]
            · rw [if_neg hj]
              by_cases hj' : j = k
              · subst hj'
                rw [if_pos (by omega), Pool.erase_self]
              · rw [if_neg (by omega)]

end Loops

end RadosIo

end Nmfs
