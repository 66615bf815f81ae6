import Nmfs.Rados.ChunkLoops

/-!
# The operations of `rados_io` on one striped file

`write`, `truncate`, `remove`, `stat`, `exist` and `read` are specified by what
they do to the file they are called for (`FileIs`).  The specifications of the
loops are put together here; no loop is looked into again.
-/

namespace Nmfs

open Bytes

namespace RadosIo

/-- Reading leaves the pool as it is. -/
theorem run_readObj_snd
    (key : Key) (room len offset : Nat) (value : Bytes) (p : Pool) :
    ((Prog.tryCatch (readObj key room len offset)
      (addNumBytes value)).run Pool.handle p).2 = p := by
  unfold readObj
  split
  · rfl
  · cases hobj : p key <;>
      simp [Prog.run_tryCatch, Pool.handle, hobj, addNumBytes]

theorem run_readLoop_snd
    (category : ObjCategory) (key : Key) (len stop cursor : Nat) (value : Bytes)
    (p : Pool) :
    ((readLoop category key len stop cursor value).run Pool.handle p).2 = p := by
  induction hm : stop - cursor using Nat.strongRecOn
    generalizing cursor value with
  | ind m ih =>
    rw [readLoop]
    split
    · split
      · have hlt := lt_nextBound cursor
        have hkeep := run_readObj_snd (objName category key (objNum cursor))
          (len - value.length) (subLen cursor stop) (objOffset cursor) value p
        rcases hrun : (Prog.tryCatch (readObj (objName category key
          (objNum cursor)) (len - value.length) (subLen cursor stop)
          (objOffset cursor)) (addNumBytes value)).run Pool.handle p with ⟨o, p'⟩
        rw [hrun] at hkeep
        simp only at hkeep
        subst hkeep
        cases o with
        | ok bl =>
            rw [Prog.run_bind_ok _ hrun]
            exact ih (stop - nextBound cursor) (by omega) (nextBound cursor)
              (value ++ bl) rfl
        | throws e => rw [Prog.run_bind_throws _ hrun]
        | faults x => rw [Prog.run_bind_faults _ hrun]
      · rfl
    · rfl

section Files

variable {category : ObjCategory} {key : Key} {p : Pool} {c : Bytes} {n : Nat}

/-- Whether the lower bound found from the object of `offset` is below it
tells whether the content ends before `offset`. -/
theorem lb_lt_iff
    (hf : FileIs p category key c n) (offset : Nat) :
    ((if n = 0 then none else
        some (min c.length (objNum offset * objSize + objSize))).getD 0 < offset ↔
      c.length < offset) ∧
    (c.length < offset → (if n = 0 then none else
        some (min c.length (objNum offset * objSize + objSize))).getD 0 =
      c.length) := by
  generalize hlb : (if n = 0 then none else
    some (min c.length (objNum offset * objSize + objSize))).getD 0 = lb
  have hwindow := lt_nextBound offset
  rw [nextBound_eq] at hwindow
  by_cases hn : n = 0
  · subst hn
    have hc : c = [] := Striped.eq_nil_of_zero hf
    simp [← hlb, hc]
  · rw [if_neg hn, Option.getD_some] at hlb
    rcases Nat.le_total c.length (objNum offset * objSize + objSize) with h | h
    · rw [Nat.min_eq_left h] at hlb
      simp [← hlb]
    · rw [Nat.min_eq_right h] at hlb
      constructor
      · constructor
        · intro hlt
          exact absurd (hlb ▸ hlt)
            (Nat.not_lt_of_lt hwindow)
        · intro hlt
          exact absurd (Nat.lt_of_le_of_lt h hlt) (Nat.not_lt_of_lt hwindow)
      · intro hlt
        exact absurd (Nat.lt_of_le_of_lt h hlt) (Nat.not_lt_of_lt hwindow)

/-- The first part of `write` extends the content to the offset. -/
theorem run_fillGap
    (hf : FileIs p category key c n) {offset lb : Nat}
    (hlt : lb < offset ↔ c.length < offset)
    (hlb : c.length < offset → lb = c.length) (hoff : offset ≤ offEnd) :
    ∃ p' n', Prog.run Pool.handle
        (fillGap category key lb offset) p = (.ok (), p') ∧
      FileIs p' category key
        (if c.length < offset then resize c offset else c) n' ∧
      SameElsewhere category key p p' ∧
      n ≤ n' ∧ (0 < n' ↔ 0 < n ∨ c.length < offset) := by
  unfold fillGap
  by_cases h : c.length < offset
  · obtain ⟨p', n', hrun, hf', hs, hn, hpos⟩ :=
      run_zerofill hf (Nat.le_of_lt h) hoff
    refine ⟨p', n', ?_, ?_, hs, hn, ?_⟩
    · rw [if_pos (hlt.mpr h), hlb h]
      exact hrun
    · rw [if_pos h]
      exact hf'
    · simp [h, hpos h]
  · refine ⟨p, n, ?_, ?_, SameElsewhere.refl, Nat.le_refl n, by simp [h]⟩
    · rw [if_neg (fun h' => h (hlt.mp h')), Prog.run_ret]
    · rw [if_neg h]
      exact hf

/-- Filling a gap that reaches beyond `offEnd` ends in undefined behaviour. -/
theorem zerofill_overflow
    {offset lb : Nat} (p : Pool) (hlt : lb < offset) (hoff : offEnd < offset)
    (hmax : offset < offMax) :
    (Prog.run Pool.handle (zerofill category key (offset - lb) lb) p).1 =
      .faults .undefinedBehaviour := by
  have hsum : lb + (offset - lb) = offset := by omega
  have hstop : offStop lb (offset - lb) = offset := by
    rw [offStop_of_lt (by rw [hsum]; exact hmax), hsum]
  rw [zerofill, hstop]
  exact zerofillLoop_overflow _ p hlt hoff

/-- `write` overwrites the content.  It creates the first object unless there
is nothing to write or to fill. -/
theorem run_write
    (hf : FileIs p category key c n) {value : Bytes} {offset : Nat}
    (hend : offset + value.length ≤ offEnd) :
    ∃ p' n', Prog.run Pool.handle (write category key value offset) p =
        (.ok value.length, p') ∧
      FileIs p' category key (overwrite c offset value) n' ∧
      SameElsewhere category key p p' ∧
      (0 < n' ↔ 0 < n ∨ ¬ (value = [] ∧ offset ≤ c.length)) := by
  have hoff : offset ≤ offEnd := Nat.le_trans (Nat.le_add_right _ _) hend
  obtain ⟨hlt, hlb⟩ := lb_lt_iff hf offset
  obtain ⟨p₁, n₁, hrun₁, hf₁, hs₁, hn₁, hpos₁⟩ := run_fillGap hf hlt hlb hoff
  have hcur : offset ≤
      (if c.length < offset then resize c offset else c).length := by
    by_cases h : c.length < offset
    · simp [h]
    · rw [if_neg h]
      exact Nat.le_of_not_lt h
  have hover : overwrite (if c.length < offset then resize c offset else c)
      offset value = overwrite c offset value := by
    by_cases h : c.length < offset
    · rw [if_pos h, overwrite_resize (Nat.le_of_lt h)]
    · rw [if_neg h]
  have hstop : offStop offset value.length = offset + value.length :=
    offStop_of_lt (Nat.lt_of_le_of_lt hend offEnd_lt_offMax)
  obtain ⟨p₂, n₂, hrun₂, hf₂, hs₂, hn₂, hpos₂⟩ :=
    run_writeLoop hf₁ hcur hend (Nat.zero_le _) (Or.inl rfl)
  rw [List.drop_zero, hover] at hf₂
  unfold write
  rw [Prog.run_bind_ok _ (run_lbFileSize hf _ _), Prog.run_bind_ok _ hrun₁,
    hstop]
  cases value with
  | nil =>
      -- the data loop is not entered
      have hnil : overwrite c offset [] =
          if c.length < offset then resize c offset else c := by
        rw [← hover, overwrite_nil hcur]
      refine ⟨p₁, n₁, ?_, ?_, hs₁, ?_⟩
      · rw [writeLoop, dif_neg (by simp), Prog.run_ret, List.length_nil]
      · rw [hnil]
        exact hf₁
      · simp [hpos₁]
  | cons b bs =>
      refine ⟨p₂, n₂, hrun₂, hf₂, hs₁.trans hs₂, ?_⟩
      have : 0 < n₂ := hpos₂ (by simp)
      simp [this]

/-- Setting the size of an object that may be missing. -/
theorem run_truncateObj
    (oid : Key) (cutSize : Nat) (p : Pool) :
    ∃ p', Prog.run Pool.handle (truncateObj oid cutSize) p = (.ok (), p') ∧
      p' oid = (p oid).map (fun b => resize b cutSize) ∧
      ∀ oid', oid' ≠ oid → p' oid' = p oid' := by
  cases hobj : p oid with
  | none =>
      refine ⟨p, ?_, by simp [hobj], fun _ _ => rfl⟩
      simp [truncateObj, Pool.handle, hobj]
  | some b =>
      refine ⟨p.put oid (resize b cutSize), ?_, by simp, ?_⟩
      · simp [truncateObj, Pool.handle, hobj]
      · intro oid' hne
        exact Pool.put_of_ne hne _

/-- The number of the last object is far below `2 ^ 64`. -/
theorem objects_le
    (hf : FileIs p category key c n) (hc : c.length < offMax) :
    n ≤ 2 ^ 41 := by
  rcases Nat.eq_zero_or_pos n with rfl | hn
  · exact Nat.zero_le _
  · have hfull := hf.full_below (n - 1) (by omega)
    have hlt := Nat.lt_of_le_of_lt hfull hc
    rw [offMax_eq] at hlt
    have := Nat.lt_of_mul_lt_mul_right hlt
    omega

theorem objNum_lt_of_lt {offset : Nat} (h : offset < offMax) :
    objNum offset < 2 ^ 41 := by
  rw [offMax_eq, Nat.mul_comm] at h
  rw [objNum_eq]
  exact Nat.div_lt_of_lt_mul h

/-- The object of the new end is cut, and those behind it are gone. -/
theorem fileIs_cut
    (hf : FileIs p category key c n) {offset : Nat} (hoff : offset ≤ c.length)
    {p₁ p₂ : Pool}
    (hself : p₁ (objName category key (objNum offset)) =
      (p (objName category key (objNum offset))).map
        (fun b => resize b (objOffset offset)))
    (hother : ∀ j, j ≠ objNum offset →
      p₁ (objName category key j) = p (objName category key j))
    (hobjs : ∀ j, p₂ (objName category key j) =
      if j ≤ objNum offset then p₁ (objName category key j) else none) :
    FileIs p₂ category key (resize c offset) (min n (objNum offset + 1)) := by
  have hcut := Striped.cut hf (k := objNum offset) (o := objOffset offset)
    (by rw [cursor_eq]; exact hoff) (objOffset_lt offset)
  rw [cursor_eq] at hcut
  rw [resize_of_le hoff]
  have heq : (fun j => p₂ (objName category key j)) = fun j =>
      if j ≤ objNum offset then
        (p (objName category key j)).map
          (fun b => if j = objNum offset then b.take (objOffset offset) else b)
      else none := by
    funext j
    rw [hobjs j]
    by_cases hj : j ≤ objNum offset
    · rw [if_pos hj, if_pos hj]
      by_cases hjk : j = objNum offset
      · subst hjk
        rw [hself]
        cases hobj : p (objName category key (objNum offset)) with
        | none => rfl
        | some b =>
            have hlen : objOffset offset ≤ b.length := by
              have hb := hf.getD_eq_slice (objNum offset)
              rw [hobj, Option.getD_some] at hb
              have hcur := cursor_eq offset
              have hlt := objOffset_lt offset
              rw [hb, length_slice]
              exact Nat.le_min.mpr ⟨Nat.le_of_lt hlt, by omega⟩
            simp [resize_of_le hlen]
      · rw [hother j hjk]
        simp [hjk]
    · rw [if_neg hj, if_neg hj]
  unfold FileIs
  rw [heq]
  exact hcut

/-- The size to which the object of `offset` is cut. -/
theorem cutSize_eq (offset : Nat) :
    offset - (objNum offset <<< objBits) = objOffset offset := by
  have := cursor_eq offset
  rw [shiftLeft_objBits]
  omega

/-- Cutting inside the content: the object of the new end is cut, and those
behind it are removed. -/
theorem run_cut
    (hf : FileIs p category key c n) {offset : Nat}
    (hoff : offset ≤ c.length) (hc : c.length < offMax) :
    ∃ p', Prog.run Pool.handle
        (truncateObj (objName category key (objNum offset))
            (offset - (objNum offset <<< objBits)) >>= fun _ =>
          removeRest category key (2 ^ 64 - 1 - objNum offset) (objNum offset)
            >>= fun _ => return 0) p = (.ok 0, p') ∧
      FileIs p' category key (resize c offset) (min n (objNum offset + 1)) ∧
      SameElsewhere category key p p' := by
  obtain ⟨p₁, hrun₁, hself₁, hother₁⟩ := run_truncateObj
    (objName category key (objNum offset))
    (offset - (objNum offset <<< objBits)) p
  have hn := objects_le hf hc
  have hnum := objNum_lt_of_lt (Nat.lt_of_le_of_lt hoff hc)
  have hother : ∀ j, j ≠ objNum offset →
      p₁ (objName category key j) = p (objName category key j) := by
    intro j hj
    exact hother₁ _ (by simpa using hj)
  obtain ⟨p₂, hrun₂, hobjs₂, hs₂⟩ := run_removeRest category key p₁
    (show 0 < 2 ^ 64 - 1 - objNum offset by omega)
    (show n ≤ objNum offset + (2 ^ 64 - 1 - objNum offset) by omega) (by
      intro j hj
      rw [hother j (by omega)]
      exact hf.isSome_iff j)
  refine ⟨p₂, ?_, ?_, ?_⟩
  · rw [Prog.run_bind_ok _ hrun₁, Prog.run_bind_ok _ hrun₂,
      Prog.pure_eq_ret, Prog.run_ret]
  · rw [cutSize_eq] at hself₁
    exact fileIs_cut hf hoff hself₁ hother hobjs₂
  · intro oid hoid
    rw [hs₂ oid hoid, hother₁ oid (hoid _)]

/-- `truncate` resizes the content.  An absent file stays absent when it is
truncated to nothing. -/
theorem run_truncate
    (hf : FileIs p category key c n) {offset : Nat}
    (hoff : offset ≤ offEnd) (hc : c.length ≤ offEnd) :
    ∃ p' n', Prog.run Pool.handle (truncate category key offset) p =
        (.ok 0, p') ∧
      FileIs p' category key (resize c offset) n' ∧
      SameElsewhere category key p p' ∧
      (0 < n' ↔ 0 < n ∨ 0 < offset) := by
  unfold truncate
  rw [Prog.run_bind_ok _ (run_lbFileSize hf _ _)]
  by_cases hn : n = 0
  · subst hn
    have hnil : c = [] := Striped.eq_nil_of_zero hf
    subst hnil
    obtain ⟨p', n', hrun, hf', hs, -, hpos⟩ :=
      run_zerofill hf (Nat.zero_le offset) hoff
    simp only [List.length_nil, Nat.sub_zero] at hrun hpos
    rw [if_pos rfl]
    by_cases h0 : 0 < offset
    · refine ⟨p', n', ?_, hf', hs, by simp [h0, hpos h0]⟩
      change Prog.run Pool.handle
        (zerofill category key offset 0 >>= fun _ => return 0) p = _
      rw [Prog.run_bind_ok _ hrun, Prog.pure_eq_ret, Prog.run_ret]
    · have hz : offset = 0 := by omega
      subst hz
      refine ⟨p, 0, ?_, ?_, SameElsewhere.refl, by simp⟩
      · change Prog.run Pool.handle
          (zerofill category key 0 0 >>= fun _ => return 0) p = _
        have hret : zerofill category key 0 0 = .ret () := by
          unfold zerofill
          rw [offStop_of_lt (by simp [offMax]), zerofillLoop,
            dif_neg (by simp)]
        rw [hret, Prog.ret_bind, Prog.pure_eq_ret, Prog.run_ret]
      · simpa [resize] using hf
  · rw [if_neg hn]
    obtain ⟨hlt, hlb⟩ := lb_lt_iff hf offset
    rw [if_neg hn, Option.getD_some] at hlt hlb
    simp only
    by_cases h : c.length < offset
    · obtain ⟨p', n', hrun, hf', hs, hle, -⟩ :=
        run_zerofill hf (Nat.le_of_lt h) hoff
      rw [if_pos (hlt.mpr h), hlb h]
      refine ⟨p', n', ?_, hf', hs, by omega⟩
      rw [Prog.run_bind_ok _ hrun, Prog.pure_eq_ret, Prog.run_ret]
    · rw [if_neg (fun h' => h (hlt.mp h'))]
      obtain ⟨p', hrun, hf', hs⟩ := run_cut hf (Nat.le_of_not_lt h)
        (Nat.lt_of_le_of_lt hc offEnd_lt_offMax)
      exact ⟨p', _, hrun, hf', hs, by omega⟩

/-- `remove` removes all objects. -/
theorem run_remove
    (hf : FileIs p category key c n) (hc : c.length ≤ offEnd) :
    ∃ p', Prog.run Pool.handle (remove category key) p = (.ok (), p') ∧
      FileIs p' category key [] 0 ∧
      SameElsewhere category key p p' := by
  have hn := objects_le hf (Nat.lt_of_le_of_lt hc offEnd_lt_offMax)
  obtain ⟨p', hrun, hobjs, hs⟩ := run_removeLoop category key p
    (show 0 < 2 ^ 64 by omega) (show n < 0 + 2 ^ 64 by omega)
    (fun j _ => hf.isSome_iff j)
  refine ⟨p', hrun, ?_, hs⟩
  have heq : (fun j => p' (objName category key j)) = fun _ => none := by
    funext j
    rw [hobjs j, if_neg (Nat.not_lt_zero j)]
  unfold FileIs
  rw [heq]
  exact Striped.empty objSize

/-- `stat` finds the size of the content. -/
theorem run_stat
    (hf : FileIs p category key c n) (hc : c.length ≤ offEnd) :
    Prog.run Pool.handle (stat category key) p =
      (.ok (if n = 0 then none else some c.length), p) := by
  have hn := objects_le hf (Nat.lt_of_le_of_lt hc offEnd_lt_offMax)
  have h := run_statLoop hf (Nat.zero_le n) (show n < 0 + 2 ^ 64 by omega)
  rw [Nat.zero_mul, Nat.min_zero] at h
  exact h

theorem run_exist
    (hf : FileIs p category key c n) :
    Prog.run Pool.handle (exist category key) p = (.ok (decide (0 < n)), p) := by
  unfold exist
  by_cases hn : 0 < n
  · have hobj := hf.some_of_lt 0 hn
    simp only [Prog.run_call, Pool.handle, hobj, Prog.run_ret]
    simp [hn]
  · have hobj := hf.none_of_ge 0 (by omega)
    simp only [Prog.run_call, Pool.handle, hobj, Prog.run_ret]
    simp [hn]

/-- `read` delivers a range that ends below `2 ^ 63`. -/
theorem run_read
    (hf : FileIs p category key c n) {len offset : Nat}
    (hmax : offset + len < offMax) (hreach : InReach n offset (offset + len)) :
    Prog.run Pool.handle (read category key len offset) p =
      (readOutcome c n offset (offset + len) [], p) := by
  unfold read
  rw [offStop_of_lt hmax]
  exact run_readLoop hf hreach (by simp)

theorem run_read_snd
    (category : ObjCategory) (key : Key) (len offset : Nat) (p : Pool) :
    ((read category key len offset).run Pool.handle p).2 = p :=
  run_readLoop_snd ..

end Files

end RadosIo

end Nmfs
