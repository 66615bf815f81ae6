import Nmfs.Lib.FailingCalls
import Nmfs.Rados.Operations
import Mathlib.Data.Nat.Find

/-!
# `truncate` under storage errors

The calls of `truncate` are numbered, and some of them fail with an error other
than `-ENOENT` and without effect.  Up to its last loop `truncate` throws at the
first of them.  The last loop does not look at the result of `remove`, and a
`stat` that fails makes it go on to the next object.  So an object whose `stat`
or `remove` fails is left behind, and behind the last object the loop ends at
the first `stat` that does not fail.
-/

namespace Nmfs

open Bytes

/-- The error of the call with a number, if that call fails. -/
abbrev Failures := Nat → Option Nat

/-- The answer of a call that fails otherwise than with `-ENOENT`. -/
def IoCall.failed (c : IoCall) (code : Nat) : IoCtx.Reply c :=
  .error (.other code)

/-- A pool some of whose calls fail. -/
abbrev Pool.failing (fails : Failures) : Handler IoCtx (Pool × Nat) :=
  Handler.failing Pool.handle IoCall.failed fails

/-- `librados`, some of whose calls fail. -/
abbrev Librados.failing {σ : Type} (L : Librados σ) (fails : Failures) :
    Handler IoCtx (σ × Nat) :=
  Handler.failing L.call IoCall.failed fails

def IoCall.isStat : IoCall → Bool
  | .stat _ => true
  | _ => false

namespace RadosIo

/-- `truncate` between the search and its last loop: the number of the object
that has been cut, or `none` where it has returned. -/
def afterSearch (category : ObjCategory) (key : Key) (offset : Nat) :
    Option Nat → IoProg (Option Nat)
  | none => do
      zerofill category key offset 0
      return none
  | some lb =>
      if lb < offset then do
        zerofill category key (offset - lb) lb
        return none
      else do
        let n := objNum offset
        truncateObj (objName category key n) (offset - (n <<< objBits))
        return some n

/-- `truncate` up to its last loop. -/
def truncateHead (category : ObjCategory) (key : Key) (offset : Nat) :
    IoProg (Option Nat) := do
  let found ← lbFileSize "rados_io::truncate()" category key (objNum offset)
  afterSearch category key offset found

/-- The last loop of `truncate`. -/
def truncateRest (category : ObjCategory) (key : Key) :
    Option Nat → IoProg Nat
  | none => return 0
  | some n => do
      removeRest category key (2 ^ 64 - 1 - n) n
      return 0

theorem truncate_eq (category : ObjCategory) (key : Key) (offset : Nat) :
    truncate category key offset =
      truncateHead category key offset >>= truncateRest category key := by
  unfold truncate truncateHead
  rw [Prog.bind_assoc']
  congr 1
  funext found
  cases found with
  | none =>
      simp only [afterSearch, Prog.bind_assoc', Prog.pure_eq_ret, Prog.ret_bind,
        truncateRest]
  | some lb =>
      by_cases h : lb < offset
      · simp only [afterSearch, if_pos h, Prog.bind_assoc', Prog.pure_eq_ret,
          Prog.ret_bind, truncateRest]
      · simp only [afterSearch, if_neg h, Prog.bind_assoc', Prog.pure_eq_ret,
          Prog.ret_bind, truncateRest]

/-- Every iteration of the last loop makes one call of `stat`. -/
def lastLoopIterations {σ : Type} (h : Handler IoCtx σ) (category : ObjCategory)
    (key : Key) (offset : Nat) (s : σ) : Nat :=
  match Prog.run h (truncateHead category key offset) s with
  | (.ok (some n), s') =>
      Prog.callsOf IoCall.isStat h (removeRest category key (2 ^ 64 - 1 - n) n) s'
  | _ => 0

/-- The calls of `zerofill`, one for each object from the cursor on, up to the
last one whose `next_bound` is an `off_t`. -/
def fillCalls (cursor stop : Nat) : Nat :=
  if cursor < stop then
    min (objNum (stop - 1) + 1) (objNum offEnd) - objNum cursor
  else 0

/-- The calls of `truncate` before its last loop, for a content of `size` bytes
in `n` objects: `stat` from the object of the offset downwards, and then a
`write` for every object to be filled, or one `trunc`. -/
def headCalls (size n offset : Nat) : Nat :=
  (objNum offset + 1 - n) + min n 1 +
    if size < offset then fillCalls size (offStop 0 offset) else min n 1

/-- The objects behind the one that is cut. -/
def objectsBehind (n offset : Nat) : Nat := n - (objNum offset + 1)

/-- From call `k` on, `stat` and `remove` of `r` objects do not fail, and one
of the next `m + 1` calls does not fail either. -/
def LoopClean (fails : Failures) (k r m : Nat) : Prop :=
  (∀ j < 2 * r, fails (k + j) = none) ∧ ∃ j ≤ m, fails (k + 2 * r + j) = none

section HeadCalls

variable {category : ObjCategory} {key : Key} {p : Pool} {c : Bytes} {n : Nat}

theorem failStop_writeObj (oid : Key) (value : Bytes) (len offset : Nat) :
    Prog.FailStop IoCall.failed (writeObj oid value len offset) := by
  unfold writeObj
  by_cases h : value.length < len
  · rw [if_pos h]
    trivial
  · rw [if_neg h]
    refine ⟨fun _ => ⟨_, rfl⟩, ?_⟩
    rintro (_ | _) <;> trivial

theorem failStop_truncateObj (oid : Key) (cutSize : Nat) :
    Prog.FailStop IoCall.failed (truncateObj oid cutSize) := by
  refine ⟨fun _ => ⟨_, rfl⟩, ?_⟩
  rintro (_ | _) <;> trivial

theorem failStop_zerofillLoop (zeros : Bytes) (stop cursor : Nat) :
    Prog.FailStop IoCall.failed
      (zerofillLoop category key zeros stop cursor) := by
  induction hm : stop - cursor using Nat.strongRecOn generalizing cursor with
  | ind m ih =>
    rw [zerofillLoop]
    by_cases hlt : cursor < stop
    · rw [dif_pos hlt]
      by_cases hb : nextBound cursor < offMax
      · rw [if_pos hb]
        refine (failStop_writeObj _ _ _ _).bind fun _ => ?_
        have hnext := lt_nextBound cursor
        exact ih (stop - nextBound cursor) (by omega) _ rfl
      · rw [if_neg hb]
        trivial
    · rw [dif_neg hlt]
      trivial

theorem failStop_lbFileSize (function : String) (k : Nat) :
    Prog.FailStop IoCall.failed (lbFileSize function category key k) := by
  induction k with
  | zero =>
      refine ⟨fun _ => ⟨_, rfl⟩, ?_⟩
      rintro (_ | _)
      · rename_i e
        cases e <;> trivial
      · trivial
  | succ k ih =>
      refine ⟨fun _ => ⟨_, rfl⟩, ?_⟩
      rintro (_ | _)
      · rename_i e
        cases e
        · exact ih
        · trivial
      · trivial

theorem failStop_truncateHead (offset : Nat) :
    Prog.FailStop IoCall.failed (truncateHead category key offset) := by
  refine (failStop_lbFileSize _ _).bind fun found => ?_
  cases found with
  | none => exact (failStop_zerofillLoop _ _ _).bind fun _ => trivial
  | some lb =>
      unfold afterSearch
      by_cases h : lb < offset
      · simp only [if_pos h]
        exact (failStop_zerofillLoop _ _ _).bind fun _ => trivial
      · simp only [if_neg h]
        exact (failStop_truncateObj _ _).bind fun _ => trivial

/-- The search makes a call for every object number down to the last object. -/
theorem calls_lbFileSize
    (hf : FileIs p category key c n) (function : String) (k : Nat) :
    Prog.calls Pool.handle (lbFileSize function category key k) p =
      (k + 1 - n) + min n 1 := by
  induction k with
  | zero =>
      unfold lbFileSize statPrev
      by_cases hn : 0 < n
      · simp only [Prog.calls_call, Pool.handle, hf.some_of_lt 0 hn,
          Prog.calls_ret]
        omega
      · simp only [Prog.calls_call, Pool.handle, hf.none_of_ge 0 (by omega),
          Prog.calls_ret]
        omega
  | succ k ih =>
      unfold lbFileSize statPrev
      by_cases hk : k + 1 < n
      · simp only [Prog.calls_call, Pool.handle, hf.some_of_lt (k + 1) hk,
          Prog.calls_ret]
        omega
      · simp only [Prog.calls_call, Pool.handle,
          hf.none_of_ge (k + 1) (by omega)]
        rw [ih]
        omega

theorem objNum_nextBound (cursor : Nat) :
    objNum (nextBound cursor) = objNum cursor + 1 := by
  rw [nextBound_eq, ← Nat.succ_mul, objNum_eq (_ * _)]
  exact Nat.mul_div_cancel _ objSize_pos

theorem objNum_mono {a b : Nat} (h : a ≤ b) : objNum a ≤ objNum b := by
  rw [objNum_eq, objNum_eq]
  exact Nat.div_le_div_right h

theorem nextBound_lt_offMax_iff (cursor : Nat) :
    nextBound cursor < offMax ↔ objNum cursor < objNum offEnd := by
  constructor
  · intro h
    have hle := objNum_mono (nextBound_le_offEnd h)
    rw [objNum_nextBound] at hle
    exact hle
  · intro h
    apply nextBound_lt_offMax
    by_contra hge
    exact absurd h (Nat.not_lt_of_le (objNum_mono (Nat.le_of_not_lt hge)))

theorem objNum_pred_nextBound (cursor : Nat) :
    objNum (nextBound cursor - 1) = objNum cursor := by
  have hlt := lt_nextBound cursor
  have hle := objNum_le_pred hlt
  have hup : nextBound cursor - 1 < objSize * (objNum cursor + 1) := by
    rw [Nat.mul_comm, Nat.succ_mul, ← nextBound_eq]
    omega
  have hdiv := Nat.div_lt_of_lt_mul hup
  rw [← objNum_eq] at hdiv
  exact Nat.le_antisymm (Nat.le_of_lt_succ hdiv) hle

/-- The chunk at the cursor is the last one, or the rest starts in the next
object. -/
theorem fillCalls_next {cursor stop : Nat} (hlt : cursor < stop)
    (hb : objNum cursor < objNum offEnd) :
    fillCalls cursor stop = fillCalls (nextBound cursor) stop + 1 := by
  unfold fillCalls
  rw [if_pos hlt, objNum_nextBound]
  generalize objNum offEnd = e at hb ⊢
  by_cases hnext : nextBound cursor < stop
  · have hmono := objNum_mono (Nat.le_sub_one_of_lt hnext)
    rw [objNum_nextBound] at hmono
    rw [if_pos hnext]
    generalize objNum cursor = a at hb hmono ⊢
    generalize objNum (stop - 1) = b at hmono ⊢
    omega
  · have hup := objNum_mono
      (Nat.sub_le_sub_right (Nat.le_of_not_lt hnext) 1)
    rw [objNum_pred_nextBound] at hup
    have hlast : objNum (stop - 1) = objNum cursor :=
      Nat.le_antisymm hup (objNum_le_pred hlt)
    rw [if_neg hnext, hlast]
    generalize objNum cursor = a at hb ⊢
    omega

theorem calls_writeObj (oid : Key) {value : Bytes} {len : Nat} (offset : Nat)
    (p : Pool) (h : len ≤ value.length) :
    Prog.calls Pool.handle (writeObj oid value len offset) p = 1 ∧
      ∃ p', Prog.run Pool.handle (writeObj oid value len offset) p =
        (.ok len, p') := by
  unfold writeObj
  rw [if_neg (Nat.not_lt_of_le h)]
  exact ⟨rfl, _, rfl⟩

theorem calls_zerofillLoop {stop cursor z : Nat} (p : Pool)
    (hz : min (stop - cursor) objSize ≤ z) :
    Prog.calls Pool.handle
        (zerofillLoop category key (List.replicate z 0) stop cursor) p =
      fillCalls cursor stop := by
  induction hm : stop - cursor using Nat.strongRecOn
    generalizing cursor p with
  | ind m ih =>
    rw [zerofillLoop]
    by_cases hlt : cursor < stop
    · rw [dif_pos hlt]
      by_cases hb : nextBound cursor < offMax
      · obtain ⟨-, -, hin⟩ := subLen_spec hlt
        have hsub : subLen cursor stop ≤
            (List.replicate z (0 : UInt8)).length := by
          rw [List.length_replicate]
          exact Nat.le_trans (Nat.le_min.mpr ⟨Nat.min_le_right _ _,
            Nat.le_trans (Nat.le_add_left _ _) hin⟩) hz
        have hdec := Nat.sub_lt_sub_left hlt (lt_nextBound cursor)
        have hz' : min (stop - nextBound cursor) objSize ≤ z :=
          Nat.le_trans (Nat.le_min.mpr ⟨
            Nat.le_trans (Nat.min_le_left _ _) (Nat.le_of_lt hdec),
            Nat.min_le_right _ _⟩) hz
        obtain ⟨hone, p₁, hrun⟩ :=
          calls_writeObj (objName category key (objNum cursor))
            (objOffset cursor) p hsub
        rw [if_pos hb, Prog.calls_bind_ok _ hrun, hone,
          ih (stop - nextBound cursor) (hm ▸ hdec) p₁ hz' rfl,
          fillCalls_next hlt ((nextBound_lt_offMax_iff _).mp hb)]
        exact Nat.add_comm _ _
      · have hge := mt (nextBound_lt_offMax_iff cursor).mpr hb
        rw [if_neg hb, Prog.calls_fault]
        unfold fillCalls
        rw [if_pos hlt]
        exact (Nat.sub_eq_zero_of_le (Nat.le_trans (Nat.min_le_right _ _)
          (Nat.le_of_not_lt hge))).symm
    · rw [dif_neg hlt, Prog.calls_ret]
      unfold fillCalls
      rw [if_neg hlt]

theorem offStop_sub {a b : Nat} (h : a ≤ b) :
    offStop a (b - a) = offStop 0 b := by
  unfold offStop
  rw [Nat.add_sub_cancel' h, Nat.zero_add]

theorem calls_zerofill {size offset : Nat} (p : Pool) (h : size ≤ offset) :
    Prog.calls Pool.handle (zerofill category key (offset - size) size) p =
      fillCalls size (offStop 0 offset) := by
  have hstop : offStop 0 offset ≤ offset := by
    unfold offStop
    rw [Nat.zero_add]
    by_cases hlt : offset % 2 ^ 64 < offMax
    · rw [if_pos hlt]
      exact Nat.mod_le _ _
    · rw [if_neg hlt]
      exact Nat.zero_le _
  unfold zerofill
  rw [offStop_sub h]
  exact calls_zerofillLoop p (Nat.le_min.mpr ⟨
    Nat.le_trans (Nat.min_le_left _ _) (Nat.sub_le_sub_right hstop _),
    Nat.min_le_right _ _⟩)

theorem calls_truncateObj (oid : Key) (cutSize : Nat) (p : Pool) :
    Prog.calls Pool.handle (truncateObj oid cutSize) p = 1 := by
  simp only [truncateObj, Prog.calls_call, Pool.handle]
  cases p oid <;> rfl

/-- A content that ends before the offset is extended; one that does not is
cut, unless there is none. -/
theorem run_afterSearch
    (hf : FileIs p category key c n) (offset : Nat) :
    afterSearch category key offset (if n = 0 then none else
        some (min c.length (objNum offset * objSize + objSize))) =
      if c.length < offset ∨ n = 0 then
        zerofill category key (offset - c.length) c.length >>= fun _ =>
          .ret none
      else
        truncateObj (objName category key (objNum offset)) (objOffset offset)
          >>= fun _ => .ret (some (objNum offset)) := by
  obtain ⟨hlt, hlb⟩ := lb_lt_iff hf offset
  by_cases hn : n = 0
  · subst hn
    have hnil : c = [] := Striped.eq_nil_of_zero hf
    subst hnil
    rw [if_pos rfl, if_pos (Or.inr rfl)]
    rfl
  · rw [if_neg hn, Option.getD_some] at hlt hlb
    rw [if_neg hn]
    simp only [afterSearch]
    by_cases h : c.length < offset
    · rw [if_pos (Or.inl h), if_pos (hlt.mpr h), hlb h]
      rfl
    · rw [if_neg (mt hlt.mp h), if_neg (not_or_intro h hn), cutSize_eq]
      rfl

/-- The number of calls before the last loop is `headCalls`. -/
theorem calls_truncateHead
    (hf : FileIs p category key c n) (offset : Nat) :
    Prog.calls Pool.handle (truncateHead category key offset) p =
      headCalls c.length n offset := by
  unfold truncateHead headCalls
  rw [Prog.calls_bind_ok _ (run_lbFileSize hf _ _), calls_lbFileSize hf,
    run_afterSearch hf]
  by_cases h : c.length < offset
  · rw [if_pos (Or.inl h), if_pos h, Prog.calls_bind_ret,
      calls_zerofill p (Nat.le_of_lt h)]
  · rw [if_neg h]
    by_cases hn : n = 0
    · subst hn
      have hnil : c = [] := Striped.eq_nil_of_zero hf
      subst hnil
      -- nothing is there and nothing is to be written
      rw [if_pos (Or.inr rfl), Prog.calls_bind_ret,
        calls_zerofill p (show ([] : Bytes).length ≤ offset from
          Nat.zero_le offset)]
      have h0 : offset = 0 := Nat.eq_zero_of_not_pos h
      subst h0
      rfl
    · rw [if_neg (not_or_intro h hn), Prog.calls_bind_ret, calls_truncateObj,
        Nat.min_eq_right (Nat.one_le_iff_ne_zero.mpr hn)]

end HeadCalls

section LastLoop

variable {fails : Failures} (category : ObjCategory) (key : Key)

/-- One iteration in which `stat` fails. -/
theorem step_removeRest_stat_fails
    (q : Pool) (left k : Nat) {i : Nat} (hi : fails i ≠ none) :
    Prog.run (Pool.failing fails) (removeRest category key (left + 1) k)
        (q, i) =
      Prog.run (Pool.failing fails) (removeRest category key left (k + 1))
        (q, i + 1) ∧
    Prog.callsOf IoCall.isStat (Pool.failing fails)
        (removeRest category key (left + 1) k) (q, i) =
      Prog.callsOf IoCall.isStat (Pool.failing fails)
        (removeRest category key left (k + 1)) (q, i + 1) + 1 := by
  obtain ⟨e, he⟩ := Option.ne_none_iff_exists'.mp hi
  have hstat : Pool.failing fails (.stat (objName category key (k + 1)))
      (q, i) = (.error (.other e), (q, i + 1)) :=
    Prog.failing_of_some Pool.handle he _ q
  constructor
  · rw [removeRest, Prog.run_call, hstat]
  · rw [removeRest, Prog.callsOf_call, hstat]
    rfl

/-- One iteration that removes an object. -/
theorem step_removeRest_removed
    (q : Pool) (left k : Nat) {i : Nat} (hi : fails i = none)
    (hi' : fails (i + 1) = none)
    (hobj : (q (objName category key (k + 1))).isSome) :
    Prog.run (Pool.failing fails) (removeRest category key (left + 1) k)
        (q, i) =
      Prog.run (Pool.failing fails) (removeRest category key left (k + 1))
        (q.erase (objName category key (k + 1)), i + 2) ∧
    Prog.callsOf IoCall.isStat (Pool.failing fails)
        (removeRest category key (left + 1) k) (q, i) =
      Prog.callsOf IoCall.isStat (Pool.failing fails)
        (removeRest category key left (k + 1))
        (q.erase (objName category key (k + 1)), i + 2) + 1 := by
  obtain ⟨b, hb⟩ := Option.isSome_iff_exists.mp hobj
  have hstat : Pool.failing fails (.stat (objName category key (k + 1)))
      (q, i) = (.ok b.length, (q, i + 1)) := by
    unfold Pool.failing
    rw [Prog.failing_of_none Pool.handle hi]
    simp only [Pool.handle, hb]
  have hrem : Pool.failing fails (.remove (objName category key (k + 1)))
      (q, i + 1) =
        (.ok (), (q.erase (objName category key (k + 1)), i + 2)) := by
    unfold Pool.failing
    rw [Prog.failing_of_none Pool.handle hi']
    simp only [Pool.handle, hb]
  constructor
  · rw [removeRest, Prog.run_call, hstat]
    simp only
    rw [Prog.run_call, hrem]
  · rw [removeRest, Prog.callsOf_call, hstat]
    simp only
    rw [Prog.callsOf_call, hrem]
    rfl

/-- One iteration in which `remove` fails: the object stays. -/
theorem step_removeRest_remove_fails
    (q : Pool) {i left k : Nat} (hi : fails i = none)
    (hi' : fails (i + 1) ≠ none)
    (hobj : (q (objName category key (k + 1))).isSome) :
    Prog.run (Pool.failing fails) (removeRest category key (left + 1) k)
        (q, i) =
      Prog.run (Pool.failing fails) (removeRest category key left (k + 1))
        (q, i + 2) := by
  obtain ⟨b, hb⟩ := Option.isSome_iff_exists.mp hobj
  obtain ⟨e, he⟩ := Option.ne_none_iff_exists'.mp hi'
  have hstat : Pool.failing fails (.stat (objName category key (k + 1)))
      (q, i) = (.ok b.length, (q, i + 1)) := by
    unfold Pool.failing
    rw [Prog.failing_of_none Pool.handle hi]
    simp only [Pool.handle, hb]
  have hrem : Pool.failing fails (.remove (objName category key (k + 1)))
      (q, i + 1) = (.error (.other e), (q, i + 2)) :=
    Prog.failing_of_some Pool.handle he _ q
  rw [removeRest, Prog.run_call, hstat]
  simp only
  rw [Prog.run_call, hrem]

/-- The last iteration. -/
theorem step_removeRest_end
    (q : Pool) (left k : Nat) {i : Nat} (hi : fails i = none)
    (hobj : q (objName category key (k + 1)) = none) :
    Prog.run (Pool.failing fails) (removeRest category key (left + 1) k)
        (q, i) = (.ok (), (q, i + 1)) ∧
    Prog.callsOf IoCall.isStat (Pool.failing fails)
        (removeRest category key (left + 1) k) (q, i) = 1 := by
  have hstat : Pool.failing fails (.stat (objName category key (k + 1)))
      (q, i) = (.error .ENOENT, (q, i + 1)) := by
    unfold Pool.failing
    rw [Prog.failing_of_none Pool.handle hi]
    simp only [Pool.handle, hobj]
  constructor
  · rw [removeRest, Prog.run_call, hstat]
    rfl
  · rw [removeRest, Prog.callsOf_call, hstat]
    rfl

/-- The loop never comes back to an object. -/
theorem removeRest_frame (s : Pool × Nat) (left k : Nat) {j : Nat}
    (hj : j ≤ k) :
    (Prog.run (Pool.failing fails) (removeRest category key left k) s).2.1
      (objName category key j) = s.1 (objName category key j) := by
  induction left generalizing k s with
  | zero => rfl
  | succ left ih =>
      obtain ⟨q, i⟩ := s
      have hne : objName category key j ≠ objName category key (k + 1) := by
        simp
        omega
      by_cases hi : fails i = none
      · cases hobj : q (objName category key (k + 1)) with
        | none => rw [(step_removeRest_end category key q left k hi hobj).1]
        | some b =>
            have hsome : (q (objName category key (k + 1))).isSome := by
              simp [hobj]
            by_cases hi' : fails (i + 1) = none
            · rw [(step_removeRest_removed category key q left k hi hi' hsome).1,
                ih _ _ (by omega)]
              exact Pool.erase_of_ne hne
            · rw [step_removeRest_remove_fails category key q hi hi' hsome,
                ih _ _ (by omega)]
      · rw [(step_removeRest_stat_fails category key q left k hi).1,
          ih _ _ (by omega)]

/-- The iterations that remove `r` objects without a failure. -/
theorem run_removeRest_removed
    (q : Pool) {i r : Nat} (left k : Nat)
    (hclean : ∀ j < 2 * r, fails (i + j) = none)
    (hobjs : ∀ j < r, (q (objName category key (k + 1 + j))).isSome) :
    ∃ q', Prog.run (Pool.failing fails)
          (removeRest category key (left + r) k) (q, i) =
        Prog.run (Pool.failing fails)
          (removeRest category key left (k + r)) (q', i + 2 * r) ∧
      Prog.callsOf IoCall.isStat (Pool.failing fails)
          (removeRest category key (left + r) k) (q, i) =
        Prog.callsOf IoCall.isStat (Pool.failing fails)
          (removeRest category key left (k + r)) (q', i + 2 * r) + r ∧
      ∀ j, q' (objName category key j) =
        if k < j ∧ j ≤ k + r then none else q (objName category key j) := by
  induction r generalizing k q i with
  | zero =>
      refine ⟨q, rfl, rfl, fun j => ?_⟩
      rw [if_neg (by omega)]
  | succ r ih =>
      obtain ⟨hrun₁, hcalls₁⟩ := step_removeRest_removed category key q
        (left + r) k (hclean 0 (by omega)) (hclean 1 (by omega))
        (hobjs 0 (by omega))
      obtain ⟨q', hrun, hcalls, hq'⟩ :=
        ih (q.erase (objName category key (k + 1))) (i := i + 2) (k + 1)
          (fun j hj => by
            have := hclean (j + 2) (by omega)
            rwa [Nat.add_comm j 2, ← Nat.add_assoc] at this)
          (fun j hj => by
            have := hobjs (j + 1) (by omega)
            rw [Pool.erase_of_ne (by simp; omega)]
            rwa [Nat.add_comm j 1, ← Nat.add_assoc] at this)
      have hk : k + 1 + r = k + (r + 1) := by omega
      have hi : i + 2 + 2 * r = i + 2 * (r + 1) := by omega
      rw [hk, hi] at hrun hcalls
      refine ⟨q', hrun₁.trans hrun, ?_, fun j => ?_⟩
      · exact hcalls₁.trans (by rw [hcalls, Nat.add_assoc])
      · rw [hq' j]
        by_cases hj : j = k + 1
        · subst hj
          rw [if_neg (by omega), if_pos (by omega), Pool.erase_self]
        · rw [Pool.erase_of_ne (by simpa using hj)]
          by_cases hin : k < j ∧ j ≤ k + (r + 1)
          · rw [if_pos hin, if_pos (by omega)]
          · rw [if_neg hin, if_neg (by omega)]

/-- The iterations in which `stat` fails `m` times in a row. -/
theorem run_removeRest_failing
    (q : Pool) {i m : Nat} (left k : Nat)
    (hfail : ∀ j < m, fails (i + j) ≠ none) :
    Prog.run (Pool.failing fails) (removeRest category key (left + m) k)
        (q, i) =
      Prog.run (Pool.failing fails) (removeRest category key left (k + m))
        (q, i + m) ∧
    Prog.callsOf IoCall.isStat (Pool.failing fails)
        (removeRest category key (left + m) k) (q, i) =
      Prog.callsOf IoCall.isStat (Pool.failing fails)
        (removeRest category key left (k + m)) (q, i + m) + m := by
  induction m generalizing k i with
  | zero => exact ⟨rfl, rfl⟩
  | succ m ih =>
      obtain ⟨hrun₁, hcalls₁⟩ := step_removeRest_stat_fails category key q
        (left + m) k (hfail 0 (by omega))
      obtain ⟨hrun, hcalls⟩ := ih (i := i + 1) (k + 1) (fun j hj => by
        have := hfail (j + 1) (by omega)
        rwa [Nat.add_comm j 1, ← Nat.add_assoc] at this)
      have hk : k + 1 + m = k + (m + 1) := by omega
      have hi : i + 1 + m = i + (m + 1) := by omega
      rw [hk, hi] at hrun hcalls
      exact ⟨hrun₁.trans hrun, hcalls₁.trans (by rw [hcalls, Nat.add_assoc])⟩

/-- A failure while objects are left leaves one of them behind. -/
theorem removeRest_leaves
    (q : Pool) {i r : Nat} (left k : Nat)
    (hfail : ∃ j < 2 * r, fails (i + j) ≠ none)
    (hobjs : ∀ j < r, (q (objName category key (k + 1 + j))).isSome) :
    ∃ j, k < j ∧ ((Prog.run (Pool.failing fails)
      (removeRest category key left k) (q, i)).2.1
        (objName category key j)).isSome := by
  induction r generalizing k q i left with
  | zero =>
      obtain ⟨j, hj, -⟩ := hfail
      omega
  | succ r ih =>
      have hobj := hobjs 0 (by omega)
      cases left with
      | zero => exact ⟨k + 1, by omega, hobj⟩
      | succ left =>
          by_cases hi : fails i = none
          · by_cases hi' : fails (i + 1) = none
            · rw [(step_removeRest_removed category key q left k hi hi' hobj).1]
              have hrest : ∃ j < 2 * r, fails (i + 2 + j) ≠ none := by
                obtain ⟨j, hj, hne⟩ := hfail
                have h0 : j ≠ 0 := fun h => hne (by rw [h]; exact hi)
                have h1 : j ≠ 1 := fun h => hne (by rw [h]; exact hi')
                refine ⟨j - 2, by omega, ?_⟩
                rwa [show i + 2 + (j - 2) = i + j by omega]
              obtain ⟨j, hj, hsome⟩ := ih
                (q.erase (objName category key (k + 1))) left (k + 1) hrest
                (fun j hj => by
                have := hobjs (j + 1) (by omega)
                rw [Pool.erase_of_ne (by simp; omega)]
                rwa [Nat.add_comm j 1, ← Nat.add_assoc] at this)
              exact ⟨j, by omega, hsome⟩
            · rw [step_removeRest_remove_fails category key q hi hi' hobj]
              refine ⟨k + 1, by omega, ?_⟩
              rw [removeRest_frame category key _ _ _ (Nat.le_refl _)]
              exact hobj
          · rw [(step_removeRest_stat_fails category key q left k hi).1]
            refine ⟨k + 1, by omega, ?_⟩
            rw [removeRest_frame category key _ _ _ (Nat.le_refl _)]
            exact hobj

/-- The loop ends or goes on for ever, but never throws. -/
theorem removeRest_not_throws
    {σ : Type} (h : Handler IoCtx σ) (left k : Nat) (s : σ) (e : Exn) :
    (Prog.run h (removeRest category key left k) s).1 ≠ .throws e := by
  induction left generalizing k s with
  | zero => exact nofun
  | succ left ih =>
      rw [removeRest, Prog.run_call]
      rcases (h (.stat (objName category key (k + 1))) s).1 with
        (_ | code) | size
      · exact nofun
      · exact ih _ _
      · exact ih _ _

end LastLoop

section Truncate

variable {fails : Failures} {category : ObjCategory} {key : Key} {p : Pool}
  {c : Bytes} {n offset : Nat}

/-- Throws, or returns 0 with the first `offset` bytes, zero-padded, and no
object behind them; and the last loop makes one more iteration than there are
objects at most. -/
def TruncatesOrThrows {σ : Type} (h : Handler IoCtx σ) (objects : σ → Pool)
    (category : ObjCategory) (key : Key) (c : Bytes) (n offset : Nat) (s : σ) : Prop :=
  ((∃ e, (Prog.run h (truncate category key offset) s).1 = .throws e) ∨
    ((Prog.run h (truncate category key offset) s).1 = .ok 0 ∧
      (∃ n', FileIs (objects (Prog.run h (truncate category key offset) s).2)
        category key (resize c offset) n') ∧
      ∀ j, objNum offset < j →
        objects (Prog.run h (truncate category key offset) s).2
          (objName category key j) = none)) ∧
  lastLoopIterations h category key offset s ≤ n + 1

theorem lastLoopIterations_view
    {σ τ : Type} {h : Handler IoCtx σ} {g : Handler IoCtx τ} {view : τ → σ}
    (hcall : ∀ c u, Prod.map id view (g c u) = h c (view u)) (u : τ) :
    lastLoopIterations g category key offset u =
      lastLoopIterations h category key offset (view u) := by
  unfold lastLoopIterations
  rw [← Prog.run_view hcall]
  rcases Prog.run g (truncateHead category key offset) u with ⟨⟨_ | m⟩ | e | x, u'⟩
  · rfl
  · exact Prog.callsOf_view hcall _ _ u'
  · rfl
  · rfl

/-- Handlers that agree under a view of the state truncate alike. -/
theorem truncatesOrThrows_view
    {σ τ : Type} {h : Handler IoCtx σ} {g : Handler IoCtx τ} {view : τ → σ}
    (hcall : ∀ c u, Prod.map id view (g c u) = h c (view u)) (objects : σ → Pool)
    (u : τ) :
    TruncatesOrThrows g (objects ∘ view) category key c n offset u ↔
      TruncatesOrThrows h objects category key c n offset (view u) := by
  unfold TruncatesOrThrows
  rw [lastLoopIterations_view hcall, ← Prog.run_view hcall]
  exact Iff.rfl

/-- A failing call before the last loop ends `truncate`. -/
theorem truncate_head_fails
    (hf : FileIs p category key c n)
    (hfail : ∃ j < headCalls c.length n offset, fails j ≠ none) :
    TruncatesOrThrows (Pool.failing fails) Prod.fst category key c n offset (p, 0) := by
  rw [← calls_truncateHead hf offset] at hfail
  obtain ⟨j, hj, hne⟩ := hfail
  have hstop : Prog.FailStop IoCall.failed (truncateHead category key offset) :=
    failStop_truncateHead offset
  obtain ⟨x, s', hrun⟩ :=
    hstop.run_failing (k := 0) ⟨j, hj, by rwa [Nat.zero_add]⟩
  refine ⟨Or.inl ⟨x, ?_⟩, ?_⟩
  · rw [truncate_eq, Prog.run_bind_throws _ hrun]
  · unfold lastLoopIterations
    rw [hrun]
    exact Nat.zero_le _

/-- If no call before the last loop fails, it starts where it does without
failures. -/
theorem run_truncateHead_failing
    (hf : FileIs p category key c n)
    (hnone : ∀ j < headCalls c.length n offset, fails j = none) :
    Prog.run (Pool.failing fails) (truncateHead category key offset) (p, 0) =
      ((Prog.run Pool.handle (truncateHead category key offset) p).1,
        ((Prog.run Pool.handle (truncateHead category key offset) p).2,
          headCalls c.length n offset)) := by
  rw [← calls_truncateHead hf offset] at hnone ⊢
  have hclean : ∀ j < Prog.calls Pool.handle (truncateHead category key offset) p,
      fails (0 + j) = none := by
    intro j hj
    rw [Nat.zero_add]
    exact hnone j hj
  refine (Prog.run_failing_of_none (truncateHead category key offset)
    hclean).trans ?_
  rw [Nat.zero_add]

/-- Behind the object of its end a content has no objects. -/
theorem none_above {p' : Pool}
    (hf : FileIs p' category key (resize c offset) n) {j : Nat}
    (hj : objNum offset < j) : p' (objName category key j) = none := by
  apply hf.none_of_ge
  by_contra hlt
  have hfull := hf.full_below j (Nat.lt_of_not_le hlt)
  rw [length_resize] at hfull
  have hmono := objNum_mono hfull
  rw [objNum_eq (j * objSize), Nat.mul_div_cancel _ objSize_pos] at hmono
  omega

/-- Extending the content, where no call fails. -/
theorem truncate_extends
    (hf : FileIs p category key c n) (hlen : c.length ≤ offset)
    (hext : c.length < offset ∨ n = 0) (hoff : offset ≤ offEnd)
    (hnone : ∀ j < headCalls c.length n offset, fails j = none) :
    TruncatesOrThrows (Pool.failing fails) Prod.fst category key c n offset (p, 0) := by
  obtain ⟨p', n', hfill, hf', -⟩ := run_zerofill hf hlen hoff
  have hhead : Prog.run Pool.handle (truncateHead category key offset) p =
      (.ok none, p') := by
    unfold truncateHead
    rw [Prog.run_bind_ok _ (run_lbFileSize hf _ _), run_afterSearch hf,
      if_pos hext, Prog.run_bind_ok _ hfill, Prog.run_ret]
  have hrun := run_truncateHead_failing hf hnone
  rw [hhead] at hrun
  have htrunc : Prog.run (Pool.failing fails) (truncate category key offset)
      (p, 0) = (.ok 0, (p', headCalls c.length n offset)) := by
    rw [truncate_eq, Prog.run_bind_ok _ hrun]
    rfl
  refine ⟨Or.inr ?_, ?_⟩
  · rw [htrunc]
    exact ⟨rfl, ⟨n', hf'⟩, fun j hj => none_above hf' hj⟩
  · unfold lastLoopIterations
    rw [hrun]
    exact Nat.zero_le _

/-- Extending it beyond `offEnd` goes wrong or does nothing. -/
theorem truncate_overflow
    (hf : FileIs p category key c n)
    (hlen : c.length < offset) (hoff : offEnd < offset)
    (hmax : offset < 2 ^ 64)
    (hnone : ∀ j < headCalls c.length n offset, fails j = none) :
    ¬ TruncatesOrThrows (Pool.failing fails) Prod.fst category key c n offset (p, 0) := by
  have hrun := run_truncateHead_failing hf hnone
  have hsearch := run_lbFileSize hf "rados_io::truncate()" (objNum offset)
  by_cases hfar : offset < offMax
  · have hfault : (Prog.run Pool.handle (truncateHead category key offset)
        p).1 = .faults .undefinedBehaviour := by
      unfold truncateHead
      rw [Prog.run_bind_ok _ hsearch, run_afterSearch hf,
        if_pos (Or.inl hlen)]
      exact Prog.run_bind_fst_faults _ (zerofill_overflow p hlen hoff hfar)
    rw [hfault] at hrun
    rintro ⟨⟨e, he⟩ | ⟨hok, -⟩, -⟩
    · rw [truncate_eq, Prog.run_bind_faults _ hrun] at he
      cases he
    · rw [truncate_eq, Prog.run_bind_faults _ hrun] at hok
      cases hok
  · -- the sum is no `off_t` any more, and nothing is written
    have hstop : offStop c.length (offset - c.length) = 0 := by
      unfold offStop
      rw [Nat.add_sub_cancel' (Nat.le_of_lt hlen), Nat.mod_eq_of_lt hmax,
        if_neg hfar]
    have hret : zerofill category key (offset - c.length) c.length =
        .ret () := by
      unfold zerofill
      rw [hstop, zerofillLoop, dif_neg (Nat.not_lt_zero _)]
    have hhead : Prog.run Pool.handle (truncateHead category key offset) p =
        (.ok none, p) := by
      unfold truncateHead
      rw [Prog.run_bind_ok _ hsearch, run_afterSearch hf,
        if_pos (Or.inl hlen), hret, Prog.ret_bind, Prog.run_ret]
    rw [hhead] at hrun
    have htrunc : Prog.run (Pool.failing fails) (truncate category key offset)
        (p, 0) = (.ok 0, (p, headCalls c.length n offset)) := by
      rw [truncate_eq, Prog.run_bind_ok _ hrun]
      rfl
    unfold TruncatesOrThrows
    rw [htrunc]
    rintro ⟨⟨e, he⟩ | ⟨-, ⟨n', hf'⟩, -⟩, -⟩
    · cases he
    · have hsame := congrArg List.length (Striped.content_unique hf hf' objSize_pos)
      rw [length_resize] at hsame
      exact absurd hsame (Nat.ne_of_lt hlen)

section Cut

/-- Where the last loop starts when no call before it fails: object
`objNum offset` has been cut, and the others are as they were. -/
structure CutAt (p p₁ : Pool) (category : ObjCategory) (key : Key)
    (offset : Nat) : Prop where
  self : p₁ (objName category key (objNum offset)) =
    (p (objName category key (objNum offset))).map
      (fun b => resize b (objOffset offset))
  other : ∀ j, j ≠ objNum offset →
    p₁ (objName category key j) = p (objName category key j)

/-- The part of `truncate` before its last loop, if none of its calls fails and
the content is to be cut. -/
theorem run_truncateHead_cut
    (hf : FileIs p category key c n) (hlen : offset ≤ c.length) (hn : 0 < n)
    (hnone : ∀ j < headCalls c.length n offset, fails j = none) :
    ∃ p₁, Prog.run (Pool.failing fails) (truncateHead category key offset)
        (p, 0) =
          (.ok (some (objNum offset)), (p₁, headCalls c.length n offset)) ∧
      CutAt p p₁ category key offset := by
  obtain ⟨p₁, hrun₁, hself, hother⟩ := run_truncateObj
    (objName category key (objNum offset)) (objOffset offset) p
  refine ⟨p₁, ?_, hself, fun j hj => hother _ (by simpa using hj)⟩
  rw [run_truncateHead_failing hf hnone]
  have hhead : Prog.run Pool.handle (truncateHead category key offset) p =
      (.ok (some (objNum offset)), p₁) := by
    unfold truncateHead
    rw [Prog.run_bind_ok _ (run_lbFileSize hf _ _), run_afterSearch hf,
      if_neg (not_or_intro (Nat.not_lt_of_le hlen) (by omega)),
      Prog.run_bind_ok _ hrun₁, Prog.run_ret]
  rw [hhead]

variable {p₁ : Pool}

theorem CutAt.isSome_behind
    (hcut : CutAt p p₁ category key offset)
    (hf : FileIs p category key c n) {j : Nat}
    (hj : j < objectsBehind n offset) :
    (p₁ (objName category key (objNum offset + 1 + j))).isSome := by
  rw [hcut.other _ (by omega)]
  rw [hf.isSome_iff]
  unfold objectsBehind at hj
  omega

theorem CutAt.none_behind
    (hcut : CutAt p p₁ category key offset)
    (hf : FileIs p category key c n) {j : Nat} (hj : objNum offset < j)
    (hn : n ≤ j) : p₁ (objName category key j) = none := by
  rw [hcut.other j (by omega)]
  exact hf.none_of_ge j hn

/-- The iterations that remove the objects, those in which `stat` fails, and
the last one. -/
theorem run_removeRest_clean
    (hcut : CutAt p p₁ category key offset) (hf : FileIs p category key c n)
    (hlen : offset ≤ c.length) (hc : c.length < offMax) {k m : Nat}
    (hm : m ≤ n - objectsBehind n offset)
    (hclean : ∀ j < 2 * objectsBehind n offset, fails (k + j) = none)
    (hfail : ∀ j < m, fails (k + 2 * objectsBehind n offset + j) ≠ none)
    (hend : fails (k + 2 * objectsBehind n offset + m) = none) :
    ∃ p₂ i, Prog.run (Pool.failing fails)
        (removeRest category key (2 ^ 64 - 1 - objNum offset) (objNum offset))
        (p₁, k) = (.ok (), (p₂, i)) ∧
      Prog.callsOf IoCall.isStat (Pool.failing fails)
        (removeRest category key (2 ^ 64 - 1 - objNum offset) (objNum offset))
        (p₁, k) = 1 + m + objectsBehind n offset ∧
      ∀ j, p₂ (objName category key j) =
        if j ≤ objNum offset then p₁ (objName category key j) else none := by
  have hn := objects_le hf hc
  have hnum := objNum_lt_of_lt (Nat.lt_of_le_of_lt hlen hc)
  have hr : n ≤ objNum offset + objectsBehind n offset + 1 := by
    unfold objectsBehind
    omega
  have hrn : objectsBehind n offset ≤ n := Nat.sub_le _ _
  generalize hN : objNum offset = N at hnum hr ⊢
  generalize hrb : objectsBehind n offset = r at hm hclean hfail hend hr hrn ⊢
  obtain ⟨left, hleft⟩ : ∃ left, 2 ^ 64 - 1 - N = left + 1 + m + r :=
    ⟨2 ^ 64 - 1 - N - 1 - m - r, by omega⟩
  rw [hleft]
  obtain ⟨p₂, hrun, hcalls, hp₂⟩ := run_removeRest_removed category key p₁
    (i := k) (left + 1 + m) N hclean (fun j hj => by
      rw [← hN]
      exact hcut.isSome_behind hf (by rw [hrb]; exact hj))
  obtain ⟨hrun', hcalls'⟩ := run_removeRest_failing category key p₂
    (i := k + 2 * r) (left + 1) (N + r) hfail
  have habsent : p₂ (objName category key (N + r + m + 1)) = none := by
    rw [hp₂, if_neg (by omega)]
    exact hcut.none_behind hf (by omega) (by omega)
  obtain ⟨hrun'', hcalls''⟩ := step_removeRest_end category key p₂ left
    _ hend habsent
  refine ⟨p₂, _, hrun.trans (hrun'.trans hrun''), ?_, fun j => ?_⟩
  · rw [hcalls, hcalls', hcalls'']
  · rw [hp₂ j]
    by_cases hj : j ≤ N
    · rw [if_neg (by omega), if_pos hj]
    · rw [if_neg hj]
      by_cases hj' : j ≤ N + r
      · rw [if_pos ⟨by omega, hj'⟩]
      · rw [if_neg (by omega)]
        exact hcut.none_behind hf (by omega) (by omega)

/-- If every `stat` fails behind the last object, the loop is too long. -/
theorem removeRest_too_long
    (hcut : CutAt p p₁ category key offset) (hf : FileIs p category key c n)
    (hlen : offset ≤ c.length) (hc : c.length < offMax) {k : Nat}
    (hclean : ∀ j < 2 * objectsBehind n offset, fails (k + j) = none)
    (hfail : ∀ j ≤ n - objectsBehind n offset,
      fails (k + 2 * objectsBehind n offset + j) ≠ none) :
    n + 1 < Prog.callsOf IoCall.isStat (Pool.failing fails)
      (removeRest category key (2 ^ 64 - 1 - objNum offset) (objNum offset))
      (p₁, k) := by
  have hn := objects_le hf hc
  have hnum := objNum_lt_of_lt (Nat.lt_of_le_of_lt hlen hc)
  have hrn : objectsBehind n offset ≤ n := Nat.sub_le _ _
  generalize hN : objNum offset = N at hnum ⊢
  generalize hrb : objectsBehind n offset = r at hclean hfail hrn
  obtain ⟨left, hleft⟩ : ∃ left,
      2 ^ 64 - 1 - N = left + 1 + (n - r + 1) + r :=
    ⟨2 ^ 64 - 1 - N - 1 - (n - r + 1) - r, by omega⟩
  rw [hleft]
  obtain ⟨p₂, -, hcalls, -⟩ := run_removeRest_removed category key p₁
    (i := k) (left + 1 + (n - r + 1)) N hclean (fun j hj => by
      rw [← hN]
      exact hcut.isSome_behind hf (by rw [hrb]; exact hj))
  obtain ⟨-, hcalls'⟩ := run_removeRest_failing category key p₂
    (i := k + 2 * r) (m := n - r + 1) (left + 1) (N + r)
    (fun j hj => hfail j (Nat.le_of_lt_succ hj))
  -- the loop makes at least one more iteration
  have hone : 0 < Prog.callsOf IoCall.isStat (Pool.failing fails)
      (removeRest category key (left + 1) (N + r + (n - r + 1)))
      (p₂, k + 2 * r + (n - r + 1)) := by
    rw [removeRest, Prog.callsOf_call]
    exact Nat.lt_of_lt_of_le Nat.one_pos (Nat.le_add_left _ _)
  rw [hcalls, hcalls']
  omega

/-- Cutting the content, where no call before the last loop fails. -/
theorem truncate_cuts_iff
    (hf : FileIs p category key c n) (hlen : offset ≤ c.length)
    (hc : c.length < offMax) (hn : 0 < n)
    (hnone : ∀ j < headCalls c.length n offset, fails j = none) :
    TruncatesOrThrows (Pool.failing fails) Prod.fst category key c n offset (p, 0) ↔
      LoopClean fails (headCalls c.length n offset) (objectsBehind n offset)
        (n - objectsBehind n offset) := by
  obtain ⟨p₁, hhead, hcut⟩ := run_truncateHead_cut hf hlen hn hnone
  have hiter : lastLoopIterations (Pool.failing fails) category key offset (p, 0) =
      Prog.callsOf IoCall.isStat (Pool.failing fails)
        (removeRest category key (2 ^ 64 - 1 - objNum offset) (objNum offset))
        (p₁, headCalls c.length n offset) := by
    unfold lastLoopIterations
    rw [hhead]
  have htrunc : Prog.run (Pool.failing fails) (truncate category key offset)
      (p, 0) = Prog.run (Pool.failing fails)
        (removeRest category key (2 ^ 64 - 1 - objNum offset) (objNum offset)
          >>= fun _ => .ret 0) (p₁, headCalls c.length n offset) := by
    rw [truncate_eq, Prog.run_bind_ok _ hhead]
    rfl
  generalize headCalls c.length n offset = k at hiter htrunc ⊢
  constructor
  · rintro ⟨hres, hle⟩
    by_contra hdirty
    by_cases hclean : ∀ j < 2 * objectsBehind n offset, fails (k + j) = none
    · have hlong := removeRest_too_long hcut hf hlen hc hclean
        (fun j hj hj' => hdirty ⟨hclean, j, hj, hj'⟩)
      rw [hiter] at hle
      omega
    · push Not at hclean
      obtain ⟨j, hj, hsome⟩ := removeRest_leaves category key p₁
        (2 ^ 64 - 1 - objNum offset) (objNum offset) hclean
        (fun j hj => hcut.isSome_behind hf hj)
      rw [htrunc] at hres
      rcases hrun : Prog.run (Pool.failing fails)
        (removeRest category key (2 ^ 64 - 1 - objNum offset) (objNum offset))
        (p₁, k) with ⟨⟨⟩ | e | x, s⟩
      · rw [Prog.run_bind_ok _ hrun, Prog.run_ret] at hres
        rcases hres with ⟨e, he⟩ | ⟨-, -, habove⟩
        · cases he
        · have := habove j hj
          rw [hrun, this] at hsome
          cases hsome
      · have hnot := removeRest_not_throws category key (Pool.failing fails)
          (2 ^ 64 - 1 - objNum offset) (objNum offset) (p₁, k) e
        rw [hrun] at hnot
        exact hnot rfl
      · rw [Prog.run_bind_faults _ hrun] at hres
        rcases hres with ⟨e, he⟩ | ⟨he, -⟩ <;> cases he
  · rintro ⟨hclean, hex⟩
    -- the first `stat` behind the last object that does not fail
    classical
    obtain ⟨hm, hend⟩ := Nat.find_spec hex
    have hfail : ∀ j < Nat.find hex,
        fails (k + 2 * objectsBehind n offset + j) ≠ none :=
      fun j hj hj' => Nat.find_min hex hj ⟨by omega, hj'⟩
    obtain ⟨p₂, i, hrun, hcalls, hp₂⟩ :=
      run_removeRest_clean hcut hf hlen hc hm hclean hfail hend
    have hf' := fileIs_cut hf hlen hcut.self hcut.other hp₂
    rw [Prog.run_bind_ok _ hrun, Prog.run_ret] at htrunc
    refine ⟨Or.inr ?_, ?_⟩
    · rw [htrunc]
      exact ⟨rfl, ⟨_, hf'⟩, fun j hj => none_above hf' hj⟩
    · rw [hiter, hcalls]
      have hrn : objectsBehind n offset ≤ n := Nat.sub_le _ _
      omega

end Cut

/-- **Truncation under storage errors.** `truncate` throws or does its work, in
no more iterations than it should, exactly if a call before the last loop
fails, or the offset is not too far behind the content and none of the calls of
the last loop that reach an object fails, nor too many `stat` calls behind
them. -/
theorem truncate_safe_iff
    {σ : Type} (L : Librados σ) {s : σ} (fails : Failures)
    (hf : FileIs (L.objects s) category key c n) (hc : c.length < offMax)
    (hoff : offset < 2 ^ 64) :
    TruncatesOrThrows (L.failing fails) (fun s => L.objects s.1) category key c n offset
        (s, 0) ↔
      (∃ j < headCalls c.length n offset, fails j ≠ none) ∨
        (c.length < offset ∧ offset ≤ offEnd) ∨
        (offset ≤ c.length ∧ (0 < n →
          LoopClean fails (headCalls c.length n offset)
            (objectsBehind n offset) (n - objectsBehind n offset))) := by
  refine (truncatesOrThrows_view (Prog.failing_view L.call_eq IoCall.failed fails)
    Prod.fst (s, 0)).trans ?_
  change TruncatesOrThrows (Pool.failing fails) Prod.fst category key c n offset
    (L.objects s, 0) ↔ _
  by_cases hhead : ∃ j < headCalls c.length n offset, fails j ≠ none
  · exact iff_of_true (truncate_head_fails hf hhead) (Or.inl hhead)
  · have hnone : ∀ j < headCalls c.length n offset, fails j = none := by
      push Not at hhead
      exact hhead
    rcases Nat.lt_or_ge c.length offset with hlt | hle
    · by_cases hend : offset ≤ offEnd
      · exact iff_of_true
          (truncate_extends hf (Nat.le_of_lt hlt) (Or.inl hlt) hend hnone)
          (Or.inr (Or.inl ⟨hlt, hend⟩))
      · refine iff_of_false
          (truncate_overflow hf hlt (Nat.lt_of_not_le hend) hoff hnone) ?_
        rintro (h | ⟨-, h⟩ | ⟨h, -⟩)
        · exact hhead h
        · exact hend h
        · omega
    · rcases Nat.eq_zero_or_pos n with rfl | hn
      · have hnil : c = [] := Striped.eq_nil_of_zero hf
        subst hnil
        have h0 : offset = 0 := Nat.eq_zero_of_le_zero hle
        subst h0
        exact iff_of_true
          (truncate_extends hf (Nat.le_refl 0) (Or.inr rfl) (Nat.zero_le _)
            hnone)
          (Or.inr (Or.inr ⟨hle, fun h => absurd h (Nat.lt_irrefl 0)⟩))
      · rw [truncate_cuts_iff hf hle hc hn hnone]
        constructor
        · exact fun h => Or.inr (Or.inr ⟨hle, fun _ => h⟩)
        · rintro (h | ⟨h, -⟩ | ⟨-, h⟩)
          · exact absurd h hhead
          · omega
          · exact h hn

end Truncate

/-- A full object `#0` and one byte in object `#1`. -/
def twoObjects : Pool :=
  (Pool.empty.put (objName .DATA ['f'] 0) (List.replicate objSize 0)).put
    (objName .DATA ['f'] 1) [1]

theorem fileIs_twoObjects :
    FileIs twoObjects .DATA ['f'] (List.replicate objSize 0 ++ [1]) 2 where
  some_of_lt k hk := by
    unfold twoObjects
    rcases (show k = 0 ∨ k = 1 by omega) with rfl | rfl
    · rw [Pool.put_of_ne (by simp), Pool.put_self]
      simp [slice]
    · rw [Pool.put_self]
      have hlen : ([1] : Bytes).length ≤ objSize := objSize_pos
      simp [slice, List.take_of_length_le hlen]
  none_of_ge k hk := by
    unfold twoObjects
    rw [Pool.put_of_ne (by simp; omega), Pool.put_of_ne (by simp; omega)]
    rfl
  full_below k hk := by
    have hmul := Nat.mul_le_mul_right objSize (Nat.le_of_lt_succ hk)
    rw [List.length_append, List.length_replicate]
    omega
  covers := by
    have := objSize_pos
    rw [List.length_append, List.length_replicate, List.length_singleton]
    omega

theorem length_twoObjects_lt :
    (List.replicate objSize (0 : UInt8) ++ [1]).length < offMax := by
  rw [List.length_append, List.length_replicate, objSize, offMax]
  decide

/-- One `stat` and one `trunc`. -/
theorem headCalls_two (size : Nat) : headCalls size 2 0 = 2 := by
  unfold headCalls
  rw [if_neg (Nat.not_lt_zero size)]
  rfl

/-- Call 4, the first `stat` behind the last object, fails. -/
theorem truncate_safe_retry :
    TruncatesOrThrows (Pool.failing fun k => if k = 4 then some 5 else none) Prod.fst
      .DATA ['f'] (List.replicate objSize 0 ++ [1]) 2 0 (twoObjects, 0) := by
  refine (truncate_safe_iff Pool.librados _ fileIs_twoObjects length_twoObjects_lt
    (by decide)).mpr ?_
  refine Or.inr (Or.inr ⟨Nat.zero_le _, fun _ => ?_⟩)
  rw [headCalls_two]
  refine ⟨?_, 1, ?_, ?_⟩
  · decide
  · decide
  · decide

/-- The error of the fourth call, `remove` of object `#1`, is not looked at:
`truncate` returns 0 and leaves the object behind. -/
theorem truncate_leaves_object :
    ¬ TruncatesOrThrows (Pool.failing fun k => if k = 3 then some 5 else none) Prod.fst
      .DATA ['f'] (List.replicate objSize 0 ++ [1]) 2 0 (twoObjects, 0) := by
  rw [truncate_cuts_iff fileIs_twoObjects (Nat.zero_le _) length_twoObjects_lt
    (by decide) (by rw [headCalls_two]; decide), headCalls_two]
  rintro ⟨hclean, -⟩
  exact absurd (hclean 1 (by decide)) (by decide)

end RadosIo

end Nmfs
