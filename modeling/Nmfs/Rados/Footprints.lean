import Nmfs.Rados.Operations

/-!
# What the operations leave alone

A call of `rados_io` touches the objects of its own category and key only, in
whatever state the pool is, and also when it fails.
-/

namespace Nmfs

/-- The object that a call is about. -/
def IoCall.oid : IoCall → Key
  | .read oid _ _ => oid
  | .write oid _ _ => oid
  | .trunc oid _ => oid
  | .stat oid => oid
  | .remove oid => oid

/-- The calls on the objects of `category` and `key`. -/
def OnFile (category : ObjCategory) (key : Key) (c : IoCall) : Prop :=
  ∃ k, c.oid = objName category key k

namespace RadosIo

variable (category : ObjCategory) (key : Key)

theorem only_writeObj (num : Nat) (value : Bytes) (len offset : Nat) :
    (writeObj (objName category key num) value len offset).Only
      (OnFile category key) := by
  unfold writeObj
  split
  · trivial
  · refine ⟨⟨num, rfl⟩, ?_⟩
    rintro (e | u) <;> trivial

theorem only_zerofillLoop (zeros : Bytes) (stop cursor : Nat) :
    (zerofillLoop category key zeros stop cursor).Only
      (OnFile category key) := by
  induction hm : stop - cursor using Nat.strongRecOn generalizing cursor with
  | ind m ih =>
    rw [zerofillLoop]
    split
    · split
      · have hlt := lt_nextBound cursor
        refine (only_writeObj category key _ _ _ _).bind fun _ => ?_
        exact ih (stop - nextBound cursor) (by omega) _ rfl
      · trivial
    · trivial

theorem only_writeLoop (value : Bytes) (stop cursor sum : Nat) :
    (writeLoop category key value stop cursor sum).Only
      (OnFile category key) := by
  induction hm : stop - cursor using Nat.strongRecOn
    generalizing cursor sum with
  | ind m ih =>
    rw [writeLoop]
    split
    · split
      · have hlt := lt_nextBound cursor
        refine (only_writeObj category key _ _ _ _).bind fun n => ?_
        exact ih (stop - nextBound cursor) (by omega) _ _ rfl
      · trivial
    · trivial

theorem only_statPrev
    (function : String) (num : Nat) {next : IoProg (Option Nat)}
    (hnext : next.Only (OnFile category key)) :
    (statPrev function category key num next).Only (OnFile category key) := by
  refine ⟨⟨num, rfl⟩, ?_⟩
  rintro (e | size)
  · cases e with
    | ENOENT => exact hnext
    | other code => trivial
  · trivial

theorem only_lbFileSize (function : String) (num : Nat) :
    (lbFileSize function category key num).Only (OnFile category key) := by
  induction num with
  | zero => exact only_statPrev category key function 0 trivial
  | succ k ih => exact only_statPrev category key function (k + 1) ih

theorem only_write (value : Bytes) (offset : Nat) :
    (write category key value offset).Only (OnFile category key) := by
  refine (only_lbFileSize category key _ _).bind fun found => ?_
  refine Prog.Only.bind ?_ fun _ => only_writeLoop category key value _ _ 0
  unfold fillGap
  split
  · exact only_zerofillLoop category key _ _ _
  · trivial

theorem only_readLoop (len stop cursor : Nat) (value : Bytes) :
    (readLoop category key len stop cursor value).Only
      (OnFile category key) := by
  induction hm : stop - cursor using Nat.strongRecOn
    generalizing cursor value with
  | ind m ih =>
    rw [readLoop]
    split
    · split
      · have hlt := lt_nextBound cursor
        refine Prog.Only.bind (Prog.Only.tryCatch ?_ ?_) fun bl => ?_
        · unfold readObj
          split
          · trivial
          · refine ⟨⟨objNum cursor, rfl⟩, ?_⟩
            rintro (e | bl)
            · cases e <;> trivial
            · trivial
        · rintro (_ | _ | _ | _ | _) <;> trivial
        · exact ih (stop - nextBound cursor) (by omega) _ _ rfl
      · trivial
    · trivial

theorem only_read (len offset : Nat) :
    (read category key len offset).Only (OnFile category key) :=
  only_readLoop category key len _ _ _

theorem only_removeLoop (left num : Nat) :
    (removeLoop category key left num).Only (OnFile category key) := by
  induction left generalizing num with
  | zero => trivial
  | succ left ih =>
      refine ⟨⟨num, rfl⟩, ?_⟩
      rintro (e | u)
      · cases e <;> trivial
      · exact ih (num + 1)

theorem only_remove : (remove category key).Only (OnFile category key) :=
  only_removeLoop category key _ _

end RadosIo

/-- The calls on objects that are not in `category`. -/
def NotIn (category : ObjCategory) (c : IoCall) : Prop :=
  ∃ category' key k, category' ≠ category ∧ c.oid = objName category' key k

theorem OnFile.notIn
    {category category' : ObjCategory} {key : Key}
    (hne : category' ≠ category) (c : IoCall) (h : OnFile category' key c) :
    NotIn category c := by
  obtain ⟨k, hk⟩ := h
  exact ⟨category', key, k, hne, hk⟩

theorem Pool.handle_of_ne
    {oid : Key} (c : IoCall) (p : Pool) (h : oid ≠ c.oid) :
    (Pool.handle c p).2 oid = p oid := by
  cases c with
  | read oid' len offset =>
      simp only [Pool.handle]
      split <;> rfl
  | write oid' data offset => exact Pool.put_of_ne h _
  | trunc oid' size =>
      simp only [Pool.handle]
      split
      · exact Pool.put_of_ne h _
      · rfl
  | stat oid' =>
      simp only [Pool.handle]
      split <;> rfl
  | remove oid' =>
      simp only [Pool.handle]
      split
      · exact Pool.erase_of_ne h
      · rfl

/-- A program that does not touch a category leaves its files as they are. -/
theorem fileIs_of_only_notIn
    {α : Type} {category : ObjCategory} {key : Key} {c : Bytes} {n : Nat}
    {prog : IoProg α} (hprog : prog.Only (NotIn category)) {p : Pool}
    (hf : FileIs p category key c n) :
    FileIs (prog.run Pool.handle p).2 category key c n := by
  have hsame : ∀ k, (prog.run Pool.handle p).2 (objName category key k) =
      p (objName category key k) := by
    refine hprog.run (R := fun p p' => ∀ k, p' (objName category key k) =
      p (objName category key k)) ?_ ?_ ?_ p
    · exact fun _ _ => rfl
    · intro _ _ _ h h' k
      exact (h' k).trans (h k)
    · rintro call p ⟨category', key', k', hne, hoid⟩ k
      refine Pool.handle_of_ne call p ?_
      rw [hoid]
      intro heq
      exact hne (objName_inj heq).1.symm
  unfold FileIs
  simp only [hsame]
  exact hf

end Nmfs
