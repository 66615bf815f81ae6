import Nmfs.Journal.Transaction

/-!
# Rejected operations of a transaction

A method of a `transaction` that returns -1 or throws should leave the
transaction as it was.  Most of them make their only check before the first
change.  `mkreg` and `rmreg` make a second one, on `f_inodes`, when the entry
and the inode of the directory have been recorded already.

A run in which no second check fails is the run of its accepted calls alone.
-/

namespace Nmfs

namespace TxOp

/-- The call passes the check on the entry, and fails the one on the file. -/
def FailsLate (tx : Transaction) : TxOp → Prop
  | .mkreg _ fName fInode =>
      tx.committed = false ∧ tx.hasDentry fName true = false ∧
        ∃ i, tx.fInodes.lookup fInode.core.ino = some (some i)
  | .rmreg _ fName fInode =>
      tx.committed = false ∧ tx.hasDentry fName false = false ∧
        tx.fInodes.lookup fInode.core.ino = some none
  | _ => False

/-- The call returns -1 or throws. -/
def Rejected (tx : Transaction) (op : TxOp) : Prop :=
  (op.apply tx).1 ≠ .done

instance (tx : Transaction) (op : TxOp) : Decidable (op.Rejected tx) :=
  inferInstanceAs (Decidable (_ ≠ _))

/-- The calls that are not rejected. -/
def accepted (tx : Transaction) : List TxOp → List TxOp
  | [] => []
  | op :: ops =>
      if op.Rejected tx then accepted (op.apply tx).2 ops
      else op :: accepted (op.apply tx).2 ops

/-- No call of the sequence fails its second check. -/
def NoneLate (tx : Transaction) : List TxOp → Prop
  | [] => True
  | op :: ops => ¬ op.FailsLate tx ∧ NoneLate (op.apply tx).2 ops

end TxOp

namespace Transaction

variable {tx : Transaction}

theorem hasDentry_of_lookup
    {name : Name} {alive : Bool} {ino : Uuid}
    (h : tx.dentries.lookup name = some (alive, ino)) :
    tx.hasDentry name alive = true := by
  simp [hasDentry, h]

/-- An entry that was not recorded as `alive` makes a difference. -/
theorem dentries_ne_of_setDentry
    {name : Name} {alive : Bool} {ino : Uuid}
    (h : tx.hasDentry name alive = false) :
    (tx.setDentry name alive ino).dentries ≠ tx.dentries := by
  intro hd
  have hl : tx.dentries.lookup name = some (alive, ino) := by
    rw [← hd]
    exact setDentry_lookup _ _ _ _
  rw [hasDentry_of_lookup hl] at h
  cases h

/-- A method that checks nothing after its first change. -/
theorem unchanged_of_early
    {b c : Bool} {e : Exn} {tx₁ : Transaction} {r : TxResult × Transaction}
    (hr : r = if b then (.committed, tx) else if c then (.throws e, tx)
      else (.done, tx₁))
    (h : r.1 ≠ .done) : r.2 = tx := by
  subst hr
  cases b with
  | true => rfl
  | false =>
      cases c with
      | true => rfl
      | false => exact absurd rfl h

theorem unchanged_of_committed
    {b : Bool} {tx₁ : Transaction} {r : TxResult × Transaction}
    (hr : r = if b then (.committed, tx) else (.done, tx₁))
    (h : r.1 ≠ .done) : r.2 = tx := by
  subst hr
  cases b with
  | true => rfl
  | false => exact absurd rfl h

theorem mkreg_unchanged
    {selfInode : Inode} {fName : Name} {fInode : Inode}
    (hlate : ¬ (TxOp.mkreg selfInode fName fInode).FailsLate tx)
    (h : (TxOp.mkreg selfInode fName fInode).Rejected tx) :
    (tx.mkreg selfInode fName fInode).2 = tx := by
  cases hc : tx.committed with
  | true => simp [mkreg, hc]
  | false =>
      cases hd : tx.hasDentry fName true with
      | true => simp [mkreg, hc, hd]
      | false =>
          rcases hf : tx.fInodes.lookup fInode.core.ino with _ | _ | i
          · exact absurd (by simp [TxOp.apply, mkreg, hc, hd, hf]) h
          · exact absurd (by simp [TxOp.apply, mkreg, hc, hd, hf]) h
          · exact absurd ⟨hc, hd, i, hf⟩ hlate

theorem rmreg_unchanged
    {selfInode : Inode} {fName : Name} {fInode : Inode}
    (hlate : ¬ (TxOp.rmreg selfInode fName fInode).FailsLate tx)
    (h : (TxOp.rmreg selfInode fName fInode).Rejected tx) :
    (tx.rmreg selfInode fName fInode).2 = tx := by
  cases hc : tx.committed with
  | true => simp [rmreg, hc]
  | false =>
      cases hd : tx.hasDentry fName false with
      | true => simp [rmreg, hc, hd]
      | false =>
          rcases hf : tx.fInodes.lookup fInode.core.ino with _ | _ | i
          · exact absurd (by simp [TxOp.apply, rmreg, hc, hd, hf]) h
          · exact absurd ⟨hc, hd, hf⟩ hlate
          · exact absurd (by simp [TxOp.apply, rmreg, hc, hd, hf]) h

theorem unchanged_of_not_late
    {op : TxOp} (hlate : ¬ op.FailsLate tx) (h : op.Rejected tx) :
    (op.apply tx).2 = tx := by
  cases op with
  | mkself s => exact unchanged_of_committed rfl h
  | rmself => exact unchanged_of_committed rfl h
  | chself s => exact unchanged_of_committed rfl h
  | mkdir s name ino => exact unchanged_of_early rfl h
  | rmdir s name ino => exact unchanged_of_early rfl h
  | mvdir s src srcIno dst dstIno => exact unchanged_of_early rfl h
  | mkreg s name f => exact mkreg_unchanged hlate h
  | rmreg s name f => exact rmreg_unchanged hlate h
  | mvreg s src srcIno dst dstIno => exact unchanged_of_early rfl h
  | chreg f => exact unchanged_of_committed rfl h

/-- A second check that fails comes too late: the entry is recorded. -/
theorem dentries_ne_of_failsLate
    {op : TxOp} (h : op.FailsLate tx) :
    op.Rejected tx ∧ (op.apply tx).2.dentries ≠ tx.dentries := by
  cases op with
  | mkreg s name f =>
      obtain ⟨hc, hd, i, hf⟩ := h
      have hne : (tx.setDentry name true f.core.ino).dentries ≠ tx.dentries :=
        dentries_ne_of_setDentry hd
      simpa [TxOp.Rejected, TxOp.apply, mkreg, hc, hd, hf] using hne
  | rmreg s name f =>
      obtain ⟨hc, hd, hf⟩ := h
      have hne : (tx.setDentry name false f.core.ino).dentries ≠ tx.dentries :=
        dentries_ne_of_setDentry hd
      simpa [TxOp.Rejected, TxOp.apply, rmreg, hc, hd, hf] using hne
  | mkself s | rmself | chself s | mkdir s name ino | rmdir s name ino
  | mvdir s src srcIno dst dstIno | mvreg s src srcIno dst dstIno
  | chreg f => exact h.elim

/-- What the rejected calls of a run do is nothing. -/
theorem applyAll_accepted
    {ops : List TxOp} (h : TxOp.NoneLate tx ops) :
    TxOp.applyAll tx (TxOp.accepted tx ops) = TxOp.applyAll tx ops := by
  induction ops generalizing tx with
  | nil => rfl
  | cons op ops ih =>
      obtain ⟨hlate, hrest⟩ := h
      have hih := ih hrest
      by_cases hr : op.Rejected tx
      · have hsame : (op.apply tx).2 = tx := unchanged_of_not_late hlate hr
        simp only [TxOp.accepted, if_pos hr, TxOp.applyAll]
        rw [hsame] at hih ⊢
        exact hih
      · simp only [TxOp.accepted, if_neg hr, TxOp.applyAll]
        exact hih

/-- A rejected call leaves the four records as they were, unless it is a
`mkreg` of a file that is recorded under another entry, or an `rmreg` of a file
that is recorded as deleted. -/
theorem rejected_call_iff (tx : Transaction) (op : TxOp) :
    (op.Rejected tx →
      (op.apply tx).2.dentries = tx.dentries ∧
        (op.apply tx).2.sInode = tx.sInode ∧
        (op.apply tx).2.fInodes = tx.fInodes ∧
        (op.apply tx).2.status = tx.status) ↔ ¬ op.FailsLate tx := by
  constructor
  · intro h hlate
    obtain ⟨hr, hne⟩ := dentries_ne_of_failsLate hlate
    exact hne (h hr).1
  · intro hlate hr
    rw [unchanged_of_not_late hlate hr]
    exact ⟨rfl, rfl, rfl, rfl⟩

section Examples

/-- A regular file of the root directory. -/
def knownFile : Inode :=
  .new .root 0 0 (sIFREG ||| 0o644) ⟨List.replicate 16 9, by simp⟩ ⟨0, 0⟩

def knownRoot : Inode :=
  .new .nil 0 0 (sIFDIR ||| 0o755) .root ⟨0, 0⟩

/-- `chmod` of a file, and then `mkreg` of the same file, in a transaction that
knows nothing of its entry: `mkreg` throws, and the entry is there. -/
theorem rejected_mkreg_changes :
    ¬ ∀ tx : Transaction, tx.Reachable → ∀ op : TxOp, op.Rejected tx →
      (op.apply tx).2.dentries = tx.dentries ∧
        (op.apply tx).2.sInode = tx.sInode ∧
        (op.apply tx).2.fInodes = tx.fInodes ∧
        (op.apply tx).2.status = tx.status := by
  intro h
  have hreach : (TxOp.applyAll (.new .root) [.chreg knownFile]).Reachable :=
    .apply (.chreg knownFile) (.new .root) nofun
  have hd := (h _ hreach (.mkreg knownRoot [102] knownFile) (by decide)).1
  exact absurd (congrArg (fun d => d.lookup [102]) hd) (by decide)

end Examples

end Transaction

end Nmfs
