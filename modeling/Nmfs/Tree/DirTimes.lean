import Nmfs.Lib.Transitions
import Nmfs.Tree.TwoCopies

/-!
# The times of a directory

Whoever changes the entries of a directory has to set its `mtime` and `ctime`,
and to hand its inode to the journal, whose current transaction takes the times
over: it copies the inode if it has none, and sets the two times otherwise.

The journal is always called with the inode.  The clock, however, is not read by
the handler of a rename and by the halves of a rename between two directories;
`local_symlink` and `rpc_symlink` read it and do not set the times.  So a run
leaves the right times behind if and only if its operations stamp
(`changes_stamped_iff`).
-/

namespace Nmfs

namespace Inode

/-- Both times of the inode are `ts`. -/
def HasTimes (i : Inode) (ts : Timespec) : Prop :=
  i.core.mtime = ts ∧ i.core.ctime = ts

instance (i : Inode) (ts : Timespec) : Decidable (i.HasTimes ts) :=
  inferInstanceAs (Decidable (_ ∧ _))

/-- The two inodes have the same times. -/
def SameTimes (i i' : Inode) : Prop :=
  i.core.mtime = i'.core.mtime ∧ i.core.ctime = i'.core.ctime

theorem SameTimes.hasTimes_iff
    {i i' : Inode} (h : i.SameTimes i') (ts : Timespec) :
    i.HasTimes ts ↔ i'.HasTimes ts := by
  unfold HasTimes
  rw [h.1, h.2]

end Inode

namespace TxOp

/-- Whichever rule the transaction follows, it takes the times over. -/
theorem Recorded.sameTimes
    {old : Option Inode} {s s' : Inode} (h : Recorded old s s') :
    s'.SameTimes s := by
  cases h with
  | copy => exact ⟨rfl, rfl⟩
  | times _ => exact ⟨rfl, rfl⟩

/-- A call that is done, and has been given the inode of the directory. -/
theorem apply_sameTimes
    {op : TxOp} {tx : Transaction} {self : Inode}
    (hself : op.selfInode? = some self) (hdone : (op.apply tx).1 = .done) :
    ∃ s, (op.apply tx).2.sInode = some s ∧ s.SameTimes self := by
  rcases op.apply_sInode tx with ⟨-, hnone⟩ | ⟨s, s', hs, hs', hrec⟩
  · rw [hnone hdone] at hself
    cases hself
  · obtain rfl : s = self := Option.some.inj (hs.symm.trans hself)
    exact ⟨s', hs', hrec.sameTimes⟩

theorem chreg_sInode (f : Inode) (tx : Transaction) :
    ((TxOp.chreg f).apply tx).2.sInode = tx.sInode := by
  simp only [apply, Transaction.chreg]
  split <;> rfl

end TxOp

/-- An operation on the entries of a directory, with its arguments.  Of a
directory that is removed, this is the part that its parent does. -/
inductive DirOp where
  | mkdir (r : Request)
  | rmdir (targetIno : Uuid) (targetName : Name)
  | create (r : Request)
  | symlink (r : Request)
  | unlink (childName : Name)
  | renameSameParent (oldPath newPath : Bytes) (flags : UInt32)
  | renameNotSameParentSrc (oldName : Name) (flags : UInt32)
  | renameNotSameParentDst (targetI : Inode) (checkDstIno : Uuid)
      (newName : Name) (flags : UInt32)

namespace Directory

/-- What the local source half is answered with. -/
def localTaken : Except Exn Inode × Directory → Reply × Directory
  | (.ok _, d) => (.ret 0, d)
  | (.error e, d) => (.throws e, d)

/-- What the remote source half is answered with. -/
def rpcTaken : Except Exn (Option Inode) × Directory → Reply × Directory
  | (.ok (some _), d) => (.ret 0, d)
  | (.ok none, d) => (.ret (-ENOSYS), d)
  | (.error e, d) => (.throws e, d)

end Directory

namespace DirOp

open Directory

/-- The `local_*` functions, at the time `ts`. -/
def performLocal (ts : Timespec) (d : Directory) : DirOp → Reply × Directory
  | mkdir r => d.localMkdir { r with ts := ts }
  | rmdir targetIno targetName => d.localRmdirDown targetIno targetName ts
  | create r => d.localCreate { r with ts := ts }
  | symlink r => d.localSymlink { r with ts := ts }
  | unlink childName => d.localUnlink childName ts
  | renameSameParent oldPath newPath flags =>
      d.localRenameSameParent oldPath newPath flags ts
  | renameNotSameParentSrc oldName flags =>
      localTaken (d.localRenameNotSameParentSrc oldName flags)
  | renameNotSameParentDst targetI checkDstIno newName flags =>
      d.localRenameNotSameParentDst targetI checkDstIno newName flags

/-- The handlers, at the time `ts`. -/
def performRpc (ts : Timespec) (d : Directory) : DirOp → Reply × Directory
  | mkdir r => d.rpcMkdir { r with ts := ts }
  | rmdir targetIno targetName => d.rpcRmdirDown targetIno targetName ts
  | create r => d.rpcCreate { r with ts := ts }
  | symlink r => d.rpcSymlink { r with ts := ts }
  | unlink childName => d.rpcUnlink childName ts
  | renameSameParent oldPath newPath flags =>
      d.rpcRenameSameParent oldPath newPath flags
  | renameNotSameParentSrc oldName flags =>
      rpcTaken (d.rpcRenameNotSameParentSrc oldName flags)
  | renameNotSameParentDst targetI checkDstIno newName flags =>
      d.rpcRenameNotSameParentDst targetI checkDstIno newName flags

def perform (here : Bool) (ts : Timespec) (d : Directory) (op : DirOp) :
    Reply × Directory :=
  if here then op.performLocal ts d else op.performRpc ts d

/-- The inode number that a new directory gets. -/
def newDir? : DirOp → Option Uuid
  | mkdir r => some r.newIno
  | _ => none

end DirOp

namespace Directory

open DentryTable

/-- The inode of the directory and the one in its current transaction have the
times `ts`. -/
structure Stamped (d : Directory) (ts : Timespec) : Prop where
  self : d.table.thisDirInode.HasTimes ts
  recorded : ∃ s, (d.journal.getEntry d.dirIno).sInode = some s ∧ s.HasTimes ts

/-- The inode of the directory is `i`, and the current transaction has its
times. -/
structure Leaves (i : Inode) (d : Directory) : Prop where
  self : d.table.thisDirInode = i
  recorded : ∃ s, (d.journal.getEntry d.dirIno).sInode = some s ∧ s.SameTimes i

theorem Leaves.stamped_iff
    {i : Inode} {d : Directory} (h : Leaves i d) (ts : Timespec) :
    d.Stamped ts ↔ i.HasTimes ts := by
  obtain ⟨rfl, s, hs, hsame⟩ := h
  constructor
  · exact Stamped.self
  · intro htimes
    exact ⟨htimes, s, hs, (hsame.hasTimes_iff ts).mpr htimes⟩

section Calls

variable {d : Directory} {t : DentryTable} {op : TxOp} {n : Int}
  {next : Directory → Reply × Directory}

/-- A call that is given the inode of the directory, and returns something. -/
theorem journalCall_leaves
    (hself : op.selfInode? = some t.thisDirInode)
    (hret : ({ d with table := t }.journalCall t.dirIno op next).1 = .ret n) :
    ∃ d', { d with table := t }.journalCall t.dirIno op next = next d' ∧
      Leaves t.thisDirInode d' := by
  rcases journalCall_cases { d with table := t } t.dirIno op next with
    ⟨hdone, heq⟩ | ⟨-, e, heq⟩
  · refine ⟨_, heq, rfl, ?_⟩
    obtain ⟨s, hs, hsame⟩ := TxOp.apply_sameTimes hself hdone
    refine ⟨s, ?_, hsame⟩
    rw [← hs]
    exact congrArg Transaction.sInode (Journal.call_getEntry _ _ _)
  · rw [heq] at hret
    cases hret

/-- The same, where nothing comes after the call. -/
theorem journalCall_leaves_end
    (hself : op.selfInode? = some t.thisDirInode)
    (hret : ({ d with table := t }.journalCall t.dirIno op fun d => (.ret 0, d)).1
      = .ret n) :
    Leaves t.thisDirInode
      ({ d with table := t }.journalCall t.dirIno op fun d => (.ret 0, d)).2 := by
  obtain ⟨d', heq, hleaves⟩ := journalCall_leaves hself hret
  rw [heq]
  exact hleaves

/-- The transaction of another directory is not that of this one. -/
theorem Leaves.called
    {i : Inode} (h : Leaves i d) {ino : Uuid} (hne : ino ≠ d.dirIno) :
    Leaves i (d.called ino op) where
  self := h.self
  recorded := by
    obtain ⟨s, hs, hsame⟩ := h.recorded
    refine ⟨s, ?_, hsame⟩
    rw [← hs]
    exact congrArg Transaction.sInode (Journal.call_getEntry_ne _ _ _ hne.symm)

end Calls

section Operations

variable {d : Directory} {n : Int} {ts : Timespec} {name : Name} {i : Inode}

/-- A directory whose times have been set before the call. -/
theorem Leaves.stamped
    {t : DentryTable} (h : Leaves (t.touch ts).thisDirInode d) : d.Stamped ts :=
  (h.stamped_iff ts).mpr ⟨rfl, rfl⟩

theorem insertReg_stamped
    (hret : (d.insertReg name i ts).1 = .ret n) :
    (d.insertReg name i ts).2.Stamped ts :=
  (journalCall_leaves_end rfl hret).stamped

theorem removeDir_stamped
    {targetIno : Uuid} (hret : (d.removeDir name targetIno ts).1 = .ret n) :
    (d.removeDir name targetIno ts).2.Stamped ts :=
  (journalCall_leaves_end rfl hret).stamped

theorem rpcMkdir_stamped
    {r : Request} (hret : (d.rpcMkdir r).1 = .ret n) :
    (d.rpcMkdir r).2.Stamped r.ts :=
  (journalCall_leaves_end rfl hret).stamped

/-- The transaction of the new directory is not that of its parent. -/
theorem localMkdir_stamped
    {r : Request} (hne : r.newIno ≠ d.dirIno)
    (hret : (d.localMkdir r).1 = .ret n) : (d.localMkdir r).2.Stamped r.ts := by
  obtain ⟨d', heq, hleaves⟩ := journalCall_leaves rfl hret
  have hdir : d'.dirIno = d.dirIno := by
    rw [dirIno, dirIno, DentryTable.dirIno, hleaves.self]
    exact createChildInode_dirIno _ _ _
  have hlocal : d.localMkdir r = d'.journalCall r.newIno
      (.mkself (d.newDirInode d.clientUid d.clientGid r)) fun d => (.ret 0, d) :=
    heq
  rw [hlocal] at hret ⊢
  rw [journalCall_of_ret hret]
  exact (hleaves.called (hdir ▸ hne)).stamped

theorem insertSymlink_leaves
    (hret : (d.insertSymlink name i).1 = .ret 0) :
    Leaves d.table.thisDirInode (d.insertSymlink name i).2 := by
  revert hret
  unfold insertSymlink
  split
  · rintro ⟨⟩
  · intro hret
    exact createChildInode_thisDirInode d.table name i ▸
      journalCall_leaves_end rfl hret

/-- A file that keeps a link: the inode of the directory is not recorded. -/
theorem called_chreg_stamped_iff
    {t : DentryTable} (ht : t.thisDirInode = d.table.thisDirInode) (ino : Uuid) :
    (({ d with table := t } : Directory).called ino (.chreg i)).Stamped ts ↔
      d.Stamped ts := by
  have hdir : t.dirIno = d.dirIno := congrArg (fun i => i.core.ino) ht
  have hsame : ((d.journal.call ino (.chreg i)).2.getEntry t.dirIno).sInode =
      (d.journal.getEntry d.dirIno).sInode := by
    rw [hdir]
    by_cases hne : d.dirIno = ino
    · rw [← hne, Journal.call_getEntry]
      exact TxOp.chreg_sInode i _
    · rw [Journal.call_getEntry_ne _ _ _ hne]
  constructor
  · rintro ⟨hself, hrec⟩
    exact ⟨ht ▸ hself, hsame ▸ hrec⟩
  · rintro ⟨hself, hrec⟩
    exact ⟨ht.symm ▸ hself, hsame.symm ▸ hrec⟩

/-- Without the last link the name goes away, and the directory is stamped.
Otherwise the directory is as before. -/
theorem removeReg_stamped_iff
    (hret : (d.removeReg name ts).1 = .ret n) :
    (d.removeReg name ts).2.Stamped ts ↔
      ∀ i, d.table.childInodes.lookup name = some i →
        i.core.nlink - 1 ≠ 0 → d.Stamped ts := by
  revert hret
  unfold removeReg
  split
  · rintro ⟨⟩
  · rename_i targetI hchild
    dsimp only
    split
    · rename_i hlast
      intro hret
      refine ⟨?_, fun _ => (journalCall_leaves_end rfl hret).stamped⟩
      intro _ i hi hnlink
      rw [hchild] at hi
      cases hi
      exact absurd hlast hnlink
    · rename_i hmore
      intro hret
      rw [journalCall_of_ret hret]
      constructor
      · intro h _ _ _
        exact (called_chreg_stamped_iff (by rfl) _).mp h
      · intro h
        exact (called_chreg_stamped_iff (by rfl) _).mpr (h targetI hchild hmore)

theorem insertTarget_leaves
    (hret : (d.insertTarget name i).1 = .ret n) :
    Leaves d.table.thisDirInode (d.insertTarget name i).2 :=
  createChildInode_thisDirInode d.table name i ▸ journalCall_leaves_end rfl hret

theorem takeTarget_leaves
    {i' : Inode} {d' : Directory} (h : d.takeTarget name i = (.ok i', d')) :
    Leaves d.table.thisDirInode d' := by
  unfold takeTarget at h
  dsimp only at h
  split at h
  · rename_i n d₁ hcall
    cases h
    have hleaves := @journalCall_leaves_end d (d.table.deleteChildInode name).2
      (.rmreg (d.table.deleteChildInode name).2.thisDirInode name i) n rfl
      (congrArg Prod.fst hcall)
    rw [hcall, deleteChildInode_thisDirInode] at hleaves
    exact hleaves
  · cases h

theorem replaceTarget_leaves
    {next : Directory → Reply × Directory}
    (hnext : ∀ d', d'.table.thisDirInode = d.table.thisDirInode →
      (next d').1 = .ret n → Leaves d.table.thisDirInode (next d').2)
    (hret : (d.replaceTarget name next).1 = .ret n) :
    Leaves d.table.thisDirInode (d.replaceTarget name next).2 := by
  revert hret
  unfold replaceTarget
  split
  · rintro ⟨⟩
  · intro hret
    have hcall := journalCall_of_ret hret
    rw [hcall] at hret ⊢
    exact hnext _ (deleteChildInode_thisDirInode _ _) hret

theorem renameDst_leaves
    {checkDstIno : Uuid} (hret : (d.renameDst name i checkDstIno).1 = .ret n) :
    Leaves d.table.thisDirInode (d.renameDst name i checkDstIno).2 := by
  revert hret
  unfold renameDst
  dsimp only
  split
  · exact replaceTarget_leaves
      fun d' hself hret => hself ▸ insertTarget_leaves hret
  · exact insertTarget_leaves

theorem moveName_leaves
    {newName : Name} (hret : (d.moveName name newName i).1 = .ret n) :
    Leaves d.table.thisDirInode (d.moveName name newName i).2 := by
  revert hret
  unfold moveName
  split
  · rename_i i' d' htake
    exact (takeTarget_leaves htake).self ▸ insertTarget_leaves
  · rintro ⟨⟩

theorem moveTarget_leaves
    {newName : Name} (hret : (d.moveTarget name newName i).1 = .ret n) :
    Leaves d.table.thisDirInode (d.moveTarget name newName i).2 := by
  revert hret
  unfold moveTarget
  split
  · exact replaceTarget_leaves
      fun d' hself hret => hself ▸ moveName_leaves hret
  · exact moveName_leaves

end Operations

end Directory

namespace DirTimes

open Directory

/-- One operation, or a turn of the commit thread. -/
inductive Act where
  | perform (here : Bool) (op : DirOp) (ts : Timespec)
  | commit

/-- The operations that succeed.  A new directory does not get the inode number
of its parent. -/
def step : Stepper Directory Act := fun d a =>
  match a with
  | .perform here op ts =>
      if op.newDir? = some d.dirIno then none
      else
        match op.perform here ts d with
        | (.ret 0, d') => some d'
        | _ => none
  | .commit => some d.commitAll

/-- After an operation, the directory has its time. -/
def StampedAfter (d : Directory) : Act → Prop
  | .perform here op ts =>
      ∀ d', step d (.perform here op ts) = some d' → d'.Stamped ts
  | .commit => True

/-- An operation that stamps, or a directory that has the time already. -/
def Stamps (d : Directory) : Act → Prop
  | .perform here op ts =>
      -- a file with further links keeps its name, and only its own inode changes
      match op with
      | .mkdir _ | .rmdir _ _ | .create _ => True
      | .symlink _ | .renameNotSameParentSrc _ _
      | .renameNotSameParentDst _ _ _ _ => d.table.thisDirInode.HasTimes ts
      | .unlink childName => ∀ i, d.table.childInodes.lookup childName = some i →
          i.core.nlink - 1 ≠ 0 → d.Stamped ts
      | .renameSameParent _ _ _ =>
          here = true ∨ d.table.thisDirInode.HasTimes ts
  | .commit => True

variable {d d' : Directory} {ts : Timespec}

theorem localTaken_leaves
    {oldName : Name} {flags : UInt32}
    (h : (localTaken (d.localRenameNotSameParentSrc oldName flags)).1 = .ret 0) :
    Leaves d.table.thisDirInode
      (localTaken (d.localRenameNotSameParentSrc oldName flags)).2 := by
  revert h
  unfold localRenameNotSameParentSrc
  split
  · rintro ⟨⟩
  · rename_i targetI _
    split
    · cases htake : d.takeTarget oldName targetI with
      | mk r x =>
          cases r with
          | error e => rintro ⟨⟩
          | ok i => exact fun _ => takeTarget_leaves htake
    · rintro ⟨⟩

/-- The handler succeeds only where the local function does. -/
theorem rpcTaken_eq
    {oldName : Name} {flags : UInt32}
    (h : (rpcTaken (d.rpcRenameNotSameParentSrc oldName flags)).1 = .ret 0) :
    rpcTaken (d.rpcRenameNotSameParentSrc oldName flags) =
      localTaken (d.localRenameNotSameParentSrc oldName flags) := by
  revert h
  unfold rpcRenameNotSameParentSrc localRenameNotSameParentSrc
  split
  · rintro ⟨⟩
  · split
    · split
      · rename_i htake
        rw [htake]
        exact fun _ => rfl
      · rintro ⟨⟩
    · rintro ⟨⟩

theorem localDst_leaves
    {targetI : Inode} {checkDstIno : Uuid} {newName : Name} {flags : UInt32}
    (h : (d.localRenameNotSameParentDst targetI checkDstIno newName flags).1 =
      .ret 0) :
    Leaves d.table.thisDirInode
      (d.localRenameNotSameParentDst targetI checkDstIno newName flags).2 := by
  revert h
  unfold localRenameNotSameParentDst
  split
  · exact renameDst_leaves
  · rintro ⟨⟩

theorem rpcDst_leaves
    {targetI : Inode} {checkDstIno : Uuid} {newName : Name} {flags : UInt32}
    (h : (d.rpcRenameNotSameParentDst targetI checkDstIno newName flags).1 =
      .ret 0) :
    Leaves d.table.thisDirInode
      (d.rpcRenameNotSameParentDst targetI checkDstIno newName flags).2 := by
  revert h
  unfold rpcRenameNotSameParentDst
  split
  · exact renameDst_leaves
  · rintro ⟨⟩

/-- The local function sets the times before it moves the file. -/
theorem localRename_stamped
    {oldPath newPath : Bytes} {flags : UInt32}
    (h : (d.localRenameSameParent oldPath newPath flags ts).1 = .ret 0) :
    (d.localRenameSameParent oldPath newPath flags ts).2.Stamped ts := by
  revert h
  unfold localRenameSameParent
  split
  · rintro ⟨⟩
  · split
    · split
      · rintro ⟨⟩
      · dsimp only
        split
        · exact fun h => (moveTarget_leaves h).stamped
        · rintro ⟨⟩
    · rintro ⟨⟩
    · rintro ⟨⟩

theorem rpcRename_leaves
    {oldPath newPath : Bytes} {flags : UInt32}
    (h : (d.rpcRenameSameParent oldPath newPath flags).1 = .ret 0) :
    Leaves d.table.thisDirInode
      (d.rpcRenameSameParent oldPath newPath flags).2 := by
  revert h
  unfold rpcRenameSameParent
  split
  · split
    · rintro ⟨⟩
    · split
      · exact moveTarget_leaves
      · rintro ⟨⟩
  · rintro ⟨⟩
  · rintro ⟨⟩

/-- Whether an operation leaves the time of it behind can be told before it. -/
theorem performLocal_stamped_iff
    {op : DirOp} (hnew : op.newDir? ≠ some d.dirIno)
    (hret : (op.performLocal ts d).1 = .ret 0) :
    (op.performLocal ts d).2.Stamped ts ↔ Stamps d (.perform true op ts) := by
  cases op with
  | mkdir r =>
      have hne : r.newIno ≠ d.dirIno := fun h => hnew (congrArg some h)
      exact iff_of_true (@localMkdir_stamped d 0 { r with ts := ts } hne hret) trivial
  | rmdir targetIno targetName =>
      exact iff_of_true (removeDir_stamped hret) trivial
  | create r => exact iff_of_true (insertReg_stamped hret) trivial
  | symlink r => exact (insertSymlink_leaves hret).stamped_iff ts
  | unlink childName => exact removeReg_stamped_iff hret
  | renameSameParent oldPath newPath flags =>
      exact iff_of_true (localRename_stamped hret) (.inl rfl)
  | renameNotSameParentSrc oldName flags =>
      exact (localTaken_leaves hret).stamped_iff ts
  | renameNotSameParentDst targetI checkDstIno newName flags =>
      exact (localDst_leaves hret).stamped_iff ts

theorem performRpc_stamped_iff
    {op : DirOp} (hret : (op.performRpc ts d).1 = .ret 0) :
    (op.performRpc ts d).2.Stamped ts ↔ Stamps d (.perform false op ts) := by
  cases op with
  | mkdir r => exact iff_of_true (@rpcMkdir_stamped d 0 { r with ts := ts } hret) trivial
  | rmdir targetIno targetName =>
      exact iff_of_true (removeDir_stamped hret) trivial
  | create r => exact iff_of_true (insertReg_stamped hret) trivial
  | symlink r => exact (insertSymlink_leaves hret).stamped_iff ts
  | unlink childName => exact removeReg_stamped_iff hret
  | renameSameParent oldPath newPath flags =>
      exact ((rpcRename_leaves hret).stamped_iff ts).trans (by simp [Stamps])
  | renameNotSameParentSrc oldName flags =>
      have hret' : (rpcTaken (d.rpcRenameNotSameParentSrc oldName flags)).1 =
        .ret 0 := hret
      have heq := rpcTaken_eq hret'
      rw [heq] at hret'
      rw [show (DirOp.renameNotSameParentSrc oldName flags).performRpc ts d = _
        from heq]
      exact (localTaken_leaves hret').stamped_iff ts
  | renameNotSameParentDst targetI checkDstIno newName flags =>
      exact (rpcDst_leaves hret).stamped_iff ts

theorem step_perform
    {here : Bool} {op : DirOp} :
    step d (.perform here op ts) = some d' ↔
      op.newDir? ≠ some d.dirIno ∧ op.perform here ts d = (.ret 0, d') := by
  unfold step
  dsimp only
  split
  · rename_i hnew
    simp [hnew]
  · rename_i hnew
    rw [and_iff_right hnew]
    split
    · rename_i x heq
      rw [heq]
      simp
    · rename_i hnot
      constructor
      · rintro ⟨⟩
      · intro heq
        exact absurd heq (hnot d')

/-- The step lemma. -/
theorem step_stamped_iff
    {here : Bool} {op : DirOp} (h : step d (.perform here op ts) = some d') :
    d'.Stamped ts ↔ Stamps d (.perform here op ts) := by
  obtain ⟨hnew, heq⟩ := step_perform.mp h
  cases here with
  | true =>
      have hlocal : op.performLocal ts d = (.ret 0, d') := heq
      have hiff := performLocal_stamped_iff hnew (congrArg Prod.fst hlocal)
      rwa [hlocal] at hiff
  | false =>
      have hrpc : op.performRpc ts d = (.ret 0, d') := heq
      have hiff := performRpc_stamped_iff (congrArg Prod.fst hrpc)
      rwa [hrpc] at hiff

/-- **Every change is stamped and journaled**, in the runs whose operations all
stamp, and in no others. -/
theorem changes_stamped_iff
    {d d' : Directory} {as : List Act} (hrun : step.runFrom d as = some d') :
    step.Steps StampedAfter d as ↔ step.Steps Stamps d as := by
  refine Stepper.Steps.congr ?_ hrun
  intro s a s' hstep
  cases a with
  | commit => exact Iff.rfl
  | perform here op ts =>
      constructor
      · intro h
        exact (step_stamped_iff hstep).mp (h s' hstep)
      · intro h s₁ hs₁
        exact (step_stamped_iff hs₁).mpr h

/-- A file, a turn of the commit thread, and a directory in its place. -/
theorem changes_stamped_mkdir :
    step.Steps StampedAfter emptyRoot
      [.perform true (.create (requestFor inoA)) ⟨1700000002, 0⟩, .commit,
        .perform false (.unlink [97]) ⟨1700000003, 0⟩,
        .perform false (.mkdir (requestFor inoB)) ⟨1700000004, 0⟩] := by
  refine (changes_stamped_iff rfl).mpr ?_
  have hlast : ∀ i, some (emptyRoot.newRegInode (requestFor inoA)) = some i →
      i.core.nlink - 1 = 0 := by
    rintro i ⟨⟩
    rfl
  exact .cons trivial rfl (.cons trivial rfl (.cons
    (fun i hi hmore => absurd (hlast i hi) hmore) rfl (.cons trivial rfl trivial)))

/-- A new symbolic link: the clock is read, and the directory keeps its times. -/
theorem symlink_not_stamped :
    ∃ d', step.runFrom emptyRoot
        [.perform true (.symlink (requestFor inoA)) ⟨1700000002, 0⟩] = some d' ∧
      ¬ d'.Stamped ⟨1700000002, 0⟩ := by
  refine ⟨_, rfl, ?_⟩
  intro h
  exact absurd h.self (by decide)

end DirTimes

end Nmfs
