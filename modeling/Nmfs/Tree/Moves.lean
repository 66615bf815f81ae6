import Nmfs.Tree.DirTimes

/-!
# Operations, journal call by journal call

The commit thread takes the journal's map at any time, so a commit may fall
between two journal calls of one operation.  Here an operation is the list of
its calls, each with the change of the table that comes before it (`DirOp.moves`).
Without a commit in between, the calls are what the operation does
(`perform_eq_moves`).
-/

namespace Nmfs

/-- A journal call, and the change of the table before it.  The directory gets
the time `ts`, if there is one. -/
inductive Move where
  | putReg (name : Name) (i : Inode) (ts : Option Timespec)
  | putDir (name : Name) (i : Inode) (ts : Option Timespec)
  | dropReg (name : Name) (i : Inode) (ts : Option Timespec)
  | dropDir (name : Name) (ino : Uuid) (ts : Option Timespec)
  | setChild (name : Name) (i : Inode)
  | mkself (i : Inode)

namespace DentryTable

def stamp (t : DentryTable) : Option Timespec → DentryTable
  | some ts => t.touch ts
  | none => t

theorem stamp_sameNames (t : DentryTable) (ts : Option Timespec) :
    SameNames t (t.stamp ts) := by
  cases ts with
  | none => exact .refl t
  | some ts => exact .touch t ts

theorem deleteChildInode_touch (t : DentryTable) (name : Name) (ts : Timespec) :
    ((t.touch ts).deleteChildInode name).2 = (t.deleteChildInode name).2.touch ts := by
  unfold deleteChildInode
  rw [touch_childInodes]
  split <;> rfl

end DentryTable

namespace Move

def table (t : DentryTable) : Move → DentryTable
  | putReg name i ts | putDir name i ts => (t.createChildInode name i).2.stamp ts
  | dropReg name _ ts | dropDir name _ ts => (t.deleteChildInode name).2.stamp ts
  | setChild name i => t.setTarget (.child name) i
  | mkself _ => t

/-- The directory whose transaction is called, and the method.  `t` is the table
after the change. -/
def call (t : DentryTable) : Move → Uuid × TxOp
  | putReg name i _ => (t.dirIno, .mkreg t.thisDirInode name i)
  | putDir name i _ => (t.dirIno, .mkdir t.thisDirInode name i.core.ino)
  | dropReg name i _ => (t.dirIno, .rmreg t.thisDirInode name i)
  | dropDir name ino _ => (t.dirIno, .rmdir t.thisDirInode name ino)
  | setChild _ i => (i.pIno, .chreg i)
  | mkself i => (i.core.ino, .mkself i)

def perform (d : Directory) (mv : Move) : Reply × Directory :=
  { d with table := mv.table d.table }.journalCall
    (mv.call (mv.table d.table)).1 (mv.call (mv.table d.table)).2
    fun d => (.ret 0, d)

/-- The calls one after the other, up to the first that throws. -/
def performAll : List Move → Directory → Reply × Directory
  | [], d => (.ret 0, d)
  | mv :: mvs, d =>
      match mv.perform d with
      | (.ret _, d) => performAll mvs d
      | (.throws e, d) => (.throws e, d)

end Move

namespace Directory

/-- The journal calls of a rename inside the directory. -/
def renameMoves (d : Directory) (oldName newName : Name) (targetI : Inode)
    (ts : Option Timespec) : List Move :=
  match d.table.childInodes.lookup newName with
  | some checkDstI =>
      [.dropReg newName checkDstI ts, .dropReg oldName targetI none,
        .putReg newName targetI none]
  | none => [.dropReg oldName targetI ts, .putReg newName targetI none]

/-- The journal calls of a destination half. -/
def renameDstMoves (d : Directory) (newName : Name) (targetI : Inode) : List Move :=
  match d.table.childInodes.lookup newName with
  | some checkDstI =>
      [.dropReg newName checkDstI none,
        .putReg newName (targetI.setPIno d.dirIno) none]
  | none => [.putReg newName (targetI.setPIno d.dirIno) none]

end Directory

namespace DirOp

open Directory Nmfs.Path

/-- The inode of a new directory, at its leader or in the handler. -/
def newDir (here : Bool) (d : Directory) (r : Request) : Inode :=
  if here then d.newDirInode d.clientUid d.clientGid r
  else d.newDirInode r.uid r.gid r

/-- The journal calls of an operation.  Those that are refused make none. -/
def moves (here : Bool) (ts : Timespec) (d : Directory) : DirOp → List Move
  | mkdir r =>
      .putDir r.name (newDir here d r) (some ts) ::
        if here then [.mkself (newDir here d r)] else []
  | rmdir targetIno targetName => [.dropDir targetName targetIno (some ts)]
  | create r => [.putReg r.name (d.newRegInode r) (some ts)]
  | symlink r =>
      if d.table.checkChildInode r.name ≠ .nil then []
      else [.putReg r.name (d.newSymlinkInode r) none]
  | unlink childName =>
      match d.table.childInodes.lookup childName with
      | none => []
      | some targetI =>
          if targetI.core.nlink - 1 = 0 then [.dropReg childName targetI (some ts)]
          else [.setChild childName (targetI.setNlink (targetI.core.nlink - 1))]
  | renameSameParent oldPath newPath _ =>
      match getFilenameFromPath oldPath, getFilenameFromPath newPath with
      | .ok oldName, .ok newName =>
          match d.table.childInodes.lookup oldName with
          | none => []
          | some targetI =>
              d.renameMoves oldName newName targetI (if here then some ts else none)
      | _, _ => []
  | renameNotSameParentSrc oldName _ =>
      match d.table.childInodes.lookup oldName with
      | none => []
      | some targetI => [.dropReg oldName targetI none]
  | renameNotSameParentDst targetI _ newName _ => d.renameDstMoves newName targetI

end DirOp

namespace Move

open Directory DentryTable

variable {d : Directory} {mv : Move} {ino : Uuid} {op : TxOp}
  {next : Directory → Reply × Directory}

/-- What comes after a call, behind a call that has returned. -/
theorem journalCall_next (d : Directory) (ino : Uuid) (op : TxOp)
    (next : Directory → Reply × Directory) :
    d.journalCall ino op next =
      match d.journalCall ino op fun d => (.ret 0, d) with
      | (.ret _, d) => next d
      | (.throws e, d) => (.throws e, d) := by
  rcases journalCall_cases d ino op next with ⟨hdone, heq⟩ | ⟨hne, e, heq⟩
  · rw [heq, journalCall_of_done hdone]
  · rcases journalCall_cases d ino op fun d => (.ret 0, d) with ⟨hdone, -⟩ | ⟨-, e', heq'⟩
    · exact absurd hdone hne
    · -- both have thrown the exception of the call
      cases hcall : (d.journal.call ino op).1 with
      | done => exact absurd hcall hne
      | committed =>
          exact absurd hcall (op.apply_ne_committed (d.journal.getEntry_owner ino).2)
      | throws e'' => rw [journalCall_of_throws hcall, journalCall_of_throws hcall]

theorem performAll_cons (mv : Move) (mvs : List Move) (d : Directory) :
    performAll (mv :: mvs) d =
      { d with table := mv.table d.table }.journalCall
        (mv.call (mv.table d.table)).1 (mv.call (mv.table d.table)).2
        (performAll mvs) :=
  (journalCall_next _ _ _ _).symm

/-- An operation with one call. -/
theorem performAll_singleton (mv : Move) (d : Directory) :
    performAll [mv] d = mv.perform d := performAll_cons mv [] d

end Move

namespace Directory

open DentryTable Move Nmfs.Path

variable {d : Directory} {name oldName newName parent : Name} {i targetI : Inode}
  {here : Bool} {ts : Timespec}

theorem insertTarget_moves (d : Directory) (name : Name) (i : Inode) :
    d.insertTarget name i = performAll [.putReg name i none] d := by
  rw [performAll_singleton]
  rfl

/-- The source half of a rename, and what comes after it. -/
theorem takeTarget_moves
    (d : Directory) (name : Name) (i : Inode) (mvs : List Move) :
    performAll (.dropReg name i none :: mvs) d =
      match d.takeTarget name i with
      | (.ok _, d) => performAll mvs d
      | (.error e, d) => (.throws e, d) := by
  rcases hmove : (Move.dropReg name i none).perform d with ⟨r, d'⟩
  have hcall : ({ d with table := (d.table.deleteChildInode name).2 } :
      Directory).journalCall (d.table.deleteChildInode name).2.dirIno
        (.rmreg (d.table.deleteChildInode name).2.thisDirInode name i)
        (fun d => (.ret 0, d)) = (r, d') := hmove
  rw [performAll, hmove, takeTarget, hcall]
  cases r with
  | ret n => rfl
  | throws e => rfl

theorem moveName_moves (d : Directory) (oldName newName : Name) (i : Inode) :
    d.moveName oldName newName i =
      performAll [.dropReg oldName i none, .putReg newName i none] d := by
  rw [takeTarget_moves, moveName]
  rcases htake : d.takeTarget oldName i with ⟨r, d'⟩
  cases r with
  | error e => rfl
  | ok i' =>
      obtain rfl := takeTarget_ok htake
      exact insertTarget_moves d' newName i'

theorem replaceTarget_moves
    (h : d.table.childInodes.lookup name = some i) (mvs : List Move) :
    d.replaceTarget name (performAll mvs) =
      performAll (.dropReg name i none :: mvs) d := by
  rw [performAll_cons, replaceTarget, getChildInode_ok_iff.mpr h]
  rfl

/-- The times of the directory may be set before the call or with it. -/
theorem performAll_touch
    (d : Directory) (name : Name) (i : Inode) (ts : Timespec) (mvs : List Move) :
    performAll (.dropReg name i none :: mvs)
        { d with table := d.table.touch ts } =
      performAll (.dropReg name i (some ts) :: mvs) d := by
  rw [performAll_cons, performAll_cons]
  dsimp only [Move.table, stamp]
  rw [deleteChildInode_touch]
  rfl

/-- `check_child_inode` finds the new name if it is there. -/
theorem moveTarget_moves
    (hcheck : d.table.checkChildInode newName ≠ .nil ↔
      (d.table.childIno newName).isSome) (targetI : Inode) (ts : Option Timespec) :
    ({ d with table := d.table.stamp ts } : Directory).moveTarget oldName newName
        targetI =
      performAll (d.renameMoves oldName newName targetI ts) d := by
  have hfold : ∀ (name : Name) (i : Inode) (mvs : List Move),
      performAll (.dropReg name i none :: mvs)
          { d with table := d.table.stamp ts } =
        performAll (.dropReg name i ts :: mvs) d := by
    intro name i mvs
    cases ts with
    | none => rfl
    | some ts => exact performAll_touch d name i ts mvs
  have hsame := d.table.stamp_sameNames ts
  have hcheckEq : (d.table.stamp ts).checkChildInode newName =
      d.table.checkChildInode newName := by
    cases ts <;> rfl
  unfold moveTarget renameMoves
  cases hnew : d.table.childInodes.lookup newName with
  | none =>
      have hnone : d.table.childIno newName = none := by
        have hsome := d.table.childInodes_isSome newName
        rw [hnew] at hsome
        simpa using hsome.symm
      rw [if_neg]
      · rw [moveName_moves]
        exact hfold oldName targetI _
      · rw [hcheckEq, hcheck.not, hnone]
        simp
  | some checkDstI =>
      have hsome := d.table.childInodes_isSome newName
      rw [hnew] at hsome
      rw [if_pos]
      · rw [show (fun d : Directory => d.moveName oldName newName targetI) =
            performAll [.dropReg oldName targetI none, .putReg newName targetI none]
            from funext fun d => moveName_moves d oldName newName targetI,
          replaceTarget_moves ((hsame.inode newName).trans hnew)]
        exact hfold newName checkDstI _
      · rw [hcheckEq]
        exact hcheck.mpr hsome.symm

theorem renameDst_moves
    {checkDstIno : Uuid} (hcheck : checkDstIno ≠ .nil ↔ (d.table.childIno newName).isSome)
    (targetI : Inode) :
    d.renameDst newName targetI checkDstIno =
      performAll (d.renameDstMoves newName targetI) d := by
  unfold renameDst renameDstMoves
  have hsome := d.table.childInodes_isSome newName
  cases hnew : d.table.childInodes.lookup newName with
  | none =>
      rw [hnew] at hsome
      rw [if_neg]
      · exact insertTarget_moves d newName _
      · rw [hcheck, ← hsome]
        simp
  | some checkDstI =>
      rw [hnew] at hsome
      rw [if_pos (hcheck.mpr hsome.symm),
        show (fun d' : Directory => d'.insertTarget newName (targetI.setPIno d.dirIno)) =
          performAll [.putReg newName (targetI.setPIno d.dirIno) none]
          from funext fun d' => insertTarget_moves d' newName _,
        replaceTarget_moves hnew]

theorem mkdir_moves (here : Bool) (ts : Timespec) (d : Directory) (r : Request) :
    (DirOp.mkdir r).perform here ts d =
      performAll ((DirOp.mkdir r).moves here ts d) d := by
  cases here with
  | false =>
      exact (performAll_singleton
        (.putDir r.name (d.newDirInode r.uid r.gid r) (some ts)) d).symm
  | true =>
      rw [show (DirOp.mkdir r).moves true ts d =
        [.putDir r.name (d.newDirInode d.clientUid d.clientGid r) (some ts),
          .mkself (d.newDirInode d.clientUid d.clientGid r)] from rfl,
        performAll_cons]
      have hnext : performAll [.mkself (d.newDirInode d.clientUid d.clientGid r)] =
          fun d' => Move.perform d' (.mkself (d.newDirInode d.clientUid d.clientGid r)) :=
        funext fun d' => performAll_singleton _ d'
      rw [hnext]
      rfl

theorem symlink_moves (here : Bool) (ts : Timespec) (d : Directory) (r : Request)
    (hname : d.table.checkChildInode r.name = .nil) :
    (DirOp.symlink r).perform here ts d =
      performAll ((DirOp.symlink r).moves here ts d) d := by
  have hperform : (DirOp.symlink r).perform here ts d =
      d.insertSymlink r.name (d.newSymlinkInode r) := by
    cases here <;> rfl
  rw [hperform, insertSymlink, DirOp.moves, if_neg (by simp [hname]),
    if_neg (by simp [hname]), performAll_singleton]
  rfl

theorem unlink_moves
    (here : Bool) (ts : Timespec) (h : d.table.childInodes.lookup name = some i) :
    (DirOp.unlink name).perform here ts d =
      performAll ((DirOp.unlink name).moves here ts d) d := by
  have hperform : (DirOp.unlink name).perform here ts d = d.removeReg name ts := by
    cases here <;> rfl
  rw [hperform, DirOp.moves, h]
  unfold removeReg
  split
  · rename_i hnone
    rw [h] at hnone
    cases hnone
  · rename_i i' hi'
    rw [h] at hi'
    cases hi'
    dsimp only
    split
    · exact (performAll_singleton (.dropReg name i (some ts)) d).symm
    · rw [performAll_singleton, Move.perform, Move.table, DentryTable.setTarget,
        dif_pos (by rw [h]; rfl)]
      rfl

theorem renameSrc_moves
    (here : Bool) (ts : Timespec) (h : d.table.childInodes.lookup name = some i) :
    (DirOp.renameNotSameParentSrc name 0).perform here ts d =
      performAll ((DirOp.renameNotSameParentSrc name 0).moves here ts d) d := by
  rw [DirOp.moves, h]
  dsimp only
  rw [takeTarget_moves]
  cases here with
  | true =>
      have hlocal : (DirOp.renameNotSameParentSrc name 0).perform true ts d =
          localTaken (d.localRenameNotSameParentSrc name 0) := rfl
      rw [hlocal, localRenameNotSameParentSrc, getChildInode_ok_iff.mpr h]
      dsimp only
      rw [if_pos rfl]
      rcases d.takeTarget name i with ⟨r, d'⟩
      cases r with
      | ok i' => rfl
      | error e => rfl
  | false =>
      have hrpc : (DirOp.renameNotSameParentSrc name 0).perform false ts d =
          rpcTaken (d.rpcRenameNotSameParentSrc name 0) := rfl
      rw [hrpc, rpcRenameNotSameParentSrc, getChildInode_ok_iff.mpr h]
      dsimp only
      rw [if_pos rfl]
      rcases d.takeTarget name i with ⟨r, d'⟩
      cases r with
      | ok i' => rfl
      | error e => rfl

theorem renameSame_moves
    (here : Bool) (ts : Timespec) (hnames : Siblings oldName newName)
    (hcheck : d.table.checkChildInode newName ≠ .nil ↔
      (d.table.childIno newName).isSome)
    (h : d.table.childInodes.lookup oldName = some i) :
    (DirOp.renameSameParent (join parent oldName) (join parent newName) 0).perform
        here ts d =
      performAll ((DirOp.renameSameParent (join parent oldName)
        (join parent newName) 0).moves here ts d) d := by
  rw [DirOp.moves, getFilenameFromPath_join hnames.oldSlash hnames.oldNonempty,
    getFilenameFromPath_join hnames.newSlash hnames.newNonempty]
  dsimp only
  rw [h]
  dsimp only
  rw [← moveTarget_moves hcheck]
  cases here with
  | true =>
      have hlocal : (DirOp.renameSameParent (join parent oldName)
          (join parent newName) 0).perform true ts d =
        d.localRenameSameParent (join parent oldName) (join parent newName) 0 ts := rfl
      rw [hlocal, localRenameSameParent_join hnames, getChildInode_ok_iff.mpr h]
      rfl
  | false =>
      have hrpc : (DirOp.renameSameParent (join parent oldName)
          (join parent newName) 0).perform false ts d =
        d.rpcRenameSameParent (join parent oldName) (join parent newName) 0 := rfl
      rw [hrpc, rpcRenameSameParent_join hnames, getChildInode_ok_iff.mpr h]
      rfl

end Directory

namespace DentryTable

/-- `check_child_inode` finds what is there. -/
theorem checkChildInode_iff
    {t : DentryTable} {name : Name} (hroot : name ≠ rootName)
    (hnil : t.childIno name ≠ some .nil) :
    t.checkChildInode name ≠ .nil ↔ (t.childIno name).isSome := by
  rw [checkChildInode_eq hroot]
  cases h : t.childIno name with
  | none => simp
  | some ino =>
      rw [h] at hnil
      refine iff_of_true ?_ rfl
      intro heq
      exact hnil (congrArg some heq)

end DentryTable

namespace DirOp

open Directory DentryTable Move Nmfs.Path

/-- What the kernel and `fuse_ops` see to: a name that goes away is there, the
two paths of a rename end with names, and the halves of a rename between two
directories are told whether the new name is there. -/
def Fits (d : Directory) : DirOp → Prop
  | mkdir _ | rmdir _ _ | create _ => True
  | symlink r => d.table.checkChildInode r.name = .nil
  | unlink childName => (d.table.childIno childName).isSome
  | renameSameParent oldPath newPath flags =>
      flags = 0 ∧ ∃ parent oldName newName, oldPath = join parent oldName ∧
        newPath = join parent newName ∧ Siblings oldName newName ∧
        (d.table.childIno oldName).isSome
  | renameNotSameParentSrc oldName flags =>
      flags = 0 ∧ (d.table.childIno oldName).isSome
  | renameNotSameParentDst _ checkDstIno newName flags =>
      flags = 0 ∧ (checkDstIno ≠ .nil ↔ (d.table.childIno newName).isSome)

/-- An operation is its journal calls, one after the other. -/
theorem perform_eq_moves
    {op : DirOp} {d : Directory} (h : op.Fits d)
    (hnil : ∀ name, d.table.childIno name ≠ some .nil) (here : Bool) (ts : Timespec) :
    op.perform here ts d = performAll (op.moves here ts d) d := by
  have hlookup : ∀ name, (d.table.childIno name).isSome →
      ∃ i, d.table.childInodes.lookup name = some i := by
    intro name hname
    rw [← d.table.childInodes_isSome] at hname
    exact Option.isSome_iff_exists.mp hname
  cases op with
  | mkdir r => exact mkdir_moves here ts d r
  | rmdir targetIno targetName =>
      have hone := performAll_singleton (.dropDir targetName targetIno (some ts)) d
      cases here <;> exact hone.symm
  | create r =>
      have hone := performAll_singleton
        (.putReg r.name (d.newRegInode r) (some ts)) d
      cases here <;> exact hone.symm
  | symlink r => exact symlink_moves here ts d r h
  | unlink childName =>
      obtain ⟨i, hi⟩ := hlookup childName h
      exact unlink_moves here ts hi
  | renameSameParent oldPath newPath flags =>
      obtain ⟨rfl, parent, oldName, newName, rfl, rfl, hnames, hold⟩ := h
      obtain ⟨i, hi⟩ := hlookup oldName hold
      have hroot : newName ≠ rootName := by
        rintro rfl
        exact hnames.newSlash List.mem_cons_self
      exact renameSame_moves here ts hnames
        (checkChildInode_iff hroot (hnil newName)) hi
  | renameNotSameParentSrc oldName flags =>
      obtain ⟨rfl, hold⟩ := h
      obtain ⟨i, hi⟩ := hlookup oldName hold
      exact renameSrc_moves here ts hi
  | renameNotSameParentDst targetI checkDstIno newName flags =>
      obtain ⟨rfl, hcheck⟩ := h
      rw [DirOp.moves, ← renameDst_moves hcheck]
      cases here <;> rfl

end DirOp

end Nmfs
