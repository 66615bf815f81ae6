import Nmfs.Local.SameParent
import Nmfs.Rpc.CrossRename

/-!
# Changes of the namespace, here and at the leader

`create`, `mkdir`, `symlink`, `unlink` and a rename inside one directory have a
local function each, and for another client a stub and a handler.

* Only the request of `mkdir` carries the user of the client.
* An exception of a handler gets to the client as `-ENEEDRECOV`, so a missing
  entry is not reported as one.
* A rename sets the times of the directory only in the local function.
-/

namespace Nmfs

/-- An operation on a directory, with its arguments.  Both paths of a rename
have the parent `parent`. -/
inductive NsOp where
  | create (r : Request)
  | mkdir (r : Request)
  | symlink (r : Request)
  | unlink (name : Name)
  | rename (parent : Bytes) (oldName newName : Name) (flags : UInt32)

namespace NsOp

open Directory DentryTable Nmfs.Path

/-- The `catch` clauses of `fuse_ops`. -/
def caught (op : NsOp) (r : Reply) : Directory.Result :=
  match r with
  | .ret n => .ret n
  | .throws e =>
      match op with
      | .rename _ _ _ _ => catchRename e
      | .create _ | .mkdir _ | .symlink _ | .unlink _ => catchRmdir e

/-- What the stub and its caller make of the answer of a handler. -/
def answered : Reply → Reply
  | .ret n => .ret n
  | .throws _ => .throws needRecovery

/-- The leader, with the user of the client. -/
def asClient (d : Directory) (c : Client) : Directory :=
  { d with clientUid := c.uid, clientGid := c.gid }

/-- The local function.  `ts` is the reading of the clock. -/
def perform (op : NsOp) (ts : Timespec) (d : Directory) : Reply × Directory :=
  match op with
  | .create r => d.localCreate r
  | .mkdir r => d.localMkdir r
  | .symlink r => d.localSymlink r
  | .unlink name => d.localUnlink name ts
  | .rename parent oldName newName flags =>
      d.localRenameSameParent (join parent oldName) (join parent newName) flags ts

/-- The handler; the request of `mkdir` has the user of the client. -/
def handle (op : NsOp) (ts : Timespec) (d : Directory) (c : Client) :
    Reply × Directory :=
  match op with
  | .create r => d.rpcCreate r
  | .mkdir r => d.rpcMkdir { r with uid := c.uid, gid := c.gid }
  | .symlink r => d.rpcSymlink r
  | .unlink name => d.rpcUnlink name ts
  | .rename parent oldName newName flags =>
      d.rpcRenameSameParent (join parent oldName) (join parent newName) flags

/-- The inode that the stub of `mkdir` makes; its `p_ino` has not been set. -/
def stubDirInode (c : Client) (r : Request) : Inode :=
  (Inode.new .nil c.uid c.gid (r.mode ||| sIFDIR) r.newIno r.born).setSize
    dirInodeSize

/-- What the stub does with a good answer: that of `mkdir` records the new
directory in the journal of the client. -/
def finish (op : NsOp) (c : Client) : Client :=
  match op with
  | .mkdir r => { c with
      journal := (c.journal.call r.newIno (.mkself (stubDirInode c r))).2 }
  | .create _ | .symlink _ | .unlink _ | .rename _ _ _ _ => c

/-- The operation at the leader, for the user of the client. -/
def atLeader (op : NsOp) (ts : Timespec) (d : Directory) (c : Client) :
    Directory.Result × Directory :=
  let x := op.perform ts (asClient d c)
  (op.caught x.1, x.2)

/-- The operation at the client. -/
def elsewhere (op : NsOp) (ts : Timespec) (d : Directory) (c : Client) :
    Directory.Result × Directory × Client :=
  let x := op.handle ts d c
  (op.caught (answered x.1), x.2, if x.1 = .ret 0 then op.finish c else c)

/-- The directory whose own transaction a new directory gets. -/
def newDir? : NsOp → Option Uuid
  | .mkdir r => some r.newIno
  | .create _ | .symlink _ | .unlink _ | .rename _ _ _ _ => none

/-- The same answer, the same table, and the same entries of the journals. -/
structure SameResult (op : NsOp) (d : Directory)
    (x : Directory.Result × Directory × Client)
    (y : Directory.Result × Directory) : Prop where
  result : x.1 = y.1
  table : x.2.1.table = y.2.table
  entries : ∀ ino, op.newDir? ≠ some ino →
    x.2.1.journal.getEntry ino = y.2.journal.getEntry ino
  newDir : ∀ ino, op.newDir? = some ino →
    x.2.2.journal.getEntry ino = y.2.journal.getEntry ino

/-- The two do the same, with the same readings of the clock. -/
def SameElsewhere (op : NsOp) (d : Directory) (c : Client) : Prop :=
  ∀ ts, op.SameResult d (op.elsewhere ts d c) (op.atLeader ts d c)

/-- The names are file names, and a new inode number is one. -/
def WellFormed (op : NsOp) (d : Directory) (c : Client) : Prop :=
  match op with
  | .create r | .symlink r =>
      (d.journal.getEntry d.dirIno).fInodes.lookup r.newIno = none
  | .mkdir r => r.newIno ≠ d.dirIno ∧
      d.journal.getEntry r.newIno = .new r.newIno ∧
      c.journal.getEntry r.newIno = .new r.newIno
  | .unlink _ => True
  | .rename _ oldName newName _ => Siblings oldName newName

/-- The client has the user of the leader. -/
def SameUser (d : Directory) (c : Client) : Prop :=
  c.uid = d.clientUid ∧ c.gid = d.clientGid

/-- The current transaction has not added the name. -/
def Unadded (d : Directory) (name : Name) : Prop :=
  ∀ ino, d.word name ≠ some (true, ino)

/-- The requests that the handlers serve as the local functions do. -/
def Served (op : NsOp) (d : Directory) (c : Client) : Prop :=
  match op with
  | .create r => SameUser d c ∧ Unadded d r.name
  | .mkdir r => Unadded d r.name
  | .symlink r => d.table.checkChildInode r.name ≠ .nil ∨
      SameUser d c ∧ Unadded d r.name
  | .unlink name => ∃ i, d.table.childInodes.lookup name = some i ∧
      (i.core.nlink - 1 = 0 →
        d.Takes (.rmreg d.table.thisDirInode name i))
  | .rename _ _ _ _ => False

end NsOp

namespace TxOp

/-- The methods throw nothing else. -/
theorem apply_throws
    {op : TxOp} {tx : Transaction} {e : Exn} (h : (op.apply tx).1 = .throws e) :
    ∃ what, e = .logicError what := by
  revert h
  cases op <;>
    simp only [apply, Transaction.mkself, Transaction.rmself, Transaction.chself,
      Transaction.mkdir, Transaction.rmdir, Transaction.mvdir, Transaction.mkreg,
      Transaction.rmreg, Transaction.mvreg, Transaction.chreg] <;>
    repeat' split
  all_goals
    intro h
    cases h
  all_goals exact ⟨_, rfl⟩

/-- Whether a file can be added does not depend on the directory's inode. -/
theorem mkreg_done_iff
    {tx : Transaction} (hopen : tx.committed = false) (s : Inode) (name : Name)
    {f : Inode} (hnew : tx.fInodes.lookup f.core.ino = none) :
    ((TxOp.mkreg s name f).apply tx).1 = .done ↔ tx.hasDentry name true = false := by
  cases hhas : tx.hasDentry name true with
  | true => simp [apply, Transaction.mkreg, hopen, hhas]
  | false => simp [apply, Transaction.mkreg, hopen, hhas, hnew]

theorem mkreg_recorded
    {tx : Transaction} {s : Inode} {name : Name} {f : Inode}
    (h : ((TxOp.mkreg s name f).apply tx).1 = .done) :
    ((TxOp.mkreg s name f).apply tx).2.fInodes.lookup f.core.ino =
      some (some f.copy) := by
  revert h
  simp only [apply, Transaction.mkreg]
  repeat' split
  · rintro ⟨⟩
  · rintro ⟨⟩
  · rintro ⟨⟩
  · intro _
    exact Transaction.setFInode_lookup _ _ _

theorem rmreg_fst_congr
    (tx : Transaction) (s s' : Inode) (name : Name) (f : Inode) :
    ((TxOp.rmreg s name f).apply tx).1 = ((TxOp.rmreg s' name f).apply tx).1 := by
  simp only [apply, Transaction.rmreg]
  repeat' split
  all_goals rfl

theorem mkdir_done_iff
    {tx : Transaction} (hopen : tx.committed = false) (s : Inode) (name : Name)
    (ino : Uuid) :
    ((TxOp.mkdir s name ino).apply tx).1 = .done ↔
      tx.hasDentry name true = false := by
  cases hhas : tx.hasDentry name true <;>
    simp [apply, Transaction.mkdir, hopen, hhas]

end TxOp

namespace Directory

/-- A call of the journal is done, or it throws a `logic_error`. -/
theorem journalCall_logic
    (d : Directory) (ino : Uuid) (op : TxOp)
    (next : Directory → Reply × Directory) :
    (d.journal.call ino op).1 = .done ∧
        d.journalCall ino op next = next (d.called ino op) ∨
      (d.journal.call ino op).1 ≠ .done ∧ ∃ what,
        d.journalCall ino op next = (.throws (.logicError what), d.called ino op) := by
  cases h : (d.journal.call ino op).1 with
  | done => exact .inl ⟨rfl, journalCall_of_done h⟩
  | throws e =>
      obtain ⟨what, rfl⟩ := TxOp.apply_throws h
      exact .inr ⟨by simp, what, journalCall_of_throws h⟩
  | committed =>
      exact absurd h (op.apply_ne_committed (d.journal.getEntry_owner ino).2)

end Directory

namespace NsOp

open Directory DentryTable Nmfs.Path

variable {d : Directory} {c : Client}

theorem hasDentry_eq_false_iff (name : Name) :
    (d.journal.getEntry d.dirIno).hasDentry name true = false ↔ Unadded d name := by
  rw [← Bool.not_eq_true, TxOp.hasDentry_eq_true_iff, not_exists]
  rfl

section Cases

variable (d) (name : Name) (i : Inode) (ts : Timespec)

/-- The table after an insertion. -/
def inserted : DentryTable := (d.table.createChildInode name i).2

/-- The directory with a new file `i` in the table `t`. -/
def added (d : Directory) (t : DentryTable) (name : Name) (i : Inode) : Directory :=
  ({ d with table := t } : Directory).called d.dirIno (.mkreg t.thisDirInode name i)

/-- What becomes of a request for a new file. -/
def Adds (d : Directory) (name : Name) (t : DentryTable) (i : Inode)
    (x : Reply × Directory) : Prop :=
  Unadded d name ∧ x = (.ret 0, added d t name i) ∨
    ¬ Unadded d name ∧ ∃ what, x = (.throws (.logicError what), added d t name i)

variable {d name}

/-- The call that adds a name is done unless the transaction has added it. -/
theorem addCall_cases
    {t : DentryTable} (hdir : t.dirIno = d.dirIno) {op : TxOp}
    (hop : (op.apply (d.journal.getEntry d.dirIno)).1 = .done ↔ Unadded d name)
    (next : Directory → Reply × Directory) :
    let d' := ({ d with table := t } : Directory).called d.dirIno op
    Unadded d name ∧
        ({ d with table := t } : Directory).journalCall t.dirIno op next = next d' ∨
      ¬ Unadded d name ∧ ∃ what,
        ({ d with table := t } : Directory).journalCall t.dirIno op next =
          (.throws (.logicError what), d') := by
  rw [hdir]
  rcases journalCall_logic { d with table := t } d.dirIno op next with
    ⟨hdone, hcall⟩ | ⟨hnot, what, hcall⟩
  · exact .inl ⟨hop.mp hdone, hcall⟩
  · exact .inr ⟨fun h => hnot (hop.mpr h), what, hcall⟩

theorem mkreg_done_iff_unadded
    (s : Inode) {f : Inode}
    (hnew : (d.journal.getEntry d.dirIno).fInodes.lookup f.core.ino = none) :
    ((TxOp.mkreg s name f).apply (d.journal.getEntry d.dirIno)).1 = .done ↔
      Unadded d name := by
  rw [TxOp.mkreg_done_iff (d.journal.getEntry_owner d.dirIno).2 s name hnew,
    hasDentry_eq_false_iff]

/-- A new file is recorded in the entry of its directory. -/
theorem called_mkreg_recorded
    {t : DentryTable} (s : Inode) {f : Inode} (hun : Unadded d name)
    (hnew : (d.journal.getEntry d.dirIno).fInodes.lookup f.core.ino = none) :
    ((({ d with table := t } : Directory).called d.dirIno
      (.mkreg s name f)).journal.getEntry d.dirIno).fInodes.lookup f.core.ino =
        some (some f.copy) := by
  rw [called, Journal.call_getEntry]
  exact TxOp.mkreg_recorded ((mkreg_done_iff_unadded s hnew).mpr hun)

theorem insertReg_adds
    (hnew : (d.journal.getEntry d.dirIno).fInodes.lookup i.core.ino = none) :
    Adds d name ((inserted d name i).touch ts) i (d.insertReg name i ts) :=
  @addCall_cases d name ((inserted d name i).touch ts)
    (createChildInode_dirIno _ _ _)
    (.mkreg ((inserted d name i).touch ts).thisDirInode name i)
    (mkreg_done_iff_unadded _ hnew) fun d => (.ret 0, d)

theorem insertSymlink_adds
    (hnew : (d.journal.getEntry d.dirIno).fInodes.lookup i.core.ino = none)
    (habsent : d.table.checkChildInode name = .nil) :
    Adds d name (inserted d name i) i (d.insertSymlink name i) := by
  simp only [insertSymlink, habsent, ne_eq, not_true_eq_false, if_false]
  exact @addCall_cases d name (inserted d name i) (createChildInode_dirIno _ _ _)
    (.mkreg (inserted d name i).thisDirInode name i)
    (mkreg_done_iff_unadded _ hnew) fun d => (.ret 0, d)

theorem insertDir_cases (next : Directory → Reply × Directory) :
    let t := (inserted d name i).touch ts
    let d' := { d with table := t }.called d.dirIno
      (.mkdir t.thisDirInode name i.core.ino)
    Unadded d name ∧ d.insertDir name i ts next = next d' ∨
      ¬ Unadded d name ∧
        ∃ what, d.insertDir name i ts next = (.throws (.logicError what), d') := by
  refine @addCall_cases d name ((inserted d name i).touch ts)
    (createChildInode_dirIno _ _ _)
    (.mkdir ((inserted d name i).touch ts).thisDirInode name i.core.ino) ?_ next
  rw [TxOp.mkdir_done_iff (d.journal.getEntry_owner d.dirIno).2,
    hasDentry_eq_false_iff]

end Cases

theorem asClient_of_sameUser (h : SameUser d c) : asClient d c = d := by
  rw [asClient, h.1, h.2]

/-- Nothing else distinguishes a client that has the user of the leader. -/
theorem sameResult_of_eq
    {op : NsOp} {ts : Timespec} {n : Int} {d₁ : Directory} {d₂ : Directory}
    (hhandle : op.handle ts d c = (.ret n, d₁))
    (hperform : op.perform ts (asClient d c) = (.ret n, d₂))
    (htable : d₁.table = d₂.table) (hjournal : d₁.journal = d₂.journal)
    (hnew : op.newDir? = none) :
    op.SameResult d (op.elsewhere ts d c) (op.atLeader ts d c) := by
  simp only [elsewhere, atLeader, hhandle, hperform]
  refine ⟨rfl, htable, ?_, ?_⟩
  · intro ino _
    rw [hjournal]
  · intro ino hino
    rw [hnew] at hino
    cases hino

/-- The exceptions of the two sides are not the same. -/
theorem not_sameResult_of_throws
    {op : NsOp} {ts : Timespec} {e : Exn} {what : String} {d₁ d₂ : Directory}
    (hop : ∀ e, op.caught (.throws e) = catchRmdir e)
    (hhandle : op.handle ts d c = (.throws e, d₁))
    (hperform : op.perform ts (asClient d c) = (.throws (.logicError what), d₂)) :
    ¬ op.SameResult d (op.elsewhere ts d c) (op.atLeader ts d c) := by
  intro h
  have hresult := h.result
  simp only [elsewhere, atLeader, hhandle, hperform, answered, hop, catchRmdir,
    needRecovery] at hresult
  cases hresult

/-- A request for a new file, at both sides. -/
theorem sameElsewhere_file_iff
    {op : NsOp} {name : Name} (i i' : Inode) (t t' : DentryTable)
    (hcaught : ∀ e, op.caught (.throws e) = catchRmdir e)
    (hnewDir : op.newDir? = none)
    (hnew : (d.journal.getEntry d.dirIno).fInodes.lookup i.core.ino = none)
    (hino : i'.core.ino = i.core.ino)
    (hhandle : ∀ ts, Adds d name t i (op.handle ts d c))
    (hperform : ∀ ts,
      Adds (asClient d c) name t' i' (op.perform ts (asClient d c)))
    (huser : i.copy = i'.copy → SameUser d c)
    (hsame : ∀ ts, op.handle ts d c = op.perform ts d) :
    op.SameElsewhere d c ↔ SameUser d c ∧ Unadded d name := by
  constructor
  · intro h
    have hts := h ⟨0, 0⟩
    rcases hhandle ⟨0, 0⟩ with ⟨hun, hret⟩ | ⟨hnot, what, hthrows⟩
    · refine ⟨?_, hun⟩
      rcases hperform ⟨0, 0⟩ with ⟨-, hret'⟩ | ⟨hnot, -⟩
      · -- the two inodes are recorded in the entry of the directory
        have hentry := hts.entries d.dirIno (by simp [hnewDir])
        simp only [elsewhere, atLeader, hret, hret'] at hentry
        have hcopy := @called_mkreg_recorded d name t t.thisDirInode i hun hnew
        have hcopy' := @called_mkreg_recorded (asClient d c) name t' t'.thisDirInode
          i' hun (hino ▸ hnew)
        rw [hino] at hcopy'
        have hboth := (congrArg (·.fInodes.lookup i.core.ino) hentry).symm.trans hcopy
        exact huser (Option.some.inj (Option.some.inj (hboth.symm.trans hcopy')))
      · exact absurd hun hnot
    · rcases hperform ⟨0, 0⟩ with ⟨hun, -⟩ | ⟨-, what', hthrows'⟩
      · exact absurd hun hnot
      · exact absurd hts (not_sameResult_of_throws hcaught hthrows hthrows')
  · rintro ⟨hsu, hun⟩ ts
    rcases hhandle ts with ⟨-, hret⟩ | ⟨hnot, -⟩
    · have hret' : op.perform ts (asClient d c) = (.ret 0, added d t name i) := by
        rw [asClient_of_sameUser hsu, ← hsame, hret]
      exact sameResult_of_eq hret hret' rfl rfl hnewDir
    · exact absurd hun hnot

theorem sameElsewhere_create_iff
    (r : Request)
    (hnew : (d.journal.getEntry d.dirIno).fInodes.lookup r.newIno = none) :
    (NsOp.create r).SameElsewhere d c ↔ SameUser d c ∧ Unadded d r.name := by
  refine sameElsewhere_file_iff (d.newRegInode r) ((asClient d c).newRegInode r)
    ((inserted d r.name (d.newRegInode r)).touch r.ts)
    ((inserted d r.name ((asClient d c).newRegInode r)).touch r.ts)
    (fun _ => rfl) rfl hnew rfl ?_ ?_ ?_ fun _ => rfl
  · intro _
    exact insertReg_adds (d.newRegInode r) r.ts hnew
  · intro _
    exact @insertReg_adds (asClient d c) r.name ((asClient d c).newRegInode r) r.ts
      hnew
  · intro hcopy
    exact ⟨(congrArg (·.core.uid) hcopy).symm, (congrArg (·.core.gid) hcopy).symm⟩

theorem sameElsewhere_symlink_iff
    (r : Request)
    (hnew : (d.journal.getEntry d.dirIno).fInodes.lookup r.newIno = none) :
    (NsOp.symlink r).SameElsewhere d c ↔
      d.table.checkChildInode r.name ≠ .nil ∨
        SameUser d c ∧ Unadded d r.name := by
  by_cases hname : d.table.checkChildInode r.name = .nil
  · simp only [hname, ne_eq, not_true_eq_false, false_or]
    refine sameElsewhere_file_iff (d.newSymlinkInode r)
      ((asClient d c).newSymlinkInode r) (inserted d r.name (d.newSymlinkInode r))
      (inserted d r.name ((asClient d c).newSymlinkInode r))
      (fun _ => rfl) rfl hnew rfl ?_ ?_ ?_ fun _ => rfl
    · intro _
      exact insertSymlink_adds (d.newSymlinkInode r) hnew hname
    · intro _
      exact @insertSymlink_adds (asClient d c) r.name
        ((asClient d c).newSymlinkInode r) hnew hname
    · intro hcopy
      exact ⟨(congrArg (·.core.uid) hcopy).symm,
        (congrArg (·.core.gid) hcopy).symm⟩
  · refine iff_of_true ?_ (.inl hname)
    intro ts
    have hexists : ∀ d' : Directory, d'.table = d.table → ∀ i,
        d'.insertSymlink r.name i = (.ret (-EEXIST), d') := by
      intro d' htable i
      rw [insertSymlink, htable, if_pos hname]
    exact sameResult_of_eq (hexists d rfl _) (hexists (asClient d c) rfl _) rfl rfl
      rfl

/-- The client records the new directory as the leader does. -/
theorem mkself_stubDirInode (r : Request) (tx : Transaction) :
    ((TxOp.mkself (stubDirInode c r)).apply tx).2 =
      ((TxOp.mkself (d.newDirInode c.uid c.gid r)).apply tx).2 := rfl

theorem sameElsewhere_mkdir_iff
    (r : Request) (hne : r.newIno ≠ d.dirIno)
    (hleader : d.journal.getEntry r.newIno = .new r.newIno)
    (hclient : c.journal.getEntry r.newIno = .new r.newIno) :
    (NsOp.mkdir r).SameElsewhere d c ↔ Unadded d r.name := by
  let i := d.newDirInode c.uid c.gid r
  let d₁ := ({ d with table := (inserted d r.name i).touch r.ts } : Directory).called
    d.dirIno (.mkdir ((inserted d r.name i).touch r.ts).thisDirInode r.name r.newIno)
  have hmkself : ∀ d : Directory,
      d.journalCall r.newIno (.mkself i) (fun d => (.ret 0, d)) =
        (.ret 0, d.called r.newIno (.mkself i)) := fun d =>
    journalCall_of_done (Journal.call_keeps_done (.mkself i))
  have hhandle : Unadded d r.name ∧
        (NsOp.mkdir r).handle r.ts d c = (.ret 0, d₁) ∨
      ¬ Unadded d r.name ∧ ∃ what,
        (NsOp.mkdir r).handle r.ts d c = (.throws (.logicError what), d₁) :=
    insertDir_cases i r.ts fun d => (.ret 0, d)
  have hperform := @insertDir_cases (asClient d c) r.name i r.ts fun d =>
    d.journalCall r.newIno (.mkself i) fun d => (.ret 0, d)
  constructor
  · intro h
    rcases hhandle with ⟨hun, -⟩ | ⟨-, what, hthrows⟩
    · exact hun
    · rcases hperform with ⟨hun, -⟩ | ⟨-, what', hthrows'⟩
      · exact hun
      · exact absurd (h r.ts)
          (not_sameResult_of_throws (fun _ => rfl) hthrows hthrows')
  · intro hun ts
    rcases hhandle with ⟨-, hret⟩ | ⟨hnot, -⟩
    · rcases hperform with ⟨-, hret'⟩ | ⟨hnot, -⟩
      · have hx : (NsOp.mkdir r).elsewhere ts d c =
            (.ret 0, d₁, (NsOp.mkdir r).finish c) := by
          have hts : (NsOp.mkdir r).handle ts d c = (.ret 0, d₁) := hret
          simp only [elsewhere, hts, if_true]
          rfl
        have hy : (NsOp.mkdir r).atLeader ts d c =
            (.ret 0, (asClient d₁ c).called r.newIno (.mkself i)) := by
          have hts : (NsOp.mkdir r).perform ts (asClient d c) =
              (.ret 0, (asClient d₁ c).called r.newIno (.mkself i)) :=
            hret'.trans (hmkself _)
          simp only [atLeader, hts]
          rfl
        rw [hx, hy]
        refine ⟨rfl, rfl, ?_, ?_⟩
        · intro ino hino
          have hino' : ino ≠ r.newIno := fun heq => hino (by rw [heq]; rfl)
          exact (Journal.call_getEntry_ne _ _ _ hino').symm
        · rintro ino ⟨⟩
          have hold : d₁.journal.getEntry r.newIno = .new r.newIno :=
            (Journal.call_getEntry_ne _ _ _ hne).trans hleader
          calc (c.journal.call r.newIno (.mkself (stubDirInode c r))).2.getEntry
                r.newIno
              = ((TxOp.mkself i).apply (.new r.newIno)).2 := by
                rw [Journal.call_getEntry, hclient, mkself_stubDirInode]
            _ = (d₁.journal.call r.newIno (.mkself i)).2.getEntry r.newIno := by
                rw [Journal.call_getEntry, hold]
      · exact absurd hun hnot
    · exact absurd hun hnot

section Removal

theorem journalCall_asClient
    (d : Directory) (c : Client) (ino : Uuid) (op : TxOp)
    (next : Directory → Reply × Directory)
    (hnext : ∀ d, next (asClient d c) = ((next d).1, asClient (next d).2 c)) :
    (asClient d c).journalCall ino op next =
      ((d.journalCall ino op next).1, asClient (d.journalCall ino op next).2 c) := by
  rcases journalCall_cases d ino op next with ⟨hdone, hcall⟩ | ⟨hnot, e, hcall⟩
  · rw [hcall, ← hnext]
    exact journalCall_of_done hdone
  · rw [hcall]
    cases hthrows : (d.journal.call ino op).1 with
    | done => exact absurd hthrows hnot
    | committed =>
        exact absurd hthrows (op.apply_ne_committed (d.journal.getEntry_owner ino).2)
    | throws e' =>
        rw [journalCall_of_throws hthrows] at hcall
        cases hcall
        exact journalCall_of_throws hthrows

/-- The user of the leader plays no part in a removal. -/
theorem removeReg_asClient
    (d : Directory) (c : Client) (name : Name) (ts : Timespec) :
    (asClient d c).removeReg name ts =
      ((d.removeReg name ts).1, asClient (d.removeReg name ts).2 c) := by
  unfold removeReg
  split
  · rename_i h
    have h' : d.table.childInodes.lookup name = none := h
    split
    · rfl
    · rename_i i hi
      rw [h'] at hi
      cases hi
  · rename_i i h
    have h' : d.table.childInodes.lookup name = some i := h
    split
    · rename_i hnone
      rw [h'] at hnone
      cases hnone
    · rename_i j hj
      rw [h'] at hj
      cases hj
      dsimp only
      split
      · exact journalCall_asClient { d with
          table := (d.table.deleteChildInode name).2.touch ts } c _ _
          (fun d => (.ret 0, d)) fun _ => rfl
      · exact journalCall_asClient { d with
          table := d.table.setChild name
            (i.setNlink (i.core.nlink - 1)) (by simp [h']) } c _ _
          (fun d => (.ret 0, d)) fun _ => rfl

/-- A removal returns something if and only if the file is there, and the journal
takes the call. -/
theorem removeReg_returns_iff (name : Name) (ts : Timespec) :
    (∃ n, (d.removeReg name ts).1 = .ret n) ↔
      ∃ i, d.table.childInodes.lookup name = some i ∧
        (i.core.nlink - 1 = 0 →
          d.Takes (.rmreg d.table.thisDirInode name i)) := by
  unfold removeReg
  split
  · rename_i h
    simp [h]
  · rename_i i h
    simp only [h, Option.some.injEq, exists_eq_left']
    split
    · rename_i hlast
      let t := (d.table.deleteChildInode name).2.touch ts
      have hdir : t.dirIno = d.dirIno := deleteChildInode_dirIno _ _
      have htakes : (d.journal.call t.dirIno (.rmreg t.thisDirInode name i)).1 =
          (d.journal.call d.dirIno (.rmreg d.table.thisDirInode name i)).1 := by
        rw [hdir]
        exact TxOp.rmreg_fst_congr _ _ _ _ _
      rcases journalCall_cases { d with table := t } t.dirIno
        (.rmreg t.thisDirInode name i) fun d => (.ret 0, d) with
        ⟨hdone, hcall⟩ | ⟨hnot, e, hcall⟩
      · refine iff_of_true ⟨0, congrArg Prod.fst hcall⟩ ?_
        intro _
        exact htakes.symm.trans hdone
      · refine iff_of_false ?_ ?_
        · rintro ⟨n, hn⟩
          cases (congrArg Prod.fst hcall).symm.trans hn
        · intro htake
          exact hnot (htakes.trans (htake hlast))
    · rename_i hmore
      refine iff_of_true ⟨0, ?_⟩ fun hlast => absurd hlast hmore
      exact congrArg Prod.fst
        (journalCall_of_done (Journal.call_keeps_done (.chreg _)))

theorem removeReg_throws
    {name : Name} {ts : Timespec} {e : Exn}
    (h : (d.removeReg name ts).1 = .throws e) :
    (∃ what, e = .noEntry what) ∨ ∃ what, e = .logicError what := by
  have hcall : ∀ (d : Directory) (ino : Uuid) (op : TxOp),
      (d.journalCall ino op fun d => (.ret 0, d)).1 = .throws e →
        ∃ what, e = .logicError what := by
    intro d ino op he
    rcases journalCall_logic d ino op fun d => (.ret 0, d) with
      ⟨-, heq⟩ | ⟨-, what, heq⟩
    · rw [heq] at he
      cases he
    · rw [heq] at he
      cases he
      exact ⟨what, rfl⟩
  revert h
  unfold removeReg
  split
  · rintro ⟨⟩
    exact .inl ⟨_, rfl⟩
  · dsimp only
    split
    · intro h
      exact .inr (hcall _ _ _ h)
    · intro h
      exact .inr (hcall _ _ _ h)

theorem sameElsewhere_unlink_iff (name : Name) :
    (NsOp.unlink name).SameElsewhere d c ↔
      ∃ i, d.table.childInodes.lookup name = some i ∧
        (i.core.nlink - 1 = 0 →
          d.Takes (.rmreg d.table.thisDirInode name i)) := by
  constructor
  · intro h
    refine (removeReg_returns_iff name ⟨0, 0⟩).mp ?_
    have hresult := (h ⟨0, 0⟩).result
    have hasClient := congrArg Prod.fst (removeReg_asClient d c name ⟨0, 0⟩)
    cases hx : (d.removeReg name ⟨0, 0⟩).1 with
    | ret n => exact ⟨n, rfl⟩
    | throws e =>
        exfalso
        have hhandle : (NsOp.unlink name).handle ⟨0, 0⟩ d c =
            (.throws e, (d.removeReg name ⟨0, 0⟩).2) := Prod.ext hx rfl
        have hperform : (NsOp.unlink name).perform ⟨0, 0⟩ (asClient d c) =
            (.throws e, ((asClient d c).removeReg name ⟨0, 0⟩).2) :=
          Prod.ext (hasClient.trans hx) rfl
        simp only [elsewhere, atLeader, hhandle, hperform, answered, caught,
          needRecovery] at hresult
        rcases removeReg_throws hx with ⟨what, rfl⟩ | ⟨what, rfl⟩
        · cases hresult
        · cases hresult
  · intro h ts
    obtain ⟨n, hn⟩ := (removeReg_returns_iff name ts).mpr h
    have hhandle : (NsOp.unlink name).handle ts d c =
        (.ret n, (d.removeReg name ts).2) := Prod.ext hn rfl
    have hperform : (NsOp.unlink name).perform ts (asClient d c) =
        (.ret n, asClient (d.removeReg name ts).2 c) :=
      (removeReg_asClient d c name ts).trans (by rw [hn])
    exact sameResult_of_eq hhandle hperform rfl rfl rfl

end Removal

section Rename

variable {parent oldName newName : Name} {flags : UInt32}

/-- A rename that finds the file sets the times of the directory only at the
leader, and one that does not is answered differently. -/
theorem not_sameElsewhere_rename (h : Siblings oldName newName) :
    ¬ (NsOp.rename parent oldName newName flags).SameElsewhere d c := by
  intro hsame
  cases hold : d.table.getChildInode oldName with
  | error e =>
      have hmissing : e = .noEntry "No such file or directory : get_child_inode" := by
        revert hold
        unfold getChildInode
        split
        · nofun
        · rintro ⟨⟩
          rfl
      have hresult := (hsame ⟨0, 0⟩).result
      simp only [elsewhere, atLeader, handle, perform, rpcRenameSameParent_join h,
        localRenameSameParent_join h, asClient, hold, hmissing, answered, caught,
        catchRename, needRecovery] at hresult
      cases hresult
  | ok targetI =>
      obtain ⟨ts, hts⟩ := Timespec.exists_ne d.table.thisDirInode.core.mtime
      have htable := congrArg (·.thisDirInode.core.mtime) (hsame ts).table
      have hremote : ((NsOp.rename parent oldName newName flags).handle ts d
          c).2.table.thisDirInode = d.table.thisDirInode := by
        simp only [handle, rpcRenameSameParent_join h, hold]
        split
        · exact moveTarget_self
        · rfl
      have hlocal : ((NsOp.rename parent oldName newName flags).perform ts
          (asClient d c)).2.table.thisDirInode = (d.table.touch ts).thisDirInode := by
        simp only [perform, localRenameSameParent_join h, asClient, hold]
        split
        · exact moveTarget_self
        · rfl
      simp only [elsewhere, atLeader, hremote, hlocal] at htable
      exact hts htable.symm

end Rename

/-- A request is served as the local function serves it if and only if it is a
`mkdir`, a `create` or `symlink` for the user of the leader, a `symlink` over an
existing name, or the `unlink` of an existing file, and the transaction does not
refuse it. -/
theorem namespace_same_iff (op : NsOp) (h : op.WellFormed d c) :
    op.SameElsewhere d c ↔ op.Served d c := by
  cases op with
  | create r => exact sameElsewhere_create_iff r h
  | mkdir r => exact sameElsewhere_mkdir_iff r h.1 h.2.1 h.2.2
  | symlink r => exact sameElsewhere_symlink_iff r h
  | unlink name => exact sameElsewhere_unlink_iff name
  | rename parent oldName newName flags =>
      exact iff_of_false (not_sameElsewhere_rename h) id

section Examples

/-- A client whose user is another than that of the leader. -/
def otherUser : Client := ⟨.new, 1001, 1001⟩

theorem mkdir_other_user_same :
    (NsOp.mkdir (requestFor inoB)).SameElsewhere emptyRoot otherUser :=
  (namespace_same_iff (.mkdir (requestFor inoB)) ⟨by decide, rfl, rfl⟩).mpr nofun

/-- A new file gets the user of the leader, a missing file is not reported, and
a rename keeps the times. -/
theorem namespace_changes_differ :
    ¬ (NsOp.create (requestFor inoB)).SameElsewhere emptyRoot otherUser ∧
      ¬ (NsOp.unlink [97]).SameElsewhere emptyRoot otherUser ∧
      ¬ (NsOp.rename [] [97] [98] 0).SameElsewhere rootWithFile otherUser := by
  refine ⟨?_, ?_, not_sameElsewhere_rename (by constructor <;> decide)⟩
  · rw [sameElsewhere_create_iff (requestFor inoB) (by decide)]
    rintro ⟨⟨huid, -⟩, -⟩
    exact absurd huid (by decide)
  · rw [sameElsewhere_unlink_iff]
    rintro ⟨i, hi, -⟩
    cases hi

end Examples

end NsOp

end Nmfs
