import Nmfs.Local.RmdirRace

/-!
# Operations in two steps

`fuse_ops::rename` between two directories takes the name out of the source
directory, and then puts it into the destination.  `fuse_ops::rmdir` removes the
directory at its leader, and then its name at the leader of the parent.  Each
directory is led by this client or by another one, and nothing is taken back
when the second step fails.

The destination and the parent are given as they are found by the second step:
other clients may have changed them in between.
-/

namespace Nmfs

namespace Directory

open DentryTable

def ENOENT : Int := 2

/-- What becomes of a request over RPC.  Requests that are answered with
`-ENOTLEADER` change nothing and are repeated; this is the last one. -/
inductive Net where
  | delivered
  | requestLost
  | replyLost
deriving DecidableEq

/-- Where the leader of a directory is. -/
inductive Place where
  | LOCAL
  | REMOTE (net : Net)
deriving DecidableEq

/-- The answer of a handler gets back to the client. -/
def Place.Answers (place : Place) : Prop :=
  place = .LOCAL ∨ place = .REMOTE .delivered

/-- A call of a stub.  `none` is a status that is not OK, which `rpc_client`
reports as `-ENEEDRECOV`: the RPC has failed, or the handler has thrown. -/
def remote {α : Type} (net : Net)
    (handler : Directory → Except Exn α × Directory) (d : Directory) :
    Option α × Directory :=
  match net with
  | .requestLost => (none, d)
  | .replyLost => (none, (handler d).2)
  | .delivered => ((handler d).1.toOption, (handler d).2)

/-- The answer of a handler as a value or an exception. -/
def Reply.toExcept : Reply → Except Exn Int
  | .ret n => .ok n
  | .throws e => .error e

/-- The exception behind `-ENEEDRECOV`. -/
def needRecovery : Exn :=
  .runtimeError "Need Recovery of remote dentry_table"

/-- What an operation of `fuse_ops` comes to. -/
inductive Result where
  | ret (n : Int)
  | escapes (e : Exn)
deriving DecidableEq

section Rename

/-- The `catch` clauses of `fuse_ops::rename`. -/
def catchRename : Exn → Result
  | .noEntry _ => .ret (-ENOENT)
  | .runtimeError _ | .noSuchObject _ => .ret (-ENOSYS)
  | .logicError what => .escapes (.logicError what)
  | .badAlloc => .escapes .badAlloc

def renameSrcHalf (place : Place) (oldName : Name) (flags : UInt32)
    (src : Directory) : Except Exn Inode × Directory :=
  match place with
  | .LOCAL => src.localRenameNotSameParentSrc oldName flags
  | .REMOTE net =>
      match remote net (·.rpcRenameNotSameParentSrc oldName flags) src with
      | (none, src) => (.error needRecovery, src)
      | (some none, src) => (.error (.runtimeError
          "Flag specific behaviors of rename operation are not implemented"), src)
      | (some (some i), src) => (.ok i, src)

def renameDstHalf (place : Place) (targetI : Inode) (checkDstIno : Uuid)
    (newName : Name) (flags : UInt32) (dst : Directory) : Reply × Directory :=
  match place with
  | .LOCAL => dst.localRenameNotSameParentDst targetI checkDstIno newName flags
  | .REMOTE net =>
      match remote net (fun d =>
        let x := d.rpcRenameNotSameParentDst targetI checkDstIno newName flags
        (Reply.toExcept x.1, x.2)) dst with
      | (none, dst) => (.throws needRecovery, dst)
      | (some n, dst) => (.ret n, dst)

/-- `fuse_ops::rename` for two different parents, behind the look-ups.
`checkDstIno` is what the new name has led to then. -/
def rename (srcPlace dstPlace : Place) (oldName newName : Name)
    (flags : UInt32) (checkDstIno : Uuid) (src dst : Directory) :
    Result × Directory × Directory :=
  match renameSrcHalf srcPlace oldName flags src with
  | (.error e, src) => (catchRename e, src, dst)
  | (.ok targetI, src) =>
      match renameDstHalf dstPlace targetI checkDstIno newName flags dst with
      | (.ret n, dst) => (.ret n, src, dst)
      | (.throws e, dst) => (catchRename e, src, dst)

end Rename

section Rmdir

/-- The `catch` clauses of `fuse_ops::rmdir`. -/
def catchRmdir : Exn → Result
  | .noEntry _ => .ret (-ENOENT)
  | e => .escapes e

def rmdirTopHalf (place : Place) (target : Directory) : Reply × Directory :=
  match place with
  | .LOCAL => target.localRmdirTop
  | .REMOTE net =>
      match remote net (fun d =>
        (Reply.toExcept d.rpcRmdirTop.1, d.rpcRmdirTop.2)) target with
      | (none, target) => (.throws needRecovery, target)
      | (some n, target) => (.ret n, target)

/-- `local_rmdir_down` returns 0 whenever it returns. -/
def rmdirDownHalf (place : Place) (targetIno : Uuid) (targetName : Name)
    (ts : Timespec) (parent : Directory) : Reply × Directory :=
  match place with
  | .LOCAL => parent.localRmdirDown targetIno targetName ts
  | .REMOTE net =>
      match remote net (fun d =>
        let x := d.rpcRmdirDown targetIno targetName ts
        (Reply.toExcept x.1, x.2)) parent with
      | (none, parent) => (.throws needRecovery, parent)
      | (some n, parent) => (.ret n, parent)

/-- `fuse_ops::rmdir`, behind the look-ups. -/
def rmdir (targetPlace parentPlace : Place) (targetName : Name) (ts : Timespec)
    (target parent : Directory) : Result × Directory × Directory :=
  match rmdirTopHalf targetPlace target with
  | (.throws e, target) => (catchRmdir e, target, parent)
  | (.ret n, target) =>
      if n = 0 then
        match rmdirDownHalf parentPlace target.dirIno targetName ts parent with
        | (.ret n, parent) => (.ret n, target, parent)
        | (.throws e, parent) => (catchRmdir e, target, parent)
      else (.ret n, target, parent)

end Rmdir

section Properties

/-- A name leads to a file. -/
structure Leads (d : Directory) (name : Name) (targetI : Inode) : Prop where
  child : d.table.childIno name = some targetI.core.ino
  inode : ∃ i, d.table.childInodes.lookup name = some i ∧ i.core = targetI.core

/-- The entry of a name is as before. -/
structure Keeps (name : Name) (d d' : Directory) : Prop where
  child : d'.table.childIno name = d.table.childIno name
  inode : d'.table.childInodes.lookup name = d.table.childInodes.lookup name

/-- The directory is marked as deleted. -/
def Deleted (d : Directory) : Prop :=
  (d.journal.getEntry d.dirIno).status = .S_DELETED

/-- All or nothing, for `rename`: if 0 is returned, the file has its new name,
and otherwise both names are as before. -/
def RenameAtomic (srcPlace dstPlace : Place) (oldName newName : Name)
    (flags : UInt32) (checkDstIno : Uuid) (src dst : Directory) : Prop :=
  let x := rename srcPlace dstPlace oldName newName flags checkDstIno src dst
  if x.1 = .ret 0 then
    x.2.1.table.childIno oldName = none ∧
      ∃ targetI, src.table.childInodes.lookup oldName = some targetI ∧
        x.2.2.Leads newName targetI
  else Keeps oldName src x.2.1 ∧ Keeps newName dst x.2.2

/-- All or nothing, for `rmdir`. -/
def RmdirAtomic (targetPlace parentPlace : Place) (targetName : Name)
    (ts : Timespec) (target parent : Directory) : Prop :=
  let x := rmdir targetPlace parentPlace targetName ts target parent
  if x.1 = .ret 0 then
    x.2.1.Deleted ∧ x.2.2.table.childIno targetName = none
  else ¬ x.2.1.Deleted ∧ Keeps targetName parent x.2.2

/-- The journal of a directory takes a call, without an exception. -/
def Takes (d : Directory) (op : TxOp) : Prop :=
  (d.journal.call d.dirIno op).1 = .done

instance (d : Directory) (op : TxOp) : Decidable (d.Takes op) :=
  inferInstanceAs (Decidable ((d.journal.call d.dirIno op).1 = .done))

/-- The source half does nothing. -/
def SrcRefuses (place : Place) (oldName : Name) (flags : UInt32)
    (src : Directory) : Prop :=
  flags ≠ 0 ∨ src.table.childIno oldName = none ∨ place = .REMOTE .requestLost

/-- The source half takes the file `targetI` and hands it over. -/
def SrcCompletes (place : Place) (oldName : Name) (flags : UInt32)
    (src : Directory) (targetI : Inode) : Prop :=
  flags = 0 ∧ src.table.childInodes.lookup oldName = some targetI ∧
    place.Answers ∧ src.Takes (.rmreg src.table.thisDirInode oldName targetI)

/-- The destination finds the new name as it was when it was looked up, and
links the file. -/
def DstLinks (newName : Name) (checkDstIno : Uuid) (dst : Directory)
    (targetI : Inode) : Prop :=
  if checkDstIno = .nil then
    (dst.table.childIno newName = none ∨ dst.Leads newName targetI) ∧
      dst.Takes (.mkreg dst.table.thisDirInode newName targetI)
  else
    ∃ i, dst.table.childInodes.lookup newName = some i ∧
      dst.Takes (.rmreg dst.table.thisDirInode newName i) ∧
      (dst.called dst.dirIno (.rmreg dst.table.thisDirInode newName i)).Takes
        (.mkreg dst.table.thisDirInode newName targetI)

def DstCompletes (place : Place) (newName : Name) (checkDstIno : Uuid)
    (dst : Directory) (targetI : Inode) : Prop :=
  place.Answers ∧ DstLinks newName checkDstIno dst (targetI.setPIno dst.dirIno)

/-- `rmdir_top` does nothing. -/
def TopRefuses (place : Place) (target : Directory) : Prop :=
  0 < target.table.getChildNum ∨ place = .REMOTE .requestLost

/-- `rmdir_down` takes the name out of the parent. -/
def DownCompletes (place : Place) (targetIno : Uuid) (targetName : Name)
    (parent : Directory) : Prop :=
  place.Answers ∧
    parent.Takes (.rmdir parent.table.thisDirInode targetName targetIno)

end Properties

section Halves

variable {d : Directory} {name : Name}

theorem childIno_of_childInodes
    {i : Inode} (h : d.table.childInodes.lookup name = some i) :
    (d.table.childIno name).isSome := by
  rw [← childInodes_isSome, h]
  rfl

/-- The old name is gone, whether the journal takes its removal or not. -/
theorem takeTarget_cases
    (d : Directory) (name : Name) (targetI : Inode) :
    ∃ d', d'.table.childIno name = none ∧
      (d.Takes (.rmreg d.table.thisDirInode name targetI) ∧
          d.takeTarget name targetI = (.ok targetI, d') ∨
        ¬ d.Takes (.rmreg d.table.thisDirInode name targetI) ∧
          ∃ e, d.takeTarget name targetI = (.error e, d')) := by
  let t := (d.table.deleteChildInode name).2
  let d₁ : Directory := { d with table := t }
  have hdir : t.dirIno = d.dirIno := deleteChildInode_dirIno _ _
  have hself : t.thisDirInode = d.table.thisDirInode :=
    deleteChildInode_thisDirInode _ _
  have hcases := journalCall_cases d₁ t.dirIno (.rmreg t.thisDirInode name targetI)
    fun d => (.ret 0, d)
  refine ⟨d₁.called t.dirIno (.rmreg t.thisDirInode name targetI),
    deleteChildInode_isNone, ?_⟩
  have htakes : d.Takes (.rmreg d.table.thisDirInode name targetI) ↔
      (d₁.journal.call t.dirIno (.rmreg t.thisDirInode name targetI)).1 =
        .done := by
    rw [Takes, hself, hdir]
  rw [htakes]
  rcases hcases with ⟨hdone, hcall⟩ | ⟨hnot, e, hcall⟩
  · refine .inl ⟨hdone, ?_⟩
    unfold takeTarget
    simp only
    rw [hcall]
  · refine .inr ⟨hnot, e, ?_⟩
    unfold takeTarget
    simp only
    rw [hcall]

theorem takes_congr
    {d d' : Directory} {op : TxOp} (hjournal : d'.journal = d.journal)
    (hdir : d'.dirIno = d.dirIno) : d'.Takes op ↔ d.Takes op := by
  rw [Takes, Takes, hjournal, hdir]

theorem leads_congr
    {d d' : Directory} {targetI : Inode} (htable : d'.table = d.table) :
    d'.Leads name targetI ↔ d.Leads name targetI := by
  constructor
  · rintro ⟨hchild, hinode⟩
    rw [htable] at hchild hinode
    exact ⟨hchild, hinode⟩
  · rintro ⟨hchild, hinode⟩
    rw [← htable] at hchild hinode
    exact ⟨hchild, hinode⟩

/-- `create_child_inode` leaves the name to a file that has it already. -/
theorem insertTarget_cases
    (d : Directory) (name : Name) (targetI : Inode) :
    d.Takes (.mkreg d.table.thisDirInode name targetI) ∧
        (∃ d', d.insertTarget name targetI = (.ret 0, d') ∧
          (d'.Leads name targetI ↔
            d.table.childIno name = none ∨ d.Leads name targetI)) ∨
      ¬ d.Takes (.mkreg d.table.thisDirInode name targetI) ∧
        ∃ e d', d.insertTarget name targetI = (.throws e, d') := by
  let t := (d.table.createChildInode name targetI).2
  let d₁ : Directory := { d with table := t }
  have hdir : t.dirIno = d.dirIno := createChildInode_dirIno _ _ _
  have hself : t.thisDirInode = d.table.thisDirInode :=
    createChildInode_thisDirInode _ _ _
  have htakes : d.Takes (.mkreg d.table.thisDirInode name targetI) ↔
      (d₁.journal.call t.dirIno (.mkreg t.thisDirInode name targetI)).1 =
        .done := by
    rw [Takes, hself, hdir]
  rw [htakes]
  rcases journalCall_cases d₁ t.dirIno (.mkreg t.thisDirInode name targetI)
    fun d => (.ret 0, d) with ⟨hdone, hcall⟩ | ⟨hnot, e, hcall⟩
  · refine .inl ⟨hdone, _, hcall, ?_⟩
    cases h : d.table.childIno name with
    | none =>
        have ht : t = d.table.putChild name targetI := by
          simp only [t, createChildInode_of_absent _ _ _ h]
        refine iff_of_true ⟨?_, targetI, ?_, rfl⟩ (.inl rfl)
        · simp only [called, d₁, ht, putChild_childIno]
        · simp only [called, d₁, ht, putChild_childInodes]
    | some ino =>
        have ht : t = d.table := by
          simp only [t, createChildInode_of_present _ _ _
            (show (d.table.childIno name).isSome by simp [h])]
        rw [leads_congr (d := d) (by simp only [called, d₁, ht])]
        simp
  · exact .inr ⟨hnot, e, _, hcall⟩

theorem replaceTarget_of_absent
    {next : Directory → Reply × Directory}
    (h : d.table.childInodes.lookup name = none) :
    ∃ e, d.replaceTarget name next = (.throws e, d) := by
  unfold replaceTarget getChildInode
  rw [h]
  exact ⟨_, rfl⟩

/-- The file goes away, and then the name is free. -/
theorem replaceTarget_of_present
    {i : Inode} (h : d.table.childInodes.lookup name = some i)
    (next : Directory → Reply × Directory) :
    d.Takes (.rmreg d.table.thisDirInode name i) ∧
        (∃ d', d.replaceTarget name next = next d' ∧
          d'.table.childIno name = none ∧ d'.dirIno = d.dirIno ∧
          d'.table.thisDirInode = d.table.thisDirInode ∧
          d'.journal =
            (d.called d.dirIno (.rmreg d.table.thisDirInode name i)).journal) ∨
      ¬ d.Takes (.rmreg d.table.thisDirInode name i) ∧
        ∃ e d', d.replaceTarget name next = (.throws e, d') := by
  let t := (d.table.deleteChildInode name).2
  let d₁ : Directory := { d with table := t }
  have hdir : t.dirIno = d.dirIno := deleteChildInode_dirIno _ _
  have hself : t.thisDirInode = d.table.thisDirInode :=
    deleteChildInode_thisDirInode _ _
  have hreplace : d.replaceTarget name next =
      d₁.journalCall t.dirIno (.rmreg t.thisDirInode name i) next := by
    unfold replaceTarget getChildInode
    rw [h]
  have htakes : d.Takes (.rmreg d.table.thisDirInode name i) ↔
      (d₁.journal.call t.dirIno (.rmreg t.thisDirInode name i)).1 = .done := by
    rw [Takes, hself, hdir]
  rw [htakes, hreplace]
  rcases journalCall_cases d₁ t.dirIno (.rmreg t.thisDirInode name i) next with
    ⟨hdone, hcall⟩ | ⟨hnot, e, hcall⟩
  · refine .inl ⟨hdone, _, hcall, deleteChildInode_isNone, hdir, hself, ?_⟩
    rw [← hself, ← hdir]
    rfl
  · exact .inr ⟨hnot, e, _, hcall⟩

/-- The file is linked, or there is an exception, or the name has been left to
another file. -/
theorem renameDst_cases
    (d : Directory) (name : Name) (targetI : Inode) (checkDstIno : Uuid) :
    DstLinks name checkDstIno d (targetI.setPIno d.dirIno) ∧
        (∃ d', d.renameDst name targetI checkDstIno = (.ret 0, d') ∧
          d'.Leads name targetI) ∨
      ¬ DstLinks name checkDstIno d (targetI.setPIno d.dirIno) ∧
        ((∃ e d', d.renameDst name targetI checkDstIno = (.throws e, d')) ∨
          ∃ d', d.renameDst name targetI checkDstIno = (.ret 0, d') ∧
            ¬ d'.Leads name targetI) := by
  unfold renameDst DstLinks
  -- the parent of an inode is not part of its core
  have hleads : ∀ d' : Directory, d'.Leads name (targetI.setPIno d.dirIno) ↔
      d'.Leads name targetI := fun _ =>
    ⟨fun h => ⟨h.child, h.inode⟩, fun h => ⟨h.child, h.inode⟩⟩
  by_cases hcheck : checkDstIno = .nil
  · simp only [hcheck, ne_eq, not_true, if_false, if_true]
    rcases insertTarget_cases d name (targetI.setPIno d.dirIno) with
      ⟨htakes, d', heq, hiff⟩ | ⟨hnot, e, d', heq⟩
    · by_cases hfree : d.table.childIno name = none ∨
          d.Leads name (targetI.setPIno d.dirIno)
      · exact .inl ⟨⟨hfree, htakes⟩, d', heq, (hleads d').mp (hiff.mpr hfree)⟩
      · refine .inr ⟨fun h => hfree h.1, .inr ⟨d', heq, fun h => hfree ?_⟩⟩
        exact hiff.mp ((hleads d').mpr h)
    · exact .inr ⟨fun h => hnot h.2, .inl ⟨e, d', heq⟩⟩
  · simp only [hcheck, ne_eq, not_false_eq_true, if_false, if_true]
    cases hi : d.table.childInodes.lookup name with
    | none =>
        obtain ⟨e, heq⟩ := @replaceTarget_of_absent d name (fun d₁ =>
          d₁.insertTarget name (targetI.setPIno d.dirIno)) hi
        refine .inr ⟨?_, .inl ⟨e, _, heq⟩⟩
        rintro ⟨i, ⟨⟩, -⟩
    | some i =>
        rcases replaceTarget_of_present hi fun d₁ =>
          d₁.insertTarget name (targetI.setPIno d.dirIno) with
          ⟨htakes, d₁, heq, hfree, hdir, hself, hjournal⟩ | ⟨hnot, e, d', heq⟩
        · rw [heq]
          have hmk : d₁.Takes (.mkreg d₁.table.thisDirInode name
                (targetI.setPIno d.dirIno)) ↔
              (d.called d.dirIno (.rmreg d.table.thisDirInode name i)).Takes
                (.mkreg d.table.thisDirInode name
                  (targetI.setPIno d.dirIno)) := by
            rw [hself]
            exact takes_congr hjournal hdir
          rcases insertTarget_cases d₁ name (targetI.setPIno d.dirIno) with
            ⟨hlinked, d', heq', hiff⟩ | ⟨hnot, e, d', heq'⟩
          · exact .inl ⟨⟨i, rfl, htakes, hmk.mp hlinked⟩, d', heq',
              (hleads d').mp (hiff.mpr (.inl hfree))⟩
          · refine .inr ⟨?_, .inl ⟨e, d', heq'⟩⟩
            rintro ⟨_, ⟨⟩, -, hlinked⟩
            exact hnot (hmk.mpr hlinked)
        · refine .inr ⟨?_, .inl ⟨e, d', heq⟩⟩
          rintro ⟨_, ⟨⟩, htakes, -⟩
          exact hnot htakes

theorem renameSrcHalf_refuses
    {place : Place} {flags : UInt32} (h : SrcRefuses place name flags d) :
    ∃ e, renameSrcHalf place name flags d = (.error e, d) := by
  cases hi : d.table.childInodes.lookup name with
  | none =>
      rcases place with _ | (_ | _ | _) <;>
        simp [renameSrcHalf, remote, localRenameNotSameParentSrc,
          rpcRenameNotSameParentSrc, getChildInode, hi, Except.toOption]
  | some i =>
      have hflags : flags = 0 → place = .REMOTE .requestLost := by
        rintro rfl
        rcases h with h | h | h
        · exact absurd rfl h
        · have hsome := childIno_of_childInodes hi
          rw [h] at hsome
          cases hsome
        · exact h
      by_cases hzero : flags = 0
      · rw [hflags hzero]
        exact ⟨_, rfl⟩
      · rcases place with _ | (_ | _ | _) <;>
          simp [renameSrcHalf, remote, localRenameNotSameParentSrc,
            rpcRenameNotSameParentSrc, getChildInode, hi, hzero,
            Except.toOption]

/-- Once the source half does something, the old name is gone. -/
theorem renameSrcHalf_takes
    {place : Place} {flags : UInt32} (h : ¬ SrcRefuses place name flags d) :
    ∃ targetI d', d.table.childInodes.lookup name = some targetI ∧
      (d.table.childIno name).isSome ∧ d'.table.childIno name = none ∧
      (SrcCompletes place name flags d targetI ∧
          renameSrcHalf place name flags d = (.ok targetI, d') ∨
        ¬ SrcCompletes place name flags d targetI ∧
          ∃ e, renameSrcHalf place name flags d = (.error e, d')) := by
  simp only [SrcRefuses, not_or, ne_eq, not_not] at h
  obtain ⟨rfl, hchild, hlost⟩ := h
  have hsome : (d.table.childInodes.lookup name).isSome := by
    rw [childInodes_isSome]
    exact Option.isSome_iff_ne_none.mpr hchild
  obtain ⟨targetI, hi⟩ := Option.isSome_iff_exists.mp hsome
  obtain ⟨d', hgone, hcases⟩ := takeTarget_cases d name targetI
  refine ⟨targetI, d', hi, Option.isSome_iff_ne_none.mpr hchild, hgone, ?_⟩
  have hlocal : d.localRenameNotSameParentSrc name 0 = d.takeTarget name targetI := by
    simp [localRenameNotSameParentSrc, getChildInode, hi]
  have hrpc : d.rpcRenameNotSameParentSrc name 0 =
      ((d.takeTarget name targetI).1.map some, (d.takeTarget name targetI).2) := by
    simp only [rpcRenameNotSameParentSrc, getChildInode, hi, if_true]
    rcases hcases with ⟨-, heq⟩ | ⟨-, e, heq⟩ <;> rw [heq] <;> rfl
  rcases hcases with ⟨htakes, heq⟩ | ⟨hnot, e, heq⟩
  · rcases place with _ | (_ | _ | _)
    · exact .inl ⟨⟨rfl, hi, .inl rfl, htakes⟩, hlocal.trans heq⟩
    · refine .inl ⟨⟨rfl, hi, .inr rfl, htakes⟩, ?_⟩
      simp [renameSrcHalf, remote, hrpc, heq, Except.map, Except.toOption]
    · exact absurd rfl hlost
    · refine .inr ⟨?_, ?_⟩
      · rintro ⟨-, -, hanswers | hanswers, -⟩ <;> cases hanswers
      · simp [renameSrcHalf, remote, hrpc, heq]
  · refine .inr ⟨fun hcompletes => hnot hcompletes.2.2.2, ?_⟩
    rcases place with _ | (_ | _ | _)
    · exact ⟨e, hlocal.trans heq⟩
    · simp [renameSrcHalf, remote, hrpc, heq, Except.map, Except.toOption]
    · exact absurd rfl hlost
    · simp [renameSrcHalf, remote, hrpc, heq]

theorem renameDstHalf_cases
    (place : Place) (targetI : Inode) (checkDstIno : Uuid) (name : Name)
    (d : Directory) :
    DstCompletes place name checkDstIno d targetI ∧
        (∃ d', renameDstHalf place targetI checkDstIno name 0 d = (.ret 0, d') ∧
          d'.Leads name targetI) ∨
      ¬ DstCompletes place name checkDstIno d targetI ∧
        ((∃ e d', renameDstHalf place targetI checkDstIno name 0 d =
            (.throws e, d')) ∨
          ∃ d', renameDstHalf place targetI checkDstIno name 0 d = (.ret 0, d') ∧
            ¬ d'.Leads name targetI) := by
  have hlocal : d.localRenameNotSameParentDst targetI checkDstIno name 0 =
      d.renameDst name targetI checkDstIno := rfl
  have hrpc : d.rpcRenameNotSameParentDst targetI checkDstIno name 0 =
      d.renameDst name targetI checkDstIno := rfl
  have hcases := renameDst_cases d name targetI checkDstIno
  rcases place with _ | (_ | _ | _)
  · simp only [renameDstHalf, DstCompletes, Place.Answers, hlocal, true_or,
      true_and]
    exact hcases
  · simp only [renameDstHalf, DstCompletes, Place.Answers, remote, hrpc, or_true,
      true_and]
    rcases hcases with ⟨hlinks, d', heq, hleads⟩ | ⟨hnot, ⟨e, d', heq⟩ | ⟨d', heq, hleads⟩⟩
    · exact .inl ⟨hlinks, d', by rw [heq]; rfl, hleads⟩
    · exact .inr ⟨hnot, .inl ⟨needRecovery, d', by rw [heq]; rfl⟩⟩
    · exact .inr ⟨hnot, .inr ⟨d', by rw [heq]; rfl, hleads⟩⟩
  · refine .inr ⟨?_, .inl ⟨_, _, rfl⟩⟩
    rintro ⟨hanswers | hanswers, -⟩ <;> cases hanswers
  · refine .inr ⟨?_, .inl ⟨_, _, rfl⟩⟩
    rintro ⟨hanswers | hanswers, -⟩ <;> cases hanswers

theorem catchRename_ne (e : Exn) : catchRename e ≠ .ret 0 := by
  cases e <;> simp [catchRename, ENOENT, ENOSYS]

theorem catchRmdir_ne (e : Exn) : catchRmdir e ≠ .ret 0 := by
  cases e <;> simp [catchRmdir, ENOENT]

theorem Keeps.refl (name : Name) (d : Directory) : Keeps name d d :=
  ⟨rfl, rfl⟩

/-- A rename between two directories is all or nothing if and only if its first
half does nothing, or both halves are done and answered. -/
theorem renameAtomic_iff
    (srcPlace dstPlace : Place) (oldName newName : Name) (flags : UInt32)
    (checkDstIno : Uuid) (src dst : Directory) :
    RenameAtomic srcPlace dstPlace oldName newName flags checkDstIno src dst ↔
      SrcRefuses srcPlace oldName flags src ∨
        ∃ targetI, SrcCompletes srcPlace oldName flags src targetI ∧
          DstCompletes dstPlace newName checkDstIno dst targetI := by
  unfold RenameAtomic rename
  by_cases href : SrcRefuses srcPlace oldName flags src
  · obtain ⟨e, heq⟩ := renameSrcHalf_refuses href
    refine iff_of_true ?_ (.inl href)
    simp only [heq, catchRename_ne, if_false]
    exact ⟨.refl _ _, .refl _ _⟩
  · obtain ⟨targetI, src', hi, hsome, hgone, hcases⟩ := renameSrcHalf_takes href
    have hnotKeeps : ¬ Keeps oldName src src' := by
      rintro ⟨hchild, -⟩
      rw [← hchild, hgone] at hsome
      cases hsome
    -- the file that the source half hands over is the one in the table
    have hunique : ∀ i, SrcCompletes srcPlace oldName flags src i →
        i = targetI := by
      rintro i ⟨-, hi', -⟩
      exact Option.some.inj (hi'.symm.trans hi)
    rcases hcases with ⟨hcompletes, heq⟩ | ⟨hnot, e, heq⟩
    · obtain rfl : flags = 0 := hcompletes.1
      rcases renameDstHalf_cases dstPlace targetI checkDstIno newName dst with
        ⟨hdst, dst', heq', hleads⟩ |
          ⟨hnot, ⟨e, dst', heq'⟩ | ⟨dst', heq', hleads⟩⟩
      · refine iff_of_true ?_ (.inr ⟨targetI, hcompletes, hdst⟩)
        simp only [heq, heq', if_true]
        exact ⟨hgone, targetI, hi, hleads⟩
      · refine iff_of_false ?_ ?_
        · simp only [heq, heq', catchRename_ne, if_false]
          exact fun h => hnotKeeps h.1
        · rintro (h | ⟨i, hcompletes', hdst⟩)
          · exact href h
          · rw [hunique i hcompletes'] at hdst
            exact hnot hdst
      · refine iff_of_false ?_ ?_
        · simp only [heq, heq', if_true]
          rintro ⟨-, i, hi', hleads'⟩
          rw [hi] at hi'
          cases hi'
          exact hleads hleads'
        · rintro (h | ⟨i, hcompletes', hdst⟩)
          · exact href h
          · rw [hunique i hcompletes'] at hdst
            exact hnot hdst
    · refine iff_of_false ?_ ?_
      · simp only [heq, catchRename_ne, if_false]
        exact fun h => hnotKeeps h.1
      · rintro (h | ⟨i, hcompletes', -⟩)
        · exact href h
        · rw [hunique i hcompletes'] at hcompletes'
          exact hnot hcompletes'

/-- What the journal says about a directory after `rmself`. -/
theorem removeSelf_childNum (d : Directory) :
    (0 < d.table.getChildNum ∧ d.removeSelf = (.ret (-ENOTEMPTY), d)) ∨
      d.table.getChildNum = 0 ∧
        ∃ d', d.removeSelf = (.ret 0, d') ∧ d'.dirIno = d.dirIno ∧ d'.Deleted := by
  unfold removeSelf
  cases hnum : d.table.getChildNum with
  | zero =>
      refine .inr ⟨rfl, d.called d.dirIno .rmself, ?_, rfl, ?_⟩
      · simp only [lt_irrefl, if_false]
        exact journalCall_of_done (Journal.call_keeps_done .rmself)
      · have hopen := (d.journal.getEntry_owner d.dirIno).2
        change ((d.journal.call d.dirIno .rmself).2.getEntry d.dirIno).status = _
        rw [Journal.call_getEntry]
        simp [TxOp.apply, Transaction.rmself, hopen]
  | succ n => exact .inl ⟨Nat.succ_pos n, by simp⟩

/-- Whether the journal takes the removal of a directory does not depend on the
inode of the parent. -/
theorem takes_rmdir_congr
    (d : Directory) (i i' : Inode) (targetIno : Uuid) :
    d.Takes (.rmdir i name targetIno) ↔ d.Takes (.rmdir i' name targetIno) := by
  simp only [Takes, Journal.call_fst, TxOp.apply, Transaction.rmdir]
  repeat' split
  all_goals simp

/-- The name is gone, whether the journal takes its removal or not. -/
theorem removeDir_cases
    (d : Directory) (name : Name) (targetIno : Uuid) (ts : Timespec) :
    ∃ d', d'.table.childIno name = none ∧
      (d.Takes (.rmdir d.table.thisDirInode name targetIno) ∧
          d.removeDir name targetIno ts = (.ret 0, d') ∨
        ¬ d.Takes (.rmdir d.table.thisDirInode name targetIno) ∧
          ∃ e, d.removeDir name targetIno ts = (.throws e, d')) := by
  let t := (d.table.deleteChildInode name).2.touch ts
  let d₁ : Directory := { d with table := t }
  have hdir : d₁.dirIno = d.dirIno := deleteChildInode_dirIno _ _
  have hsame : d₁.Takes (.rmdir t.thisDirInode name targetIno) ↔
      d.Takes (.rmdir t.thisDirInode name targetIno) := takes_congr rfl hdir
  have htakes : d.Takes (.rmdir d.table.thisDirInode name targetIno) ↔
      d₁.Takes (.rmdir t.thisDirInode name targetIno) :=
    (takes_rmdir_congr d _ t.thisDirInode targetIno).trans hsame.symm
  refine ⟨d₁.called t.dirIno (.rmdir t.thisDirInode name targetIno),
    deleteChildInode_isNone, ?_⟩
  rw [htakes]
  rcases journalCall_cases d₁ t.dirIno (.rmdir t.thisDirInode name targetIno)
    fun d => (.ret 0, d) with ⟨hdone, hcall⟩ | ⟨hnot, e, hcall⟩
  · exact .inl ⟨hdone, hcall⟩
  · exact .inr ⟨hnot, e, hcall⟩

theorem rmdirTopHalf_refuses
    {place : Place} (h : TopRefuses place d) :
    ∃ r, rmdirTopHalf place d = (r, d) ∧ r ≠ .ret 0 := by
  rcases removeSelf_childNum d with ⟨-, heq⟩ | ⟨hnum, -⟩
  · rcases place with _ | (_ | _ | _) <;>
      simp [rmdirTopHalf, remote, localRmdirTop, rpcRmdirTop, heq,
        Reply.toExcept, Except.toOption, ENOTEMPTY]
  · rcases h with h | rfl
    · rw [hnum] at h
      cases h
    · exact ⟨_, rfl, by simp⟩

/-- Once the target is not refused, it is marked as deleted. -/
theorem rmdirTopHalf_deletes
    {place : Place} (h : ¬ TopRefuses place d) :
    ∃ d', d'.Deleted ∧ d'.dirIno = d.dirIno ∧
      (place.Answers ∧ rmdirTopHalf place d = (.ret 0, d') ∨
        ¬ place.Answers ∧ ∃ e, rmdirTopHalf place d = (.throws e, d')) := by
  simp only [TopRefuses, not_or, not_lt, Nat.le_zero] at h
  obtain ⟨hnum, hlost⟩ := h
  rcases removeSelf_childNum d with ⟨hpos, -⟩ | ⟨-, d', heq, hdir, hdeleted⟩
  · rw [hnum] at hpos
    cases hpos
  · refine ⟨d', hdeleted, hdir, ?_⟩
    rcases place with _ | (_ | _ | _)
    · exact .inl ⟨.inl rfl, heq⟩
    · refine .inl ⟨.inr rfl, ?_⟩
      simp [rmdirTopHalf, remote, rpcRmdirTop, heq, Reply.toExcept,
        Except.toOption]
    · exact absurd rfl hlost
    · refine .inr ⟨?_, ?_⟩
      · rintro (hanswers | hanswers) <;> cases hanswers
      · simp [rmdirTopHalf, remote, rpcRmdirTop, heq]

theorem rmdirDownHalf_cases
    (place : Place) (targetIno : Uuid) (name : Name) (ts : Timespec)
    (d : Directory) :
    DownCompletes place targetIno name d ∧
        (∃ d', rmdirDownHalf place targetIno name ts d = (.ret 0, d') ∧
          d'.table.childIno name = none) ∨
      ¬ DownCompletes place targetIno name d ∧
        ∃ e d', rmdirDownHalf place targetIno name ts d = (.throws e, d') := by
  obtain ⟨d', hgone, hcases⟩ := removeDir_cases d name targetIno ts
  rcases place with _ | (_ | _ | _)
  · rcases hcases with ⟨htakes, heq⟩ | ⟨hnot, e, heq⟩
    · exact .inl ⟨⟨.inl rfl, htakes⟩, d', heq, hgone⟩
    · exact .inr ⟨fun h => hnot h.2, e, d', heq⟩
  · rcases hcases with ⟨htakes, heq⟩ | ⟨hnot, e, heq⟩
    · refine .inl ⟨⟨.inr rfl, htakes⟩, d', ?_, hgone⟩
      simp [rmdirDownHalf, remote, rpcRmdirDown, heq, Reply.toExcept,
        Except.toOption]
    · refine .inr ⟨fun h => hnot h.2, needRecovery, d', ?_⟩
      simp [rmdirDownHalf, remote, rpcRmdirDown, heq, Reply.toExcept,
        Except.toOption]
  · refine .inr ⟨?_, _, _, rfl⟩
    rintro ⟨hanswers | hanswers, -⟩ <;> cases hanswers
  · refine .inr ⟨?_, _, _, rfl⟩
    rintro ⟨hanswers | hanswers, -⟩ <;> cases hanswers

/-- The same for `rmdir`. -/
theorem rmdirAtomic_iff
    (targetPlace parentPlace : Place) (targetName : Name) (ts : Timespec)
    {target : Directory} (parent : Directory) (hlive : ¬ target.Deleted) :
    RmdirAtomic targetPlace parentPlace targetName ts target parent ↔
      TopRefuses targetPlace target ∨ targetPlace.Answers ∧
        DownCompletes parentPlace target.dirIno targetName parent := by
  unfold RmdirAtomic rmdir
  by_cases href : TopRefuses targetPlace target
  · obtain ⟨r, heq, hr⟩ := rmdirTopHalf_refuses href
    refine iff_of_true ?_ (.inl href)
    cases r with
    | throws e =>
        simp only [heq, catchRmdir_ne, if_false]
        exact ⟨hlive, .refl _ _⟩
    | ret n =>
        have hn : n ≠ 0 := fun h => hr (by rw [h])
        simp only [heq, hn, Result.ret.injEq, if_false]
        exact ⟨hlive, .refl _ _⟩
  · obtain ⟨target', hdeleted, hdir, hcases⟩ := rmdirTopHalf_deletes href
    rcases hcases with ⟨hanswers, heq⟩ | ⟨hnot, e, heq⟩
    · rcases rmdirDownHalf_cases parentPlace target.dirIno targetName ts parent
        with ⟨hdown, parent', heq', hgone⟩ | ⟨hnot, e, parent', heq'⟩
      · refine iff_of_true ?_ (.inr ⟨hanswers, hdown⟩)
        simp only [heq, hdir, heq', if_true]
        exact ⟨hdeleted, hgone⟩
      · refine iff_of_false ?_ ?_
        · simp only [heq, hdir, heq', if_true, catchRmdir_ne, if_false]
          exact fun h => h.1 hdeleted
        · rintro (h | ⟨-, hdown⟩)
          · exact href h
          · exact hnot hdown
    · refine iff_of_false ?_ ?_
      · simp only [heq, catchRmdir_ne, if_false]
        exact fun h => h.1 hdeleted
      · rintro (h | ⟨hanswers, -⟩)
        · exact href h
        · exact hnot hanswers

end Halves

/-- An operation in two steps is all or nothing if and only if its first step
does nothing, or both steps are done and answered. -/
theorem two_step_atomic_iff
    (firstPlace secondPlace : Place) (first second : Directory) :
    (∀ (oldName newName : Name) (flags : UInt32) (checkDstIno : Uuid),
      RenameAtomic firstPlace secondPlace oldName newName flags checkDstIno first
          second ↔
        SrcRefuses firstPlace oldName flags first ∨
          ∃ targetI, SrcCompletes firstPlace oldName flags first targetI ∧
            DstCompletes secondPlace newName checkDstIno second targetI) ∧
    ∀ (targetName : Name) (ts : Timespec), ¬ first.Deleted →
      (RmdirAtomic firstPlace secondPlace targetName ts first second ↔
        TopRefuses firstPlace first ∨ firstPlace.Answers ∧
          DownCompletes secondPlace first.dirIno targetName second) :=
  ⟨fun oldName newName flags checkDstIno =>
      renameAtomic_iff firstPlace secondPlace oldName newName flags checkDstIno
        first second,
    fun targetName ts hlive =>
      rmdirAtomic_iff firstPlace secondPlace targetName ts second hlive⟩

section Examples

/-- A directory that has the file `a`. -/
def rootWithFile : Directory :=
  (emptyRoot.localCreate (requestFor inoA)).2

/-- An empty directory below the root directory. -/
def emptyDir : Directory where
  table := .new (.new .root 0 0 (sIFDIR ||| 0o755) inoB ⟨1700000000, 0⟩)
  journal := .new
  clientUid := 1000
  clientGid := 1000

theorem emptyDir_live : ¬ emptyDir.Deleted := by
  unfold Deleted
  decide

/-- The directory that has the file has the empty one, too. -/
def rootWithDir : Directory :=
  (rootWithFile.localMkdir { requestFor inoB with name := [98], mode := 0o755 }).2

/-- The empty directory is removed, or the file is moved into it. -/
theorem two_steps_done :
    ¬ emptyDir.Deleted ∧
      RmdirAtomic .LOCAL .LOCAL [98] ⟨1700000002, 0⟩ emptyDir rootWithDir ∧
      RenameAtomic .LOCAL .LOCAL [97] [99] 0 .nil rootWithDir emptyDir := by
  obtain ⟨hrename, -⟩ := two_step_atomic_iff .LOCAL .LOCAL rootWithDir emptyDir
  obtain ⟨-, hrmdir⟩ := two_step_atomic_iff .LOCAL .LOCAL emptyDir rootWithDir
  refine ⟨emptyDir_live, (hrmdir [98] _ emptyDir_live).mpr (.inr ⟨.inl rfl, .inl rfl, ?_⟩),
    (hrename [97] [99] 0 .nil).mpr (.inr ?_)⟩
  · decide
  · refine ⟨_, ⟨rfl, rfl, .inl rfl, ?_⟩, .inl rfl, ?_⟩
    · decide
    · rw [DstLinks, if_pos rfl]
      exact ⟨.inl rfl, by decide⟩

/-- The leader of the destination does not answer, and the file is gone. -/
theorem rename_loses_file :
    ¬ RenameAtomic .LOCAL (.REMOTE .requestLost) [97] [98] 0 .nil rootWithFile
        emptyDir ∧
      (rename .LOCAL (.REMOTE .requestLost) [97] [98] 0 .nil rootWithFile
        emptyDir).1 = .ret (-ENOSYS) ∧
      ¬ RmdirAtomic .LOCAL (.REMOTE .requestLost) [98] ⟨1700000002, 0⟩ emptyDir
        rootWithFile := by
  have hrename : (rename .LOCAL (.REMOTE .requestLost) [97] [98] 0 .nil
      rootWithFile emptyDir).1 = .ret (-ENOSYS) := by
    decide
  have hrmdir : (rmdir .LOCAL (.REMOTE .requestLost) [98] ⟨1700000002, 0⟩
      emptyDir rootWithFile).1 = .escapes needRecovery := by
    decide
  refine ⟨?_, hrename, ?_⟩
  · intro h
    simp only [RenameAtomic, hrename] at h
    rw [if_neg (by decide)] at h
    exact absurd h.1.child (by decide)
  · intro h
    simp only [RmdirAtomic, hrmdir] at h
    rw [if_neg (by decide)] at h
    refine absurd h.1 ?_
    unfold Deleted
    decide

end Examples

end Directory

end Nmfs
