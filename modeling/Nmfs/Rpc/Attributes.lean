import Nmfs.Local.TwoStep
import Nmfs.Rados.Operations
import Nmfs.Rpc.Messages

/-!
# Changes of attributes, here and at the leader

`chmod`, `chown`, `utimens` and `truncate` have a local function each, and for
another client a stub of `rpc_client` and a handler of `rpc_server`.  The target
is a file or a symbolic link in the directory, or the directory itself; the stub
has a `remote_inode` for it, and says in the request which of the two it is.

What the local function and the handler share is a definition of its own.

* The stub of `chmod` does not say that the target is the directory.
* The handler of `truncate` does not set the times.
-/

namespace Nmfs

def EISDIR : Int := 21

/-- `UTIME_NOW` -/
def utimeNow : Int64 := 1073741823

/-- `UTIME_OMIT` -/
def utimeOmit : Int64 := 1073741822

namespace Inode

/-- A file of another type has no target: what is read as one then is not
specified. -/
def setMode (i : Inode) (mode : UInt32) : Inode where
  pIno := i.pIno
  core := { i.core with mode := mode }
  linkTargetName :=
    if (i.linkTargetName.getD []).length < i.core.linkTargetLen.toNat then
      some (Bytes.resize (i.linkTargetName.getD []) i.core.linkTargetLen.toNat)
    else i.linkTargetName
  link := by
    intro _ hlen
    split
    · exact ⟨_, rfl, by simp⟩
    · rename_i hnot
      cases hname : i.linkTargetName with
      | none =>
          simp only [hname, Option.getD_none, List.length_nil] at hnot
          exact absurd hlen hnot
      | some name =>
          simp only [hname, Option.getD_some, not_lt] at hnot
          exact ⟨name, rfl, hnot⟩

def setUid (i : Inode) (uid : UInt32) : Inode where
  pIno := i.pIno
  core := { i.core with uid := uid }
  linkTargetName := i.linkTargetName
  link := i.link

def setGid (i : Inode) (gid : UInt32) : Inode where
  pIno := i.pIno
  core := { i.core with gid := gid }
  linkTargetName := i.linkTargetName
  link := i.link

def setAtime (i : Inode) (t : Timespec) : Inode where
  pIno := i.pIno
  core := { i.core with atime := t }
  linkTargetName := i.linkTargetName
  link := i.link

/-- `mode | type` -/
def withMode (i : Inode) (mode : UInt32) : Inode :=
  i.setMode (mode ||| (i.core.mode &&& sIFMT))

/-- A number that is negative as an `int32_t` changes nothing. -/
def withOwner (i : Inode) (uid gid : UInt32) : Inode :=
  let i := if uid.toNat < 2 ^ 31 then i.setUid uid else i
  if gid.toNat < 2 ^ 31 then i.setGid gid else i

/-- What a `timespec` of `utimens` stands for, if it is not to be left out. -/
def chosenTime (tv now : Timespec) : Option Timespec :=
  if tv.nsec = utimeNow then some now
  else if tv.nsec = utimeOmit then none
  else some tv

def withTimes (i : Inode) (atime mtime : Option Timespec) : Inode :=
  let i := match atime with
    | some t => i.setAtime t
    | none => i
  match mtime with
  | some t => i.setMtime t
  | none => i

end Inode

/-- The target of an operation. -/
inductive AttrTarget where
  | self
  | child (name : Name)
deriving DecidableEq

/-- `remote_inode` -/
structure RemoteInode where
  fileName : Name
  targetIsParent : Bool
  ino : Uuid

/-- The fields that the requests share, and those of one of them. -/
structure AttrRequest (α : Type) where
  filename : Name
  targetIsParent : Bool
  args : α

/-- The handler's choice of the target. -/
def AttrRequest.target {α : Type} (request : AttrRequest α) : AttrTarget :=
  if request.targetIsParent then .self else .child request.filename

/-- A directory at its leader, and the data pool. -/
structure AttrState where
  dir : Directory
  data : Pool

/-- The answer of an operation, and what it leaves. -/
abbrev AttrResult := Outcome Exn Int × AttrState

namespace DentryTable

/-- The inode of the target. -/
def targetInode (t : DentryTable) : AttrTarget → Option Inode
  | .self => some t.thisDirInode
  | .child name => t.childInodes.lookup name

/-- The object of the target changes. -/
def setTarget (t : DentryTable) (target : AttrTarget) (i : Inode) :
    DentryTable :=
  match target with
  | .self => { t with thisDirInode := i }
  | .child name =>
      if h : (t.childInodes.lookup name).isSome then t.setChild name i h else t

/-- What `path_traversal` makes of a target in a table that is `REMOTE`. -/
def remoteInode (t : DentryTable) : AttrTarget → RemoteInode
  | .self => ⟨[], true, t.dirIno⟩
  | .child name => ⟨name, false, (t.childIno name).getD .nil⟩

end DentryTable

namespace AttrState

open Directory

variable (s : AttrState)

/-- The object of the target changes, and the journal is told. -/
def record (target : AttrTarget) (i : Inode) : AttrResult :=
  let d := { s.dir with table := s.dir.table.setTarget target i }
  let x := if i.core.isDir then
      d.journalCall i.core.ino (.chself i) fun d => (.ret 0, d)
    else d.journalCall i.pIno (.chreg i) fun d => (.ret 0, d)
  match x with
  | (.ret n, d) => (.ok n, { s with dir := d })
  | (.throws e, d) => (.throws e, { s with dir := d })

/-- `get_this_dir_inode` or `get_child_inode`, and what is done with the inode. -/
def withTarget (target : AttrTarget) (next : Inode → AttrResult) : AttrResult :=
  match s.dir.table.targetInode target with
  | some i => next i
  | none => (.throws (.noEntry "No such file or directory : get_child_inode"), s)

/-- The part that a local function and its handler share. -/
def change (target : AttrTarget) (f : Inode → Inode) : AttrResult :=
  s.withTarget target fun i => s.record target (f i)

/-- What `rpc_client` and `fuse_ops` make of the answer: an exception of a
handler becomes `-ENEEDRECOV`, and then a `runtime_error`. -/
def answered (x : AttrResult) : AttrResult :=
  match x with
  | (.ok n, s) => (.ok n, s)
  | (.throws _, s) => (.throws needRecovery, s)
  | (.faults f, s) => (.faults f, s)

def localChmod (target : AttrTarget) (mode : UInt32) : AttrResult :=
  s.change target (·.withMode mode)

def rpcChmod (request : AttrRequest UInt32) : AttrResult :=
  s.change request.target (·.withMode request.args)

/-- The stub of `chmod` leaves `target_is_parent` as it is in a new message. -/
def remoteChmod (i : RemoteInode) (mode : UInt32) : AttrResult :=
  answered (s.rpcChmod ⟨i.fileName, false, mode⟩)

def localChown (target : AttrTarget) (uid gid : UInt32) : AttrResult :=
  s.change target (·.withOwner uid gid)

def rpcChown (request : AttrRequest (UInt32 × UInt32)) : AttrResult :=
  s.change request.target (·.withOwner request.args.1 request.args.2)

def remoteChown (i : RemoteInode) (uid gid : UInt32) : AttrResult :=
  answered (s.rpcChown ⟨i.fileName, i.targetIsParent, (uid, gid)⟩)

/-- The two readings of the clock are used for `UTIME_NOW`. -/
def localUtimens (target : AttrTarget) (tv clock : Timespec × Timespec) :
    AttrResult :=
  s.change target (·.withTimes (Inode.chosenTime tv.1 clock.1)
    (Inode.chosenTime tv.2 clock.2))

def rpcUtimens (request : AttrRequest (Timespec × Timespec))
    (clock : Timespec × Timespec) : AttrResult :=
  s.change request.target (·.withTimes
    (Inode.chosenTime request.args.1 clock.1)
    (Inode.chosenTime request.args.2 clock.2))

def remoteUtimens (i : RemoteInode) (tv clock : Timespec × Timespec) :
    AttrResult :=
  answered (s.rpcUtimens ⟨i.fileName, i.targetIsParent, tv⟩ clock)

/-- `data_pool->truncate` -/
def truncateData (ino : Uuid) (offset : Nat) (next : Nat → AttrState → AttrResult) :
    AttrResult :=
  match (RadosIo.truncate .DATA (uuidToString ino) offset).run Pool.handle s.data with
  | (.ok n, data) => next n { s with data := data }
  | (.throws e, data) => (.throws e, { s with data := data })
  | (.faults f, data) => (.faults f, { s with data := data })

def localTruncate (target : AttrTarget) (offset : Nat) (now : Timespec) :
    AttrResult :=
  s.withTarget target fun i =>
    if i.core.isDir then (.ok (-EISDIR), s)
    else s.truncateData i.core.ino offset fun ret s =>
      match s.record target (((i.setSize (Int64.ofNat offset)).setMtime
          now).setCtime now) with
      | (.ok _, s) => (.ok ret, s)
      | x => x

/-- The times are not set, and the data are left to the client. -/
def rpcTruncate (request : AttrRequest Nat) : AttrResult :=
  s.withTarget request.target fun i =>
    if i.core.isDir then (.ok (-EISDIR), s)
    else s.record request.target (i.setSize (Int64.ofNat request.args))

def remoteTruncate (i : RemoteInode) (offset : Nat) : AttrResult :=
  match answered (s.rpcTruncate ⟨i.fileName, i.targetIsParent, offset⟩) with
  | (.ok n, s) =>
      if n = 0 then s.truncateData i.ino offset fun ret s => (.ok ret, s)
      else (.ok n, s)
  | x => x

end AttrState

/-- An operation with its arguments.  An offset is a number, since FUSE passes no
negative one. -/
inductive AttrOp where
  | chmod (mode : UInt32)
  | chown (uid gid : UInt32)
  | utimens (tv : Timespec × Timespec)
  | truncate (offset : Nat)

namespace AttrOp

/-- The operation at the leader. -/
def atLeader (op : AttrOp) (target : AttrTarget) (clock : Timespec × Timespec)
    (s : AttrState) : AttrResult :=
  match op with
  | .chmod mode => s.localChmod target mode
  | .chown uid gid => s.localChown target uid gid
  | .utimens tv => s.localUtimens target tv clock
  | .truncate offset => s.localTruncate target offset clock.1

/-- The operation at another client. -/
def elsewhere (op : AttrOp) (target : AttrTarget) (clock : Timespec × Timespec)
    (s : AttrState) : AttrResult :=
  let i := s.dir.table.remoteInode target
  match op with
  | .chmod mode => s.remoteChmod i mode
  | .chown uid gid => s.remoteChown i uid gid
  | .utimens tv => s.remoteUtimens i tv clock
  | .truncate offset => s.remoteTruncate i offset

/-- The two do the same, with the same readings of the clock. -/
def SameElsewhere (op : AttrOp) (target : AttrTarget) (s : AttrState) : Prop :=
  ∀ clock, op.elsewhere target clock s = op.atLeader target clock s

/-- A mode is changed for a file or a link only, and a directory is not
truncated. -/
def Served : AttrOp → AttrTarget → Prop
  | .chmod _, target => target ≠ .self
  | .truncate _, target => target = .self
  | .chown _ _, _ | .utimens _, _ => True

/-- An offset that `rados_io` can address with an `off_t`. -/
def InRange : AttrOp → Prop
  | .truncate offset => offset ≤ offEnd
  | .chmod _ | .chown _ _ | .utimens _ => True

end AttrOp

namespace AttrState

open Directory DentryTable

variable {s : AttrState} {target : AttrTarget}

/-- `path_traversal` has found the target: the directory itself, or a file or
link in it, whose data are a striped file.  No entry has an empty name. -/
structure Found (s : AttrState) (target : AttrTarget) : Prop where
  inode : ∃ i, s.dir.table.targetInode target = some i ∧
    i.core.isDir = decide (target = .self)
  data : target ≠ .self → ∀ i, s.dir.table.targetInode target = some i →
    ∃ c n, FileIs s.data .DATA (uuidToString i.core.ino) c n ∧ c.length ≤ offEnd
  named : s.dir.table.childInodes.lookup [] = none

/-- The calls of the journal are `chself` and `chreg`, which do not throw. -/
theorem record_ok (s : AttrState) (target : AttrTarget) (i : Inode) :
    ∃ j, s.record target i = (.ok 0, { s with
      dir := { s.dir with table := s.dir.table.setTarget target i, journal := j } }) := by
  unfold record
  cases i.core.isDir with
  | true =>
      have hcall := @journalCall_of_done
        { s.dir with table := s.dir.table.setTarget target i } i.core.ino
        (.chself i) (fun d => (.ret 0, d)) (Journal.call_keeps_done (.chself i))
      simp only [if_true, hcall]
      exact ⟨_, rfl⟩
  | false =>
      have hcall := @journalCall_of_done
        { s.dir with table := s.dir.table.setTarget target i } i.pIno
        (.chreg i) (fun d => (.ret 0, d)) (Journal.call_keeps_done (.chreg i))
      simp only [Bool.false_eq_true, if_false, hcall]
      exact ⟨_, rfl⟩

theorem withTarget_of_some
    {i : Inode} (h : s.dir.table.targetInode target = some i)
    (next : Inode → AttrResult) : s.withTarget target next = next i := by
  rw [withTarget, h]

/-- The target is found again by the handler, if the request says what it is. -/
theorem target_remoteInode
    {α : Type} (t : DentryTable) (target : AttrTarget) (args : α) :
    AttrRequest.target ⟨(t.remoteInode target).fileName,
      (t.remoteInode target).targetIsParent, args⟩ = target := by
  cases target <;> rfl

theorem answered_change
    (h : s.Found target) (f : Inode → Inode) :
    answered (s.change target f) = s.change target f := by
  obtain ⟨i, hi, -⟩ := h.inode
  obtain ⟨j, hrecord⟩ := s.record_ok target (f i)
  rw [change, withTarget_of_some hi, hrecord]
  rfl

theorem sameElsewhere_chown
    (h : s.Found target) (uid gid : UInt32) :
    (AttrOp.chown uid gid).SameElsewhere target s := by
  intro clock
  simp only [AttrOp.elsewhere, AttrOp.atLeader, remoteChown, rpcChown, localChown,
    target_remoteInode]
  exact answered_change h _

theorem sameElsewhere_utimens
    (h : s.Found target) (tv : Timespec × Timespec) :
    (AttrOp.utimens tv).SameElsewhere target s := by
  intro clock
  simp only [AttrOp.elsewhere, AttrOp.atLeader, remoteUtimens, rpcUtimens,
    localUtimens, target_remoteInode]
  exact answered_change h _

/-- The request for a directory names a child with an empty name. -/
theorem sameElsewhere_chmod_iff (h : s.Found target) (mode : UInt32) :
    (AttrOp.chmod mode).SameElsewhere target s ↔ target ≠ .self := by
  cases target with
  | self =>
      refine iff_of_false ?_ (fun h => h rfl)
      intro hsame
      obtain ⟨j, hrecord⟩ :=
        s.record_ok .self (s.dir.table.thisDirInode.withMode mode)
      have hclock := hsame (⟨0, 0⟩, ⟨0, 0⟩)
      simp only [AttrOp.elsewhere, AttrOp.atLeader, remoteChmod, rpcChmod,
        localChmod, change, withTarget, AttrRequest.target, remoteInode,
        targetInode, Bool.false_eq_true, if_false, h.named, answered,
        hrecord] at hclock
      cases hclock
  | child name =>
      refine iff_of_true ?_ nofun
      intro clock
      exact answered_change h _

/-- The data do not change what the table has. -/
theorem truncateData_dir
    (s : AttrState) (ino : Uuid) (offset : Nat) :
    (s.truncateData ino offset fun ret s => (.ok ret, s)).2.dir = s.dir := by
  unfold truncateData
  split <;> rfl

theorem targetInode_setTarget
    {t : DentryTable} {i i' : Inode} (h : t.targetInode target = some i) :
    (t.setTarget target i').targetInode target = some i' := by
  cases target with
  | self => rfl
  | child name =>
      have hsome : (t.childInodes.lookup name).isSome := by
        rw [show t.childInodes.lookup name = some i from h]
        rfl
      simp [setTarget, targetInode, hsome, setChild]

/-- The times of a file change only if the leader truncates it. -/
theorem sameElsewhere_truncate_iff
    (h : s.Found target) {offset : Nat} (hoffset : offset ≤ offEnd) :
    (AttrOp.truncate offset).SameElsewhere target s ↔ target = .self := by
  obtain ⟨i, hi, hdir⟩ := h.inode
  by_cases hself : target = .self
  · refine iff_of_true ?_ hself
    intro clock
    simp only [hself, decide_true] at hdir
    simp [AttrOp.elsewhere, AttrOp.atLeader, remoteTruncate, rpcTruncate,
      localTruncate, target_remoteInode, withTarget_of_some hi, hdir, answered,
      EISDIR]
  · refine iff_of_false ?_ hself
    intro hsame
    simp only [hself, decide_false] at hdir
    obtain ⟨now, hnow⟩ := Timespec.exists_ne i.core.mtime
    obtain ⟨c, n, hfile, hc⟩ := h.data hself i hi
    obtain ⟨data, n', hrun, -⟩ := RadosIo.run_truncate hfile hoffset hc
    obtain ⟨j, hrecord⟩ := s.record_ok target (i.setSize (Int64.ofNat offset))
    obtain ⟨j', hrecord'⟩ := ({ s with data := data } : AttrState).record_ok target
      (((i.setSize (Int64.ofNat offset)).setMtime now).setCtime now)
    have hclock := congrArg (fun x => x.2.dir.table.targetInode target)
      (hsame (now, now))
    simp only [AttrOp.elsewhere, AttrOp.atLeader, remoteTruncate, rpcTruncate,
      localTruncate, target_remoteInode, withTarget_of_some hi, hdir, answered,
      Bool.false_eq_true, if_false, hrecord, if_true, truncateData_dir] at hclock
    rw [truncateData, hrun] at hclock
    simp only [hrecord', targetInode_setTarget hi, Option.some.injEq] at hclock
    exact hnow (congrArg (fun i => i.core.mtime) hclock).symm

/-- An operation at another client is that of the leader if and only if it is
`chown`, `utimens`, the `chmod` of a file or link, or the `truncate` of a
directory. -/
theorem attributes_same_iff
    (op : AttrOp) (h : s.Found target) (hop : op.InRange) :
    op.SameElsewhere target s ↔ op.Served target := by
  cases op with
  | chmod mode => exact sameElsewhere_chmod_iff h mode
  | chown uid gid => exact iff_of_true (sameElsewhere_chown h uid gid) trivial
  | utimens tv => exact iff_of_true (sameElsewhere_utimens h tv) trivial
  | truncate offset => exact sameElsewhere_truncate_iff h hop

section Examples

/-- The leader of a directory with the file `a`, which is empty. -/
def fileLeader : AttrState := ⟨rootWithFile, .empty⟩

theorem fileLeader_found : fileLeader.Found (.child [97]) where
  inode := ⟨_, rfl, by decide⟩
  data _ _ _ := ⟨[], 0, Striped.empty objSize, Nat.zero_le _⟩
  named := by decide

theorem chown_file_same :
    (AttrOp.chown 1001 1001).SameElsewhere (.child [97]) fileLeader :=
  (attributes_same_iff (.chown 1001 1001) fileLeader_found trivial).mpr trivial

/-- The mode of a directory is not found, and a file keeps its times. -/
theorem attributes_differ :
    ¬ (AttrOp.chmod 0o700).SameElsewhere .self fileLeader ∧
      ¬ (AttrOp.truncate 5).SameElsewhere (.child [97]) fileLeader := by
  constructor
  · intro h
    have hanswer := congrArg Prod.fst (h (⟨0, 0⟩, ⟨0, 0⟩))
    exact absurd hanswer (by decide)
  · rw [sameElsewhere_truncate_iff fileLeader_found
      (by simp [offEnd, offMax, objSize])]
    simp

end Examples

end AttrState

end Nmfs
