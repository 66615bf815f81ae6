import Nmfs.Rpc.Attributes
import Nmfs.Rpc.NamespaceOps

/-!
# Requests for an entry that is gone

The look-up of a path and the operation on it are two RPCs, so that the entry
can be removed in between.  At the leader itself the exception `no_entry` gets
to `fuse_ops`, which returns `-ENOENT`.

A handler does not catch it, except for that of `getattr`: gRPC makes a status
of it that is not OK, `rpc_client` makes `-ENEEDRECOV` of the status, and
`fuse_ops` throws a `runtime_error`, which only `rename` catches.
-/

namespace Nmfs

def EACCES : Int := 13

def ENOTDIR : Int := 20

def ELOOP : Int := 40

/-- `O_TRUNC` -/
def oTrunc : UInt32 := 0o1000

/-- `O_APPEND` -/
def oAppend : UInt32 := 0o2000

/-- `O_DIRECTORY` -/
def oDirectory : UInt32 := 0o200000

/-- `O_NOFOLLOW` -/
def oNofollow : UInt32 := 0o400000

/-- `O_CLOEXEC` -/
def oCloexec : UInt32 := 0o2000000

/-- `O_PATH` -/
def oPath : UInt32 := 0o10000000

/-- A flag is set. -/
def flagSet (flags flag : UInt32) : Bool := flags &&& flag ≠ 0

/-- An exception that gets to `fuse_ops`. -/
inductive Thrown where
  /-- `inode::permission_denied` -/
  | permissionDenied
  | exn (e : Exn)

/-- `struct stat` -/
structure Stat where
  mode : UInt32
  uid : UInt32
  gid : UInt32
  ino : UInt64
  nlink : UInt64
  size : Int64
  atim : Timespec
  mtim : Timespec
  ctim : Timespec

structure RpcGetattrRespond where
  ret : Int
  iMode : UInt32
  iUid : UInt32
  iGid : UInt32
  iInoHigh : UInt64
  iNlink : UInt64
  iSize : Int64
  a : Timespec
  m : Timespec
  c : Timespec

structure RpcWriteRespond where
  ret : Int
  offset : Nat
  size : Nat

namespace Inode

/-- `permission_check`, for the user of the client that runs it. -/
def permissionCheck (i : Inode) (uid gid mask : UInt32) : Bool :=
  let targetMode :=
    if uid = i.core.uid then (i.core.mode &&& 0o700) >>> 6
    else if gid = i.core.gid then (i.core.mode &&& 0o070) >>> 3
    else i.core.mode &&& 0o007
  (!flagSet mask 4 || flagSet targetMode 4) &&
    (!flagSet mask 2 || flagSet targetMode 2) &&
    (!flagSet mask 1 || flagSet targetMode 1)

end Inode

/-- What `get_child_inode` throws. -/
def noChild : Exn := .noEntry "No such file or directory : get_child_inode"

namespace DentryTable

/-- The inode of the target, or the exception of `get_child_inode`. -/
def chooseTarget (t : DentryTable) (target : AttrTarget) : Except Exn Inode :=
  match t.targetInode target with
  | some i => .ok i
  | none => .error noChild

/-- The handler catches the exception, and answers `-EACCES`. -/
def rpcGetattr (t : DentryTable) (request : AttrRequest Unit) :
    RpcGetattrRespond :=
  match t.chooseTarget request.target with
  | .error _ => ⟨-EACCES, 0, 0, 0, 0, 0, 0, ⟨0, 0⟩, ⟨0, 0⟩, ⟨0, 0⟩⟩
  | .ok i => ⟨0, i.core.mode, i.core.uid, i.core.gid,
      i.core.ino.getPostfixFromUuid, i.core.nlink, i.core.size, i.core.atime,
      i.core.mtime, i.core.ctime⟩

def rpcOpendir (t : DentryTable) (request : AttrRequest Unit) :
    Except Exn Int :=
  (t.chooseTarget request.target).map fun i =>
    if i.core.isDir then 0 else -ENOTDIR

/-- The answer has the target of the link, up to its first zero. -/
def rpcReadlink (t : DentryTable) (filename : Name) :
    Except Exn (Int × Bytes) :=
  (t.getChildInode filename).map fun i =>
    if i.core.isLnk then (0, cString (i.linkTargetName.getD []))
    else (-EINVAL, [])

def rpcGetMode (t : DentryTable) (filename : Name) : Except Exn UInt32 :=
  (t.getChildInode filename).map (·.core.mode)

end DentryTable

namespace Directory

/-- The part that the handlers of `access` and `permission_check` share. -/
def checkTarget (d : Directory) (request : AttrRequest UInt32) :
    Except Exn Int :=
  (d.table.chooseTarget request.target).map fun i =>
    if i.permissionCheck d.clientUid d.clientGid request.args then 0 else -EACCES

def rpcAccess (d : Directory) (request : AttrRequest UInt32) : Except Exn Int :=
  d.checkTarget request

def rpcPermissionCheck (d : Directory) (request : AttrRequest UInt32) :
    Except Exn Int :=
  d.checkTarget request

end Directory

namespace AttrState

open Directory

variable (s : AttrState)

/-- A handler that changes the directory only. -/
def inDir (f : Directory → Reply × Directory) : AttrResult :=
  match f s.dir with
  | (.ret n, d) => (.ok n, { s with dir := d })
  | (.throws e, d) => (.throws e, { s with dir := d })

/-- The object of a child changes, and `chreg` is called. -/
def recordReg (filename : Name) (i : Inode) : AttrResult :=
  s.inDir fun d =>
    ({ d with table := d.table.setTarget (.child filename) i } :
      Directory).journalCall i.pIno (.chreg i) fun d => (.ret 0, d)

def rpcOpen (filename : Name) (flags : UInt32) : AttrResult :=
  s.withTarget (.child filename) fun i =>
    if flagSet flags oDirectory && !i.core.isDir then (.ok (-ENOTDIR), s)
    else if flagSet flags oNofollow && i.core.isLnk then (.ok (-ELOOP), s)
    else if flagSet flags oTrunc && !flagSet flags oPath then
      s.recordReg filename (i.setSize 0)
    else (.ok 0, s)

/-- The data go first. -/
def rpcUnlink (filename : Name) (ts : Timespec) : AttrResult :=
  s.withTarget (.child filename) fun i =>
    if i.core.nlink - 1 = 0 then
      match (RadosIo.remove .DATA (uuidToString i.core.ino)).run Pool.handle
        s.data with
      | (.ok _, data) => ({ s with data := data } : AttrState).inDir
          (·.rpcUnlink filename ts)
      | (.throws e, data) => (.throws e, { s with data := data })
      | (.faults f, data) => (.faults f, { s with data := data })
    else s.inDir (·.rpcUnlink filename ts)

/-- The handler only reserves the range; its sum is that of a `size_t`. -/
def rpcWrite (filename : Name) (offset size : Nat) (flags : UInt32) :
    Outcome Exn RpcWriteRespond × AttrState :=
  match s.dir.table.getChildInode filename with
  | .error e => (.throws e, s)
  | .ok i =>
      let offset := if flagSet flags oAppend then i.core.size.toUInt64.toNat
        else offset
      let respond : RpcWriteRespond := ⟨0, offset, size⟩
      if i.core.size.toUInt64.toNat < (offset + size) % 2 ^ 64 then
        match s.recordReg filename (i.setSize (Int64.ofNat (offset + size))) with
        | (.ok _, s) => (.ok respond, s)
        | (.throws e, s) => (.throws e, s)
        | (.faults f, s) => (.faults f, s)
      else (.ok respond, s)

end AttrState

/-- What a stub comes to, for its caller in `fuse_ops`. -/
abbrev StubResult := Outcome Thrown Int × AttrState

namespace RemoteInode

open AttrState

variable (i : RemoteInode) (s : AttrState)

/-- A status that is not OK. -/
def notOk : Outcome Thrown Int := .throws (.exn Directory.needRecovery)

/-- A stub that hands on the answer of its handler. -/
def handOn (x : AttrResult) : StubResult :=
  match x with
  | (.ok n, s) => (.ok n, s)
  | (.throws _, s) => (notOk, s)
  | (.faults f, s) => (.faults f, s)

/-- The seconds of `st_ctim` are set twice. -/
def getattr (stat : Stat) : Outcome Thrown Int × Stat :=
  let output := s.dir.table.rpcGetattr ⟨i.fileName, i.targetIsParent, ()⟩
  if output.ret = -EACCES then
    (.throws (.exn
      (.noEntry "No such file or directory: rpc_client::getattr()")), stat)
  else
    (.ok output.ret, {
      mode := output.iMode
      uid := output.iUid
      gid := output.iGid
      ino := output.iInoHigh
      nlink := output.iNlink
      size := output.iSize
      atim := output.a
      mtim := output.m
      ctim := ⟨output.c.nsec, stat.ctim.nsec⟩ })

def access (mask : UInt32) : Outcome Thrown Int :=
  match s.dir.rpcAccess ⟨i.fileName, i.targetIsParent, mask⟩ with
  | .error _ => notOk
  | .ok ret => if ret = -EACCES then .throws .permissionDenied else .ok ret

def opendir : Outcome Thrown Int :=
  match s.dir.table.rpcOpendir ⟨i.fileName, i.targetIsParent, ()⟩ with
  | .error _ => notOk
  | .ok ret => .ok ret

/-- The buffer is filled up to its last byte, which is zero. -/
def readlink (size : UInt64) : Outcome Thrown Int × Option Bytes :=
  match s.dir.table.rpcReadlink i.fileName with
  | .error _ => (notOk, none)
  | .ok (ret, filename) => (.ok ret,
      if ret = 0 then
        some (filename.take (min filename.length (size - 1).toNat) ++ [0])
      else none)

def open' (flags : UInt32) : StubResult :=
  handOn (s.rpcOpen i.fileName flags)

def unlink (ts : Timespec) : StubResult :=
  handOn (s.rpcUnlink i.fileName ts)

/-- The data are written here. -/
def write (buffer : Bytes) (offset : Nat) (flags : UInt32) : StubResult :=
  match s.rpcWrite i.fileName offset buffer.length flags with
  | (.throws _, s) => (notOk, s)
  | (.faults f, s) => (.faults f, s)
  | (.ok output, s) =>
      match (RadosIo.write .DATA (uuidToString i.ino) (buffer.take output.size)
        output.offset).run Pool.handle s.data with
      | (.ok n, data) => (.ok n, { s with data := data })
      | (.throws e, data) => (.throws (.exn e), { s with data := data })
      | (.faults f, data) => (.faults f, { s with data := data })

def getMode : Except Thrown UInt32 :=
  match s.dir.table.rpcGetMode i.fileName with
  | .error _ => .error (.exn (.runtimeError "rpc_client::get_mode() failed"))
  | .ok mode => .ok mode

def permissionCheck (mask : UInt32) : Except Thrown Unit :=
  match s.dir.rpcPermissionCheck ⟨i.fileName, i.targetIsParent, mask⟩ with
  | .error _ => .error (.exn
      (.runtimeError "rpc_client::permission_check() failed"))
  | .ok ret => if ret = -EACCES then .error .permissionDenied else .ok ()

end RemoteInode

/-- The operations of `fuse_ops` whose path is traversed, as their `catch`
clauses tell them apart. -/
inductive Caller where
  | rename
  | other

/-- The `catch` clauses of an operation. -/
def Caller.catches : Caller → Exn → Directory.Result
  | .rename => Directory.catchRename
  | .other => Directory.catchRmdir

/-- What an operation makes of an exception. -/
def Caller.result (caller : Caller) : Thrown → Directory.Result
  | .permissionDenied => .ret (-EACCES)
  | .exn e => caller.catches e

/-- What an operation comes to. -/
def Caller.caught (caller : Caller) : Outcome Thrown Int → Outcome Exn Int
  | .ok n => .ok n
  | .throws e =>
      match caller.result e with
      | .ret n => .ok n
      | .escapes e => .throws e
  | .faults f => .faults f

/-- An operation on an entry of a directory that another client leads, with its
arguments.  `getMode` and `permissionCheck` are requests of `path_traversal`;
`rest` is what the operation does with the answer. -/
inductive EntryOp where
  | getattr (stat : Stat)
  | access (mask : UInt32)
  | opendir
  | open (flags : UInt32)
  | readlink (size : UInt64)
  | unlink
  | write (buffer : Bytes) (offset : Nat) (flags : UInt32)
  | chmod (mode : UInt32)
  | chown (uid gid : UInt32)
  | utimens (tv : Timespec × Timespec)
  | truncate (offset : Nat)
  | getMode (caller : Caller) (rest : UInt32 → Outcome Thrown Int)
  | permissionCheck (caller : Caller) (mask : UInt32) (rest : Outcome Thrown Int)
  | renameSameParent (parent newPath : Bytes) (flags : UInt32)
  | renameSrc (newName : Name) (flags : UInt32) (dstPlace : Directory.Place)
      (checkDstIno : Uuid) (dst : Directory)

namespace EntryOp

open RemoteInode

/-- A stub that only reads, and its caller. -/
def reads (s : AttrState) (x : Outcome Thrown Int) : AttrResult :=
  (Caller.other.caught x, s)

/-- A stub that changes the state of the leader, and its caller. -/
def changes (x : StubResult) : AttrResult :=
  (Caller.other.caught x.1, x.2)

/-- The stubs of `Nmfs.Rpc.Attributes`, and their callers. -/
def attr (x : AttrResult) : AttrResult :=
  changes (match x with
    | (.ok n, s) => (.ok n, s)
    | (.throws e, s) => (.throws (.exn e), s)
    | (.faults f, s) => (.faults f, s))

/-- `fuse_ops::chown` and `fuse_ops::utimens` return 0. -/
def returnsZero (x : AttrResult) : AttrResult :=
  match x with
  | (.ok _, s) => (.ok 0, s)
  | x => x

/-- What `fuse_ops::rename` makes of the answer of one of its parts. -/
def ofResult : Directory.Result → Outcome Exn Int
  | .ret n => .ok n
  | .escapes e => .throws e

/-- The operation of `fuse_ops`, for the entry that `i` names.  `s` is the state
of the leader, and `clock` are readings of the clock. -/
def run (op : EntryOp) (i : RemoteInode) (clock : Timespec × Timespec)
    (s : AttrState) : AttrResult :=
  match op with
  | .getattr stat => reads s (i.getattr s stat).1
  | .access mask => reads s (i.access s mask)
  | .opendir => reads s (i.opendir s)
  | .open flags =>
      if flagSet flags oCloexec then (.throws (.runtimeError "O_CLOEXEC is ON"), s)
      else if flagSet flags oPath then (.throws (.runtimeError "O_PATH is ON"), s)
      else changes (i.open' s flags)
  | .readlink size => reads s (i.readlink s size).1
  | .unlink => changes (i.unlink s clock.1)
  | .write buffer offset flags => changes (i.write s buffer offset flags)
  | .chmod mode => attr (s.remoteChmod i mode)
  | .chown uid gid => returnsZero (attr (s.remoteChown i uid gid))
  | .utimens tv => returnsZero (attr (s.remoteUtimens i tv clock))
  | .truncate offset => attr (s.remoteTruncate i offset)
  | .getMode caller rest =>
      (caller.caught (match i.getMode s with
        | .ok mode => rest mode
        | .error e => .throws e), s)
  | .permissionCheck caller mask rest =>
      (caller.caught (match i.permissionCheck s mask with
        | .ok _ => rest
        | .error e => .throws e), s)
  | .renameSameParent parent newPath flags =>
      let x := s.dir.rpcRenameSameParent (Path.join parent i.fileName) newPath flags
      (ofResult (match NsOp.answered x.1 with
        | .ret n => .ret n
        | .throws e => Directory.catchRename e), { s with dir := x.2 })
  | .renameSrc newName flags dstPlace checkDstIno dst =>
      let x := Directory.rename (.REMOTE .delivered) dstPlace i.fileName newName
        flags checkDstIno s.dir dst
      (ofResult x.1, { s with dir := x.2.1 })

/-- The entry has been removed since it was looked up.  Its name is one that FUSE
passes. -/
structure Missing (i : RemoteInode) (s : AttrState) : Prop where
  child : i.targetIsParent = false
  gone : s.dir.table.childInodes.lookup i.fileName = none
  noSlash : slash ∉ i.fileName
  nonempty : i.fileName ≠ []

/-- The operation returns `-ENOENT`, and the leader is as before. -/
def ReportsMissing (op : EntryOp) (i : RemoteInode) (s : AttrState) : Prop :=
  ∀ clock, op.run i clock s = (.ok (-Directory.ENOENT), s)

/-- What an operation comes to if the entry is gone. -/
def missingAnswer : EntryOp → Outcome Exn Int
  | .getattr _ => .ok (-Directory.ENOENT)
  | .open flags =>
      if flagSet flags oCloexec then .throws (.runtimeError "O_CLOEXEC is ON")
      else if flagSet flags oPath then .throws (.runtimeError "O_PATH is ON")
      else .throws Directory.needRecovery
  | .access _ | .opendir | .readlink _ | .unlink | .write _ _ _ | .chmod _
  | .chown _ _ | .utimens _ | .truncate _ => .throws Directory.needRecovery
  | .getMode .other _ => .throws (.runtimeError "rpc_client::get_mode() failed")
  | .permissionCheck .other _ _ =>
      .throws (.runtimeError "rpc_client::permission_check() failed")
  | .getMode .rename _ | .permissionCheck .rename _ _
  | .renameSameParent _ _ _ | .renameSrc _ _ _ _ _ => .ok (-ENOSYS)

section Gone

variable {i : RemoteInode} {s : AttrState}

theorem Missing.targetInode
    (h : Missing i s) : s.dir.table.targetInode (.child i.fileName) = none :=
  h.gone

theorem Missing.getChildInode
    (h : Missing i s) : s.dir.table.getChildInode i.fileName = .error noChild := by
  rw [DentryTable.getChildInode, h.gone]
  rfl

theorem Missing.chooseTarget
    {α : Type} (h : Missing i s) (args : α) :
    s.dir.table.chooseTarget
      (AttrRequest.target ⟨i.fileName, i.targetIsParent, args⟩) = .error noChild := by
  simp only [AttrRequest.target, h.child, Bool.false_eq_true, if_false,
    DentryTable.chooseTarget, h.targetInode]

theorem Missing.withTarget
    (h : Missing i s) (next : Inode → AttrResult) :
    s.withTarget (.child i.fileName) next = (.throws noChild, s) := by
  rw [AttrState.withTarget, h.targetInode]
  rfl

/-- No stub for an attribute finds the entry. -/
theorem Missing.answered_change
    {α : Type} (h : Missing i s) (args : α) (f : Inode → Inode) :
    AttrState.answered
      (s.change (AttrRequest.target ⟨i.fileName, i.targetIsParent, args⟩) f) =
        (.throws Directory.needRecovery, s) := by
  rw [AttrState.change, AttrRequest.target, h.child, if_neg (by simp), h.withTarget]
  rfl

theorem Missing.renameSameParent
    (h : Missing i s) (parent newPath : Bytes) (flags : UInt32) :
    ∃ e, s.dir.rpcRenameSameParent (Path.join parent i.fileName) newPath flags =
      (.throws e, s.dir) := by
  rw [Directory.rpcRenameSameParent,
    Path.getFilenameFromPath_join h.noSlash h.nonempty]
  cases Path.getFilenameFromPath newPath with
  | error e => exact ⟨e, rfl⟩
  | ok newName =>
      simp only [h.getChildInode]
      exact ⟨noChild, rfl⟩

theorem Missing.renameSrc
    (h : Missing i s) (flags : UInt32) :
    Directory.renameSrcHalf (.REMOTE .delivered) i.fileName flags s.dir =
      (.error Directory.needRecovery, s.dir) := by
  simp only [Directory.renameSrcHalf, Directory.remote,
    Directory.rpcRenameNotSameParentSrc, h.getChildInode]
  rfl

/-- Nothing changes at the leader, and only `getattr` reports what is missing. -/
theorem run_missing
    (op : EntryOp) (h : Missing i s) (clock : Timespec × Timespec) :
    op.run i clock s = (op.missingAnswer, s) := by
  cases op with
  | getattr stat =>
      simp [run, reads, RemoteInode.getattr, DentryTable.rpcGetattr, h.chooseTarget,
        Caller.caught, Caller.result, Caller.catches, Directory.catchRmdir,
        missingAnswer]
  | access mask =>
      simp only [run, reads, RemoteInode.access, Directory.rpcAccess,
        Directory.checkTarget, h.chooseTarget]
      rfl
  | opendir =>
      simp only [run, reads, RemoteInode.opendir, DentryTable.rpcOpendir,
        h.chooseTarget]
      rfl
  | «open» flags =>
      simp only [run, RemoteInode.open', AttrState.rpcOpen, h.withTarget, missingAnswer]
      split
      · rfl
      · split
        · rfl
        · rfl
  | readlink size =>
      simp only [run, reads, RemoteInode.readlink, DentryTable.rpcReadlink,
        h.getChildInode]
      rfl
  | unlink =>
      simp only [run, RemoteInode.unlink, AttrState.rpcUnlink, h.withTarget]
      rfl
  | write buffer offset flags =>
      simp only [run, RemoteInode.write, AttrState.rpcWrite, h.getChildInode]
      rfl
  | chmod mode =>
      simp only [run, AttrState.remoteChmod, AttrState.rpcChmod]
      rw [← h.child, h.answered_change]
      rfl
  | chown uid gid =>
      simp only [run, AttrState.remoteChown, AttrState.rpcChown]
      rw [h.answered_change]
      rfl
  | utimens tv =>
      simp only [run, AttrState.remoteUtimens, AttrState.rpcUtimens]
      rw [h.answered_change]
      rfl
  | truncate offset =>
      simp only [run, AttrState.remoteTruncate, AttrState.rpcTruncate,
        AttrRequest.target, h.child, Bool.false_eq_true, if_false, h.withTarget]
      rfl
  | getMode caller rest =>
      simp only [run, RemoteInode.getMode, DentryTable.rpcGetMode, h.getChildInode]
      cases caller <;> rfl
  | permissionCheck caller mask rest =>
      simp only [run, RemoteInode.permissionCheck, Directory.rpcPermissionCheck,
        Directory.checkTarget, h.chooseTarget]
      cases caller <;> rfl
  | renameSameParent parent newPath flags =>
      obtain ⟨e, he⟩ := h.renameSameParent parent newPath flags
      simp only [run, he]
      rfl
  | renameSrc newName flags dstPlace checkDstIno dst =>
      simp only [run, Directory.rename, h.renameSrc]
      rfl

end Gone

/-- A missing entry is reported as such if and only if the operation is
`getattr`. -/
theorem missing_entry_reported_iff
    {i : RemoteInode} {s : AttrState} (op : EntryOp) (h : Missing i s) :
    op.ReportsMissing i s ↔ ∃ stat, op = .getattr stat := by
  constructor
  · intro hreports
    have hrun := (run_missing op h (⟨0, 0⟩, ⟨0, 0⟩)).symm.trans
      (hreports (⟨0, 0⟩, ⟨0, 0⟩))
    have hanswer : op.missingAnswer = .ok (-Directory.ENOENT) :=
      congrArg Prod.fst hrun
    cases op with
    | getattr stat => exact ⟨stat, rfl⟩
    | «open» flags =>
        simp only [missingAnswer] at hanswer
        split at hanswer
        · cases hanswer
        · split at hanswer
          · cases hanswer
          · cases hanswer
    | getMode caller rest => cases caller <;> cases hanswer
    | permissionCheck caller mask rest => cases caller <;> cases hanswer
    | _ => cases hanswer
  · rintro ⟨stat, rfl⟩ clock
    exact run_missing _ h clock

section Examples

/-- The file `b` has been removed from the directory with the file `a`. -/
def goneFile : RemoteInode := ⟨[98], false, .root⟩

theorem goneFile_missing : Missing goneFile AttrState.fileLeader where
  child := rfl
  gone := rfl
  noSlash := by decide
  nonempty := by decide

theorem getattr_gone_file :
    (getattr ⟨0, 0, 0, 0, 0, 0, ⟨0, 0⟩, ⟨0, 0⟩, ⟨0, 0⟩⟩).ReportsMissing goneFile
      AttrState.fileLeader :=
  (missing_entry_reported_iff _ goneFile_missing).mpr ⟨_, rfl⟩

/-- `unlink` throws, and `rename` returns another error. -/
theorem unlink_gone_file :
    (unlink.run goneFile (⟨0, 0⟩, ⟨0, 0⟩) AttrState.fileLeader).1 =
        .throws Directory.needRecovery ∧
      ¬ unlink.ReportsMissing goneFile AttrState.fileLeader ∧
      ¬ (renameSameParent [] [47, 99] 0).ReportsMissing goneFile
        AttrState.fileLeader := by
  refine ⟨by rw [run_missing unlink goneFile_missing]; rfl, ?_, ?_⟩
  · intro h
    have hrun := h (⟨0, 0⟩, ⟨0, 0⟩)
    rw [run_missing unlink goneFile_missing] at hrun
    cases hrun
  · intro h
    have hrun := h (⟨0, 0⟩, ⟨0, 0⟩)
    rw [run_missing (renameSameParent [] [47, 99] 0) goneFile_missing] at hrun
    cases hrun

end Examples

end EntryOp

end Nmfs
