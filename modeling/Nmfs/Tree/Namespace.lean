import Nmfs.Lib.Links
import Nmfs.Rpc.MissingEntry

/-!
# The tree of directories

The operations of `fuse_ops` on paths.  Each directory has a table at the client
that leads it, and a path is followed from table to table; where the table of a
directory is led by another client, its part of the operation is an RPC.

Leases do not move here, and every request is answered.  What `get_dentry_table`
throws for an inode number that has no table is left to the environment.
-/

namespace Nmfs

/-- The tables of the directories at their leaders, and the clients. -/
structure Namespace where
  tables : Uuid → Option DentryTable
  leader : Uuid → Nat
  clients : Nat → Client

/-- What the environment chooses for an operation: the client at which it runs,
a reading of the clock, and the exception for a table that cannot be built. -/
structure Env where
  self : Nat
  ts : Timespec
  unbuilt : Uuid → Exn

namespace Path

/-- The names behind the slashes, as `set_name_bound` finds them in a path whose
length is an `int`.  A slash at the end of the path is passed over. -/
def namesFrom (name : Name) : Bytes → List Name
  | [] => [name]
  | b :: rest =>
      if b = slash then
        if rest = [] then [name] else name :: namesFrom [] rest
      else namesFrom (name ++ [b]) rest

/-- The first name begins at the second character. -/
def names (path : Bytes) : List Name :=
  match path.drop 1 with
  | [] => []
  | b :: rest => namesFrom [] (b :: rest)

end Path

/-- What an operation of `fuse_ops` makes of the answer of its last part. -/
def Caller.reply (caller : Caller) : Reply → Directory.Result
  | .ret n => .ret n
  | .throws e => caller.catches e

namespace Namespace

open Directory Nmfs.Path

variable (ns : Namespace) (env : Env)

/-- A directory at its leader. -/
def directory (t : DentryTable) : Directory :=
  ⟨t, (ns.clients (ns.leader t.dirIno)).journal,
    (ns.clients (ns.leader t.dirIno)).uid, (ns.clients (ns.leader t.dirIno)).gid⟩

/-- A directory has a new table, and the clients have changed. -/
def setTable (ino : Uuid) (t : DentryTable) (clients : Nat → Client) :
    Namespace where
  tables := Function.update ns.tables ino (some t)
  leader := ns.leader
  clients := clients

/-- A directory is left as `d` at its leader. -/
def put (ino : Uuid) (d : Directory) : Namespace :=
  ns.setTable ino d.table (Function.update ns.clients (ns.leader ino)
    { ns.clients (ns.leader ino) with journal := d.journal })

/-- `delete_dentry_table`, at the leader of a directory that is removed. -/
def deleteTable (ino : Uuid) : Namespace :=
  { ns with tables := Function.update ns.tables ino none }

/-- `lease_dentry_table_mkdir`: the client leads the new directory. -/
def addTable (self : Nat) (newDirInode : Inode) : Namespace where
  tables := Function.update ns.tables newDirInode.core.ino
    (some (.new newDirInode))
  leader := Function.update ns.leader newDirInode.core.ino self
  clients := ns.clients

def getDentryTable (ino : Uuid) : Except Thrown DentryTable :=
  match ns.tables ino with
  | some t => .ok t
  | none => .error (.exn (env.unbuilt ino))

/-- The loop of `path_traversal`.  `t` is `parent_dentry_table` and `ino` the
inode number of `target_inode`.  The mode of a child and the permission to search
a directory are checked at the leader. -/
def traverse (t : DentryTable) (ino : Uuid) : List Name → Except Thrown Uuid
  | [] => .ok ino
  | targetName :: rest =>
      if t.checkChildInode targetName = .nil then
        .error (.exn (.noEntry "No such file or Directory: in path traversal"))
      else
        match t.getChildInode targetName with
        | .error e => .error (.exn e)
        | .ok child =>
            if child.core.isDir then
              match ns.getDentryTable env (t.checkChildInode targetName) with
              | .error e => .error e
              | .ok t' =>
                  let d := ns.directory t'
                  if t'.thisDirInode.permissionCheck d.clientUid d.clientGid 1 then
                    traverse t' t'.dirIno rest
                  else .error .permissionDenied
            else traverse t child.core.ino rest

def pathTraversal (path : Bytes) : Except Thrown Uuid :=
  match ns.getDentryTable env .root with
  | .error e => .error e
  | .ok t => ns.traverse env t t.dirIno (names path)

/-- `path_traversal`, and the table of the inode that it finds. -/
def findTable (path : Bytes) : Except Thrown DentryTable :=
  match ns.pathTraversal env path with
  | .error e => .error e
  | .ok ino => ns.getDentryTable env ino

/-- The table of the parent of a path, and the name in it. -/
def findParent (path : Bytes) : Except Thrown (DentryTable × Name) :=
  match getFilenameFromPath path, getParentDirPath path with
  | .error e, _ => .error (.exn e)
  | .ok _, .error e => .error (.exn e)
  | .ok name, .ok parent =>
      match ns.findTable env parent with
      | .error e => .error e
      | .ok t => .ok (t, name)

/-- The place of a directory, for the client of the operation. -/
def place (ino : Uuid) : Place :=
  if ns.leader ino = env.self then .LOCAL else .REMOTE .delivered

/-- An operation on one directory, here or at its leader. -/
def apply (op : NsOp) (t : DentryTable) : Reply × Namespace :=
  if ns.leader t.dirIno = env.self then
    let x := op.perform env.ts (ns.directory t)
    (x.1, ns.put t.dirIno x.2)
  else
    let x := op.handle env.ts (ns.directory t) (ns.clients env.self)
    let ns := ns.put t.dirIno x.2
    (NsOp.answered x.1,
      if x.1 = .ret 0 then
        { ns with
          clients := Function.update ns.clients env.self
            (op.finish (ns.clients env.self)) }
      else ns)

/-- `create`, `symlink` and `unlink`. -/
def change (path : Bytes) (op : Name → NsOp) : Result × Namespace :=
  match ns.findParent env path with
  | .error e => (Caller.other.result e, ns)
  | .ok (t, name) =>
      let x := ns.apply env (op name) t
      (Caller.other.reply x.1, x.2)

def create (path : Bytes) (r : Request) : Result × Namespace :=
  if r.mode &&& sIFMT = sIFDIR then (.ret (-EISDIR), ns)
  else ns.change env path fun name => .create { r with name := name }

def symlink (src dst : Bytes) (r : Request) : Result × Namespace :=
  ns.change env dst fun name => .symlink { r with name := name, src := src }

def unlink (path : Bytes) : Result × Namespace :=
  ns.change env path .unlink

/-- The inode with which the client makes the table of a new directory. -/
def newDirInode (t : DentryTable) (r : Request) : Inode :=
  let d := ns.directory t
  if ns.leader t.dirIno = env.self then d.newDirInode d.clientUid d.clientGid r
  else NsOp.stubDirInode (ns.clients env.self) r

def mkdir (path : Bytes) (r : Request) : Result × Namespace :=
  match ns.findParent env path with
  | .error e => (Caller.other.result e, ns)
  | .ok (t, name) =>
      let r := { r with name := name }
      let x := ns.apply env (.mkdir r) t
      (Caller.other.reply x.1,
        if x.1 = .ret 0 then x.2.addTable env.self (ns.newDirInode env t r)
        else x.2)

/-- The second half of `rmdir`. -/
def removeName (parentIno targetIno : Uuid) (targetName : Name) :
    Result × Namespace :=
  match ns.getDentryTable env parentIno with
  | .error e => (Caller.other.result e, ns)
  | .ok parent =>
      let x := rmdirDownHalf (ns.place env parentIno) targetIno targetName env.ts
        (ns.directory parent)
      (Caller.other.reply x.1, ns.put parentIno x.2)

/-- Both halves of `rmdir`. -/
def removeDir (parentIno : Uuid) (target : DentryTable) (targetIno : Uuid)
    (targetName : Name) : Result × Namespace :=
  let x := rmdirTopHalf (ns.place env target.dirIno) (ns.directory target)
  let ns := ns.put target.dirIno x.2
  if x.1 = .ret 0 then
    (ns.deleteTable target.dirIno).removeName env parentIno targetIno targetName
  else (Caller.other.reply x.1, ns)

/-- The mode of a child of another client's directory is asked for by RPC. -/
def rmdir (path : Bytes) : Result × Namespace :=
  match ns.findParent env path with
  | .error e => (Caller.other.result e, ns)
  | .ok (parent, targetName) =>
      let targetIno := parent.checkChildInode targetName
      match parent.getChildInode targetName with
      | .error e =>
          (Caller.other.catches
            (if ns.leader parent.dirIno = env.self then e
              else .runtimeError "rpc_client::get_mode() failed"), ns)
      | .ok targetI =>
          if targetI.core.isDir then
            match ns.getDentryTable env targetIno with
            | .error e => (Caller.other.result e, ns)
            | .ok target => ns.removeDir env parent.dirIno target targetIno targetName
          else (.ret (-ENOTDIR), ns)

/-- The two paths have one parent, as strings. -/
def renameSameParent (t : DentryTable) (oldPath newPath : Bytes)
    (flags : UInt32) : Result × Namespace :=
  let d := ns.directory t
  let x :=
    if ns.leader t.dirIno = env.self then
      d.localRenameSameParent oldPath newPath flags env.ts
    else
      let x := d.rpcRenameSameParent oldPath newPath flags
      (NsOp.answered x.1, x.2)
  (Caller.rename.reply x.1, ns.put t.dirIno x.2)

/-- The destination half, which looks its table up again. -/
def renameDst (src : DentryTable) (dstIno : Uuid) (targetI : Inode)
    (checkDstIno : Uuid) (newName : Name) (flags : UInt32) :
    Result × Namespace :=
  match ns.getDentryTable env dstIno with
  | .error e => (Caller.rename.result e, ns)
  | .ok dst =>
      let b := ns.leader dstIno
      let p : Parents := ⟨src, dst, ns.clients⟩
      let x := p.renameDst b (b = env.self) targetI checkDstIno newName flags
      (Caller.rename.reply x.1, ns.setTable dstIno x.2.2.dst x.2.2.clients)

/-- The two parents are found separately. -/
def renameNotSameParent (src dst : DentryTable) (oldName newName : Name)
    (flags : UInt32) : Result × Namespace :=
  let a := ns.leader src.dirIno
  let p : Parents := ⟨src, dst, ns.clients⟩
  let checkDstIno := p.checkDst (ns.leader dst.dirIno = env.self) newName
  let x := p.renameSrc a (a = env.self) oldName flags
  let ns := ns.setTable src.dirIno x.2.src x.2.clients
  match x.1 with
  | .error e => (catchRename e, ns)
  | .ok (targetI, _) =>
      ns.renameDst env x.2.src dst.dirIno targetI checkDstIno newName flags

def rename (oldPath newPath : Bytes) (flags : UInt32) : Result × Namespace :=
  if oldPath = newPath then (.ret (-EEXIST), ns)
  else
    match getParentDirPath oldPath, getParentDirPath newPath with
    | .error e, _ => (catchRename e, ns)
    | .ok _, .error e => (catchRename e, ns)
    | .ok srcParent, .ok dstParent =>
        if srcParent = dstParent then
          match ns.findTable env srcParent with
          | .error e => (Caller.rename.result e, ns)
          | .ok t => ns.renameSameParent env t oldPath newPath flags
        else
          match ns.findTable env srcParent, ns.findTable env dstParent with
          | .error e, _ => (Caller.rename.result e, ns)
          | .ok _, .error e => (Caller.rename.result e, ns)
          | .ok src, .ok dst =>
              match getFilenameFromPath oldPath, getFilenameFromPath newPath with
              | .error e, _ => (catchRename e, ns)
              | .ok _, .error e => (catchRename e, ns)
              | .ok oldName, .ok newName =>
                  ns.renameNotSameParent env src dst oldName newName flags

/-- A turn of the commit thread of a client. -/
def commit (client : Nat) : Namespace :=
  { ns with
    clients := Function.update ns.clients client
      { ns.clients client with journal := (ns.clients client).journal.commitAll } }

end Namespace

/-- What happens to a namespace.  The name in a request is taken from its path. -/
inductive FsOp where
  | create (path : Bytes) (r : Request)
  | mkdir (path : Bytes) (r : Request)
  | symlink (src dst : Bytes) (r : Request)
  | unlink (path : Bytes)
  | rmdir (path : Bytes)
  | rename (oldPath newPath : Bytes) (flags : UInt32)
  | commit (client : Nat)

namespace FsOp

/-- An operation, at the client of the environment. -/
def run (op : FsOp) (env : Env) (ns : Namespace) : Directory.Result × Namespace :=
  match op with
  | .create path r => ns.create env path r
  | .mkdir path r => ns.mkdir env path r
  | .symlink src dst r => ns.symlink env src dst r
  | .unlink path => ns.unlink env path
  | .rmdir path => ns.rmdir env path
  | .rename oldPath newPath flags => ns.rename env oldPath newPath flags
  | .commit client => (.ret 0, ns.commit client)

/-- The lengths of the paths are `int`s: `set_name_bound` finds no names in a longer
path. -/
def Short : FsOp → Prop
  | .create path _ | .mkdir path _ | .symlink _ path _ | .unlink path | .rmdir path =>
      path.length + 1 < 2 ^ 31
  | .rename oldPath newPath _ =>
      oldPath.length + 1 < 2 ^ 31 ∧ newPath.length + 1 < 2 ^ 31
  | .commit _ => True

instance : DecidablePred Short
  | .create _ _ | .mkdir _ _ | .symlink _ _ _ | .unlink _ | .rmdir _ =>
      inferInstanceAs (Decidable (_ < _))
  | .rename _ _ _ => inferInstanceAs (Decidable (_ ∧ _))
  | .commit _ => inferInstanceAs (Decidable True)

end FsOp

end Nmfs
