import Nmfs.Journal.JournalTable
import Nmfs.Local.DentryTable

/-!
# Operations on a directory, at its leader

The operations of `local_ops` and the handlers of `rpc_server` that change the
entries of a directory.  Each of them is one critical section under the
`dentry_table_mutex` of the table: it changes the table and calls the journal.
A call that throws leaves behind what has been done before it.

The handlers of `rpc_server` repeat the local operations.  What the two share is
a definition of its own, and both are written as that definition applied to
their own values.
-/

namespace Nmfs

/-- What a request is answered with. -/
inductive Reply where
  | ret (n : Int)
  | throws (e : Exn)
deriving DecidableEq, Repr

def EEXIST : Int := 17

def ENOTEMPTY : Int := 39

def ENOSYS : Int := 38

/-- A directory at the client that leads it: its table, the journal of the
client, and the user of the client. -/
structure Directory where
  table : DentryTable
  journal : Journal
  clientUid : UInt32
  clientGid : UInt32

/-- A request for a new entry.  The environment chooses the inode number that
the constructor of `inode` allocates, and the readings of the clock. -/
structure Request where
  name : Name
  mode : UInt32
  uid : UInt32
  gid : UInt32
  src : Bytes
  newIno : Uuid
  born : Timespec
  ts : Timespec

namespace Directory

def dirIno (d : Directory) : Uuid := d.table.dirIno

/-- A call of the journal, and what comes after it. -/
def journalCall (d : Directory) (ino : Uuid) (op : TxOp)
    (next : Directory → Reply × Directory) : Reply × Directory :=
  match d.journal.call ino op with
  | (.throws e, j) => (.throws e, { d with journal := j })
  | (_, j) => next { d with journal := j }

section Creation

/-- The part that `local_mkdir` and `rpc_mkdir` share.  Nobody looks at the
result of `create_child_inode`. -/
def insertDir (d : Directory) (name : Name) (newI : Inode) (ts : Timespec)
    (next : Directory → Reply × Directory) : Reply × Directory :=
  let table := (d.table.createChildInode name newI).2.touch ts
  { d with table := table }.journalCall table.dirIno
    (.mkdir table.thisDirInode name newI.core.ino) next

/-- The inode of a new directory.  Its size is set behind the insertion, but the
table holds the same object. -/
def newDirInode (d : Directory) (uid gid : UInt32) (r : Request) : Inode :=
  (Inode.new d.dirIno uid gid (r.mode ||| sIFDIR) r.newIno r.born).setSize
    dirInodeSize

def localMkdir (d : Directory) (r : Request) : Reply × Directory :=
  let newI := d.newDirInode d.clientUid d.clientGid r
  d.insertDir r.name newI r.ts fun d =>
    d.journalCall newI.core.ino (.mkself newI) fun d => (.ret 0, d)

/-- The transaction of the new directory is left to the client that asks. -/
def rpcMkdir (d : Directory) (r : Request) : Reply × Directory :=
  d.insertDir r.name (d.newDirInode r.uid r.gid r) r.ts fun d => (.ret 0, d)

/-- The part that `local_create` and `rpc_create` share. -/
def insertReg (d : Directory) (name : Name) (i : Inode) (ts : Timespec) :
    Reply × Directory :=
  let table := (d.table.createChildInode name i).2.touch ts
  { d with table := table }.journalCall table.dirIno
    (.mkreg table.thisDirInode name i) fun d => (.ret 0, d)

/-- The inode of a new file: `rpc_create` takes the user of the leader, too. -/
def newRegInode (d : Directory) (r : Request) : Inode :=
  Inode.new d.dirIno d.clientUid d.clientGid (r.mode ||| sIFREG) r.newIno r.born

def localCreate (d : Directory) (r : Request) : Reply × Directory :=
  d.insertReg r.name (d.newRegInode r) r.ts

def rpcCreate (d : Directory) (r : Request) : Reply × Directory :=
  d.insertReg r.name (d.newRegInode r) r.ts

/-- The part that `local_symlink` and `rpc_symlink` share. -/
def insertSymlink (d : Directory) (name : Name) (i : Inode) :
    Reply × Directory :=
  if d.table.checkChildInode name ≠ .nil then (.ret (-EEXIST), d)
  else
    let table := (d.table.createChildInode name i).2
    { d with table := table }.journalCall table.dirIno
      (.mkreg table.thisDirInode name i) fun d => (.ret 0, d)

def newSymlinkInode (d : Directory) (r : Request) : Inode :=
  (Inode.newSymlink d.dirIno d.clientUid d.clientGid (sIFLNK ||| 0o777) r.newIno
    r.born r.src).setSize (Int64.ofNat r.src.length)

def localSymlink (d : Directory) (r : Request) : Reply × Directory :=
  d.insertSymlink r.name (d.newSymlinkInode r)

def rpcSymlink (d : Directory) (r : Request) : Reply × Directory :=
  d.insertSymlink r.name (d.newSymlinkInode r)

end Creation

section Removal

/-- The part that `local_unlink` and `rpc_unlink` share, except for the data. -/
def removeReg (d : Directory) (childName : Name) (ts : Timespec) :
    Reply × Directory :=
  match h : d.table.childInodes.lookup childName with
  | none => (.throws (.noEntry "No such file or directory : get_child_inode"), d)
  | some targetI =>
      let nlink := targetI.core.nlink - 1
      if nlink = 0 then
        let table := (d.table.deleteChildInode childName).2.touch ts
        { d with table := table }.journalCall table.dirIno
          (.rmreg table.thisDirInode childName targetI) fun d => (.ret 0, d)
      else
        let targetI' := targetI.setNlink nlink
        { d with table := d.table.setChild childName targetI' (by simp [h])
        }.journalCall targetI'.pIno (.chreg targetI') fun d => (.ret 0, d)

def localUnlink (d : Directory) (childName : Name) (ts : Timespec) :
    Reply × Directory :=
  d.removeReg childName ts

def rpcUnlink (d : Directory) (filename : Name) (ts : Timespec) :
    Reply × Directory :=
  d.removeReg filename ts

/-- The part that `local_rmdir_top` and `rpc_rmdir_top` share.  If it returns 0,
the table is then removed from the indexing table. -/
def removeSelf (d : Directory) : Reply × Directory :=
  if 0 < d.table.getChildNum then (.ret (-ENOTEMPTY), d)
  else d.journalCall d.dirIno .rmself fun d => (.ret 0, d)

def localRmdirTop (d : Directory) : Reply × Directory := d.removeSelf

def rpcRmdirTop (d : Directory) : Reply × Directory := d.removeSelf

/-- The part that `local_rmdir_down` and `rpc_rmdir_down` share.  Nobody looks
at the result of `delete_child_inode`. -/
def removeDir (d : Directory) (targetName : Name) (targetIno : Uuid)
    (ts : Timespec) : Reply × Directory :=
  let table := (d.table.deleteChildInode targetName).2.touch ts
  { d with table := table }.journalCall table.dirIno
    (.rmdir table.thisDirInode targetName targetIno) fun d => (.ret 0, d)

def localRmdirDown (d : Directory) (targetIno : Uuid) (targetName : Name)
    (ts : Timespec) : Reply × Directory :=
  d.removeDir targetName targetIno ts

def rpcRmdirDown (d : Directory) (targetIno : Uuid) (targetName : Name)
    (ts : Timespec) : Reply × Directory :=
  d.removeDir targetName targetIno ts

end Removal

section Rename

/-- The last part of the source half: the old name goes away. -/
def takeTarget (d : Directory) (oldName : Name) (targetI : Inode) :
    Except Exn Inode × Directory :=
  let table := (d.table.deleteChildInode oldName).2
  match { d with table := table }.journalCall table.dirIno
      (.rmreg table.thisDirInode oldName targetI) fun d => (.ret 0, d) with
  | (.ret _, d) => (.ok targetI, d)
  | (.throws e, d) => (.error e, d)

def localRenameNotSameParentSrc (d : Directory) (oldName : Name)
    (flags : UInt32) : Except Exn Inode × Directory :=
  match d.table.getChildInode oldName with
  | .error e => (.error e, d)
  | .ok targetI =>
      if flags = 0 then d.takeTarget oldName targetI
      else (.error (.runtimeError "NOT IMPLEMENTED"), d)

/-- The response has the inode and `ret` 0, or (`none`) `ret` is `-ENOSYS`. -/
def rpcRenameNotSameParentSrc (d : Directory) (oldName : Name)
    (flags : UInt32) : Except Exn (Option Inode) × Directory :=
  match d.table.getChildInode oldName with
  | .error e => (.error e, d)
  | .ok targetI =>
      if flags = 0 then
        match d.takeTarget oldName targetI with
        | (.ok i, d) => (.ok (some i), d)
        | (.error e, d) => (.error e, d)
      else (.ok none, d)

/-- The last part of a rename: the new name. -/
def insertTarget (d : Directory) (newName : Name) (targetI : Inode) :
    Reply × Directory :=
  let table := (d.table.createChildInode newName targetI).2
  { d with table := table }.journalCall table.dirIno
    (.mkreg table.thisDirInode newName targetI) fun d => (.ret 0, d)

/-- The file that had the new name goes away. -/
def replaceTarget (d : Directory) (newName : Name)
    (next : Directory → Reply × Directory) : Reply × Directory :=
  match d.table.getChildInode newName with
  | .error e => (.throws e, d)
  | .ok checkDstI =>
      let table := (d.table.deleteChildInode newName).2
      { d with table := table }.journalCall table.dirIno
        (.rmreg table.thisDirInode newName checkDstI) next

/-- The part that the two destination halves share.  `checkDstIno` is what the
new name has led to before the source half. -/
def renameDst (d : Directory) (newName : Name) (targetI : Inode)
    (checkDstIno : Uuid) : Reply × Directory :=
  let targetI := targetI.setPIno d.dirIno
  if checkDstIno ≠ .nil then
    d.replaceTarget newName fun d => d.insertTarget newName targetI
  else d.insertTarget newName targetI

def localRenameNotSameParentDst (d : Directory) (targetI : Inode)
    (checkDstIno : Uuid) (newName : Name) (flags : UInt32) : Reply × Directory :=
  if flags = 0 then d.renameDst newName targetI checkDstIno
  else (.throws (.runtimeError "NOT IMPLEMENTED"), d)

def rpcRenameNotSameParentDst (d : Directory) (targetI : Inode)
    (checkDstIno : Uuid) (newName : Name) (flags : UInt32) : Reply × Directory :=
  if flags = 0 then d.renameDst newName targetI checkDstIno
  else (.ret (-ENOSYS), d)

end Rename

end Directory

end Nmfs
