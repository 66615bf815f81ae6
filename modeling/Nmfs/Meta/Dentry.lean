import Nmfs.Meta.Buffers
import Nmfs.Meta.Uuid
import Mathlib.Data.List.AList

/-!
# Directory entries

A `dentry` is the list of the children of a directory, and its encoding in the
DENTRY object: the number of children, and for each of them the length of the
name, the name and the inode number.  It is read and written as a whole, and
only its first `OBJ_SIZE` bytes are read.
-/

namespace Nmfs

open Bytes Buffer

/-- The name of a directory entry. -/
abbrev Name := Bytes

/-- `dentry::child_list` -/
abbrev ChildList := AList (fun _ : Name => Uuid)

structure Dentry where
  thisIno : Uuid
  childList : ChildList

namespace Dentry

def addChild (d : Dentry) (filename : Name) (ino : Uuid) : Dentry :=
  { d with childList := d.childList.insert filename ino }

def deleteChild (d : Dentry) (filename : Name) : Dentry :=
  { d with childList := d.childList.erase filename }

def getChildIno (d : Dentry) (childName : Name) : Uuid :=
  (d.childList.lookup childName).getD .nil

def serializeChild (it : (_ : Name) × Uuid) : Bytes :=
  leBytes 4 it.1.length ++ (it.1 ++ it.2.data)

def serialize (d : Dentry) : Bytes :=
  leBytes 8 d.childList.entries.length ++
    d.childList.entries.flatMap serializeChild

/-- The loop of `deserialize`.  The name ends at its first zero byte, and a
name that has been read before is not replaced. -/
def readChildren (raw : Bytes) :
    (left index : Nat) → ChildList → IoProg ChildList
  | 0, _, childList => .ret childList
  | left + 1, index, childList => do
    let nameLength ← int32At raw index
    if nameLength < 0 then
      -- an array of `nameLength + 1` characters
      if nameLength = -1 then Prog.fault .undefinedBehaviour
      else Prog.throw .badAlloc
    else do
      let name ← bytesAt raw (index + 4) nameLength.toNat
      let data ← bytesAt raw (index + 4 + nameLength.toNat) 16
      let filename := name.takeWhile (· ≠ 0)
      readChildren raw left (index + 4 + nameLength.toNat + 16)
        (if childList.lookup filename = none then
          childList.insert filename ⟨resize data 16, by simp⟩
        else childList)

def deserialize (d : Dentry) (raw : Bytes) : IoProg Dentry := do
  let childNum ← bytesAt raw 0 8
  let childList ← readChildren raw (leNat childNum) 8 d.childList
  return { d with childList := childList }

/-- The constructor `dentry(uuid ino, bool mkdir)`. -/
def load (ino : Uuid) (mkdir : Bool) : IoProg Dentry :=
  if mkdir then .ret ⟨ino, ∅⟩
  else
    Prog.tryCatch (do
        let bl ← RadosIo.read .DENTRY (uuidToString ino) objSize 0
        deserialize ⟨ino, ∅⟩ (resize bl objSize)) fun
      | .noSuchObject _ =>
          .throw (.runtimeError
            ("Dentry Corrupted: inode number " ++ String.ofList (uuidToString ino)))
      | e => .throw e

/-- `dentry::sync` -/
def sync (d : Dentry) : IoProg Unit := do
  let _ ← RadosIo.write .DENTRY (uuidToString d.thisIno) d.serialize 0
  return ()

end Dentry

end Nmfs
