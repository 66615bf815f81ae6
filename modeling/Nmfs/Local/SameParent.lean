import Nmfs.Local.TwoStep
import Nmfs.Meta.Paths

/-!
# Renames inside one directory

`local_rename_same_parent`, and its handler at the leader.  The local function
refuses a new path inside the old one, and sets the times of the directory; the
handler does neither.
-/

namespace Nmfs

def EINVAL : Int := 22

namespace Directory

open DentryTable Nmfs.Path

/-- The file gets its new name. -/
def moveName (d : Directory) (oldName newName : Name) (targetI : Inode) :
    Reply × Directory :=
  match d.takeTarget oldName targetI with
  | (.ok targetI, d) => d.insertTarget newName targetI
  | (.error e, d) => (.throws e, d)

/-- The part that the local function and the handler share. -/
def moveTarget (d : Directory) (oldName newName : Name) (targetI : Inode) :
    Reply × Directory :=
  if d.table.checkChildInode newName ≠ .nil then
    d.replaceTarget newName fun d => d.moveName oldName newName targetI
  else d.moveName oldName newName targetI

/-- The paths have the same parent, and are not equal. -/
def localRenameSameParent (d : Directory) (oldPath newPath : Bytes)
    (flags : UInt32) (ts : Timespec) : Reply × Directory :=
  if inside oldPath newPath then (.ret (-EINVAL), d)
  else
    match getFilenameFromPath oldPath, getFilenameFromPath newPath with
    | .ok oldName, .ok newName =>
        match d.table.getChildInode oldName with
        | .error e => (.throws e, d)
        | .ok targetI =>
            let d := { d with table := d.table.touch ts }
            if flags = 0 then d.moveTarget oldName newName targetI
            else (.ret (-ENOSYS), d)
    | .error e, _ => (.throws e, d)
    | .ok _, .error e => (.throws e, d)

def rpcRenameSameParent (d : Directory) (oldPath newPath : Bytes)
    (flags : UInt32) : Reply × Directory :=
  match getFilenameFromPath oldPath, getFilenameFromPath newPath with
  | .ok oldName, .ok newName =>
      match d.table.getChildInode oldName with
      | .error e => (.throws e, d)
      | .ok targetI =>
          if flags = 0 then d.moveTarget oldName newName targetI
          else (.ret (-ENOSYS), d)
  | .error e, _ => (.throws e, d)
  | .ok _, .error e => (.throws e, d)

section Frames

variable {d : Directory} {name oldName newName : Name} {targetI : Inode}

theorem insertTarget_self :
    (d.insertTarget name targetI).2.table.thisDirInode = d.table.thisDirInode :=
  journalCall_snd (P := fun d' => d'.table.thisDirInode = d.table.thisDirInode)
    (createChildInode_thisDirInode _ _ _) fun _ h => h

theorem takeTarget_self :
    (d.takeTarget name targetI).2.table.thisDirInode = d.table.thisDirInode :=
  takeTarget_snd (P := fun d' => d'.table.thisDirInode = d.table.thisDirInode)
    (deleteChildInode_thisDirInode _ _)

theorem moveName_self :
    (d.moveName oldName newName targetI).2.table.thisDirInode =
      d.table.thisDirInode := by
  have htake := @takeTarget_self d oldName targetI
  unfold moveName
  split
  · rename_i i d' heq
    rw [heq] at htake
    exact insertTarget_self.trans htake
  · rename_i e d' heq
    rw [heq] at htake
    exact htake

theorem replaceTarget_self
    {next : Directory → Reply × Directory}
    (hnext : ∀ d, (next d).2.table.thisDirInode = d.table.thisDirInode) :
    (d.replaceTarget name next).2.table.thisDirInode = d.table.thisDirInode := by
  unfold replaceTarget
  split
  · rfl
  · exact journalCall_snd
      (P := fun d' => d'.table.thisDirInode = d.table.thisDirInode)
      (deleteChildInode_thisDirInode _ _) fun d' h => (hnext d').trans h

/-- A rename at the leader does not touch the inode of the directory. -/
theorem moveTarget_self :
    (d.moveTarget oldName newName targetI).2.table.thisDirInode =
      d.table.thisDirInode := by
  unfold moveTarget
  split
  · exact replaceTarget_self fun d => moveName_self
  · exact moveName_self

end Frames

section Names

variable {d : Directory} {parent oldName newName : Name} {flags : UInt32}

/-- Two names of a directory, as FUSE passes them. -/
structure Siblings (oldName newName : Name) : Prop where
  oldSlash : slash ∉ oldName
  newSlash : slash ∉ newName
  oldNonempty : oldName ≠ []
  newNonempty : newName ≠ []

theorem localRenameSameParent_join
    (h : Siblings oldName newName) (ts : Timespec) :
    d.localRenameSameParent (join parent oldName) (join parent newName) flags ts =
      match d.table.getChildInode oldName with
      | .error e => (.throws e, d)
      | .ok targetI =>
          let d := { d with table := d.table.touch ts }
          if flags = 0 then d.moveTarget oldName newName targetI
          else (.ret (-ENOSYS), d) := by
  rw [localRenameSameParent, not_inside_join h.newSlash,
    getFilenameFromPath_join h.oldSlash h.oldNonempty,
    getFilenameFromPath_join h.newSlash h.newNonempty]
  rfl

theorem rpcRenameSameParent_join (h : Siblings oldName newName) :
    d.rpcRenameSameParent (join parent oldName) (join parent newName) flags =
      match d.table.getChildInode oldName with
      | .error e => (.throws e, d)
      | .ok targetI =>
          if flags = 0 then d.moveTarget oldName newName targetI
          else (.ret (-ENOSYS), d) := by
  rw [rpcRenameSameParent, getFilenameFromPath_join h.oldSlash h.oldNonempty,
    getFilenameFromPath_join h.newSlash h.newNonempty]

end Names

end Directory

end Nmfs
