import Nmfs.Meta.Inode
import Nmfs.Meta.Dentry

/-!
# The table of a directory

A `dentry_table` of the client that leads a directory keeps the children twice:
their inodes in `child_inodes`, and their inode numbers in `dentries`, which is
what is written to the DENTRY object.  The names are the same in both.
-/

namespace Nmfs

/-- A `dentry_table` that is `LOCAL`. -/
structure DentryTable where
  thisDirInode : Inode
  dentries : Dentry
  childInodes : AList (fun _ : Name => Inode)
  agree : ∀ name, (childInodes.lookup name).isSome =
    (dentries.childList.lookup name).isSome

namespace DentryTable

/-- `this_dir_inode->get_ino()`, which is `dir_ino` -/
def dirIno (t : DentryTable) : Uuid := t.thisDirInode.core.ino

/-- The table of a directory without children. -/
def new (newDirInode : Inode) : DentryTable where
  thisDirInode := newDirInode
  dentries := ⟨newDirInode.core.ino, ∅⟩
  childInodes := ∅
  agree := by simp

/-- The times of the directory are set. -/
def touch (t : DentryTable) (ts : Timespec) : DentryTable :=
  { t with thisDirInode := (t.thisDirInode.setMtime ts).setCtime ts }

/-- The child is put into both maps. -/
def putChild (t : DentryTable) (filename : Name) (i : Inode) : DentryTable where
  thisDirInode := t.thisDirInode
  dentries := t.dentries.addChild filename i.core.ino
  childInodes := t.childInodes.insert filename i
  agree := by
    intro name
    unfold Dentry.addChild
    by_cases hne : name = filename
    · subst hne
      simp
    · rw [AList.lookup_insert_ne hne, AList.lookup_insert_ne hne]
      exact t.agree name

def createChildInode (t : DentryTable) (filename : Name) (i : Inode) :
    Int × DentryTable :=
  if (t.childInodes.lookup filename).isSome then (-1, t)
  else (0, t.putChild filename i)

/-- The child is taken out of both maps. -/
def dropChild (t : DentryTable) (filename : Name) : DentryTable where
  thisDirInode := t.thisDirInode
  dentries := t.dentries.deleteChild filename
  childInodes := t.childInodes.erase filename
  agree := by
    intro name
    unfold Dentry.deleteChild
    by_cases hne : name = filename
    · subst hne
      simp
    · rw [AList.lookup_erase_ne hne, AList.lookup_erase_ne hne]
      exact t.agree name

def deleteChildInode (t : DentryTable) (filename : Name) : Int × DentryTable :=
  if (t.childInodes.lookup filename).isSome then (0, t.dropChild filename)
  else (-1, t)

def getChildInode (t : DentryTable) (filename : Name) : Except Exn Inode :=
  match t.childInodes.lookup filename with
  | some i => .ok i
  | none => .error (.noEntry "No such file or directory : get_child_inode")

/-- The path of the root directory. -/
def rootName : Name := [47]

def checkChildInode (t : DentryTable) (filename : Name) : Uuid :=
  if filename = rootName then .root else t.dentries.getChildIno filename

def getChildNum (t : DentryTable) : Nat := t.dentries.childList.entries.length

/-- The object behind `child_inodes[filename]` changes. -/
def setChild (t : DentryTable) (filename : Name) (i : Inode)
    (h : (t.childInodes.lookup filename).isSome) : DentryTable where
  thisDirInode := t.thisDirInode
  dentries := t.dentries
  childInodes := t.childInodes.insert filename i
  agree := by
    intro name
    by_cases hne : name = filename
    · subst hne
      rw [AList.lookup_insert, ← t.agree name, h]
      rfl
    · rw [AList.lookup_insert_ne hne]
      exact t.agree name

/-- The inode number that `dentries` has for a name. -/
def childIno (t : DentryTable) (name : Name) : Option Uuid :=
  t.dentries.childList.lookup name

section Lookups

variable (t : DentryTable) (name : Name) (i : Inode) (ts : Timespec)

@[simp] theorem touch_dirIno : (t.touch ts).dirIno = t.dirIno := rfl

@[simp] theorem putChild_dirIno : (t.putChild name i).dirIno = t.dirIno := rfl

@[simp] theorem dropChild_dirIno : (t.dropChild name).dirIno = t.dirIno := rfl

@[simp] theorem touch_childIno (name : Name) :
    (t.touch ts).childIno name = t.childIno name := rfl

@[simp] theorem touch_childInodes :
    (t.touch ts).childInodes = t.childInodes := rfl

@[simp] theorem putChild_childIno :
    (t.putChild name i).childIno name = some i.core.ino := by
  simp [putChild, childIno, Dentry.addChild]

theorem putChild_childIno_ne {name' : Name} (h : name' ≠ name) :
    (t.putChild name i).childIno name' = t.childIno name' :=
  AList.lookup_insert_ne h

@[simp] theorem putChild_childInodes :
    (t.putChild name i).childInodes.lookup name = some i :=
  AList.lookup_insert _

theorem putChild_childInodes_ne {name' : Name} (h : name' ≠ name) :
    (t.putChild name i).childInodes.lookup name' = t.childInodes.lookup name' :=
  AList.lookup_insert_ne h

@[simp] theorem dropChild_childIno : (t.dropChild name).childIno name = none :=
  AList.lookup_erase _ _

theorem dropChild_childIno_ne {name' : Name} (h : name' ≠ name) :
    (t.dropChild name).childIno name' = t.childIno name' :=
  AList.lookup_erase_ne h

theorem dropChild_childInodes_ne {name' : Name} (h : name' ≠ name) :
    (t.dropChild name).childInodes.lookup name' = t.childInodes.lookup name' :=
  AList.lookup_erase_ne h

theorem childInodes_isSome :
    (t.childInodes.lookup name).isSome = (t.childIno name).isSome :=
  t.agree name

theorem createChildInode_of_absent (h : t.childIno name = none) :
    t.createChildInode name i = (0, t.putChild name i) := by
  rw [createChildInode, childInodes_isSome, h]
  rfl

/-- A name that exists is refused, and the table is as before. -/
theorem createChildInode_of_present (h : (t.childIno name).isSome) :
    t.createChildInode name i = (-1, t) := by
  rw [createChildInode, childInodes_isSome, h]
  rfl

theorem deleteChildInode_of_present (h : (t.childIno name).isSome) :
    t.deleteChildInode name = (0, t.dropChild name) := by
  rw [deleteChildInode, childInodes_isSome, h]
  rfl

theorem deleteChildInode_of_absent (h : t.childIno name = none) :
    t.deleteChildInode name = (-1, t) := by
  rw [deleteChildInode, childInodes_isSome, h]
  rfl

/-- A directory has no children if there is no name in its table. -/
theorem getChildNum_eq_zero_iff :
    t.getChildNum = 0 ↔ ∀ name, t.childIno name = none := by
  unfold getChildNum childIno
  rw [List.length_eq_zero_iff]
  constructor
  · intro h name
    rw [AList.lookup_eq_none]
    intro hmem
    rw [AList.mem_keys] at hmem
    simp [AList.keys, h] at hmem
  · intro h
    cases hl : t.dentries.childList.entries with
    | nil => rfl
    | cons e l =>
        have hmem : e ∈ t.dentries.childList.entries := by simp [hl]
        have hsome := AList.mem_lookup_iff.mpr hmem
        rw [h e.1] at hsome
        cases hsome

end Lookups

end DentryTable

end Nmfs
