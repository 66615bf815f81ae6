import Nmfs.Lib.LittleEndian
import Nmfs.Meta.Uuid
import Nmfs.Rados.Operations

/-!
# Inodes

An `inode` has a fixed-size part `_core`, which is stored as it lies in memory,
and for a symbolic link the name of its target.  The INODE object of a file is
the core, followed by the target's name.

A core read back from bytes does not bring the name with it: `deserialize`
fetches it from the INODE object, wherever the core came from.
-/

namespace Nmfs

/-- `struct timespec` -/
structure Timespec where
  sec : Int64
  nsec : Int64
deriving DecidableEq

namespace Timespec

def toBytes (t : Timespec) : Bytes :=
  Bytes.leBytes 8 t.sec.toUInt64.toNat ++ Bytes.leBytes 8 t.nsec.toUInt64.toNat

def ofBytes (bs : Bytes) : Timespec where
  sec := (UInt64.ofNat (Bytes.leNat (bs.take 8))).toInt64
  nsec := (UInt64.ofNat (Bytes.leNat (bs.drop 8))).toInt64

@[simp] theorem length_toBytes (t : Timespec) : t.toBytes.length = 16 := by
  simp [toBytes]

theorem leNat_uint64 (n : UInt64) :
    UInt64.ofNat (Bytes.leNat (Bytes.leBytes 8 n.toNat)) = n := by
  rw [Bytes.leNat_leBytes_of_lt n.toNat_lt, UInt64.ofNat_toNat]

theorem leNat_uint32 (n : UInt32) :
    UInt32.ofNat (Bytes.leNat (Bytes.leBytes 4 n.toNat)) = n := by
  rw [Bytes.leNat_leBytes_of_lt n.toNat_lt, UInt32.ofNat_toNat]

@[simp] theorem ofBytes_toBytes (t : Timespec) : ofBytes t.toBytes = t := by
  simp [ofBytes, toBytes, leNat_uint64]

theorem exists_ne (t : Timespec) : ∃ now : Timespec, now ≠ t := by
  by_cases h : t = ⟨0, 0⟩
  · exact ⟨⟨1, 0⟩, by rw [h]; decide⟩
  · exact ⟨⟨0, 0⟩, Ne.symm h⟩

end Timespec

/-- `enum meta_location`: the place of an inode or of a table -/
inductive MetaLocation where
  | LOCAL
  | REMOTE
  | UNKNOWN
  | JOURNAL
  | NOBODY
deriving DecidableEq, Repr

/-- `S_IFMT`, the bits of a mode that hold the type of the file -/
def sIFMT : UInt32 := 0o170000

/-- `S_IFDIR` -/
def sIFDIR : UInt32 := 0o040000

/-- `S_IFREG` -/
def sIFREG : UInt32 := 0o100000

/-- `S_IFLNK` -/
def sIFLNK : UInt32 := 0o120000

/-- `inode::_core` -/
structure Core where
  mode : UInt32
  uid : UInt32
  gid : UInt32
  ino : Uuid
  nlink : UInt64
  size : Int64
  atime : Timespec
  mtime : Timespec
  ctime : Timespec
  linkTargetLen : UInt32
deriving DecidableEq

namespace Core

/-- `S_ISLNK(i_mode)` -/
def isLnk (c : Core) : Bool := c.mode &&& sIFMT = sIFLNK

/-- `S_ISDIR(i_mode)` -/
def isDir (c : Core) : Bool := c.mode &&& sIFMT = sIFDIR

end Core

/-- `REG_INODE_SIZE`, the size of `struct _core` -/
def regInodeSize : Nat := 104

/-- `DIR_INODE_SIZE` -/
def dirInodeSize : Int64 := 4096

/-- `sizeof(inode)`, the size of the class: a pointer to its virtual functions,
`p_ino`, the core, `loc`, `link_target_name` and `inode_mutex` -/
def sizeofInode : Nat := 8 + 16 + 104 + 8 + 16 + 40

namespace Core

/-- The core in memory.  `i_nlink` and the end of the structure are aligned to
8 bytes; what lies in the two gaps is not specified, and never read. -/
def toBytes (c : Core) : Bytes :=
  Bytes.leBytes 4 c.mode.toNat ++ (Bytes.leBytes 4 c.uid.toNat ++
    (Bytes.leBytes 4 c.gid.toNat ++ (c.ino.data ++ (Bytes.leBytes 4 0 ++
      (Bytes.leBytes 8 c.nlink.toNat ++
        (Bytes.leBytes 8 c.size.toUInt64.toNat ++ (c.atime.toBytes ++
          (c.mtime.toBytes ++ (c.ctime.toBytes ++
            (Bytes.leBytes 4 c.linkTargetLen.toNat ++
              Bytes.leBytes 4 0))))))))))

/-- The integer in `n` bytes at an offset. -/
def field (bs : Bytes) (off n : Nat) : Nat :=
  Bytes.leNat (Bytes.slice bs off n)

def ofBytes (bs : Bytes) : Core where
  mode := UInt32.ofNat (field bs 0 4)
  uid := UInt32.ofNat (field bs 4 4)
  gid := UInt32.ofNat (field bs 8 4)
  ino := ⟨Bytes.resize (Bytes.slice bs 12 16) 16, by simp⟩
  nlink := UInt64.ofNat (field bs 32 8)
  size := (UInt64.ofNat (field bs 40 8)).toInt64
  atime := .ofBytes (Bytes.slice bs 48 16)
  mtime := .ofBytes (Bytes.slice bs 64 16)
  ctime := .ofBytes (Bytes.slice bs 80 16)
  linkTargetLen := UInt32.ofNat (field bs 96 4)

@[simp] theorem length_toBytes (c : Core) :
    c.toBytes.length = regInodeSize := by
  simp [toBytes, regInodeSize, c.ino.size]

/-- The core is read back, whatever lies behind it. -/
theorem ofBytes_toBytes (c : Core) (rest : Bytes) :
    ofBytes (c.toBytes ++ rest) = c := by
  have hino : Bytes.resize c.ino.data 16 = c.ino.data := by
    simp [Bytes.resize, c.ino.size, List.take_of_length_le]
  simp (disch := simp [c.ino.size]) only [ofBytes, field, toBytes,
    List.append_assoc, Bytes.slice_append_right, Bytes.slice_append_left,
    Bytes.length_leBytes, Timespec.length_toBytes, c.ino.size, hino,
    Nat.reduceSub, Nat.sub_self, Timespec.leNat_uint32, Timespec.leNat_uint64, Timespec.ofBytes_toBytes,
    Int64.toInt64_toUInt64]

end Core

/-- `inode`.  The name of a link's target is a pointer, which is null for other
files; a link whose length is positive has a name that is long enough. -/
structure Inode where
  pIno : Uuid
  core : Core
  linkTargetName : Option Bytes
  link : core.isLnk = true → 0 < core.linkTargetLen.toNat →
    ∃ name, linkTargetName = some name ∧
      core.linkTargetLen.toNat ≤ name.length
deriving DecidableEq

namespace Inode

section Constructors

variable (parentIno : Uuid) (owner group mode : UInt32) (ino : Uuid)
  (ts : Timespec)

/-- The core of a new inode. -/
def newCore (len : Nat) : Core where
  mode := mode
  uid := owner
  gid := group
  ino := ino
  nlink := 1
  size := 0
  atime := ts
  mtime := ts
  ctime := ts
  linkTargetLen := UInt32.ofNat len

/-- A new file or directory; `ino` is `alloc_new_ino()` or the given number. -/
def new : Inode where
  pIno := parentIno
  core := newCore owner group mode ino ts 0
  linkTargetName := none
  link := by simp [newCore]

/-- A new symbolic link. -/
def newSymlink (target : Bytes) : Inode where
  pIno := parentIno
  core := newCore owner group mode ino ts target.length
  linkTargetName := some target
  link := by
    intro _ _
    refine ⟨target, rfl, ?_⟩
    simp only [newCore, UInt32.toNat_ofNat']
    exact Nat.mod_le _ _

end Constructors

/-- The copy constructor, as the journal uses it.  It leaves `p_ino` unset. -/
def copy (i : Inode) : Inode where
  pIno := .nil
  core := i.core
  linkTargetName :=
    if i.core.isLnk ∧ 0 < i.core.linkTargetLen.toNat then i.linkTargetName
    else none
  link := by
    intro hlnk hlen
    rw [if_pos ⟨hlnk, hlen⟩]
    exact i.link hlnk hlen

def setMtime (i : Inode) (t : Timespec) : Inode where
  pIno := i.pIno
  core := { i.core with mtime := t }
  linkTargetName := i.linkTargetName
  link := i.link

def setCtime (i : Inode) (t : Timespec) : Inode where
  pIno := i.pIno
  core := { i.core with ctime := t }
  linkTargetName := i.linkTargetName
  link := i.link

def setSize (i : Inode) (size : Int64) : Inode where
  pIno := i.pIno
  core := { i.core with size := size }
  linkTargetName := i.linkTargetName
  link := i.link

def setNlink (i : Inode) (nlink : UInt64) : Inode where
  pIno := i.pIno
  core := { i.core with nlink := nlink }
  linkTargetName := i.linkTargetName
  link := i.link

def setPIno (i : Inode) (pIno : Uuid) : Inode where
  pIno := pIno
  core := i.core
  linkTargetName := i.linkTargetName
  link := i.link

def serialize (i : Inode) : Bytes :=
  i.core.toBytes ++
    if i.core.isLnk ∧ 0 < i.core.linkTargetLen.toNat then
      (i.linkTargetName.getD []).take i.core.linkTargetLen.toNat
    else List.replicate i.core.linkTargetLen.toNat 0

/-- The second half of `deserialize`: the name of a link's target is read from
the INODE object into a string of the right length. -/
def withLink (core : Core) : IoProg Inode :=
  if _h : core.isLnk then do
    let bl ← RadosIo.read .INODE (uuidToString core.ino)
      core.linkTargetLen.toNat regInodeSize
    return {
      pIno := .nil
      core := core
      linkTargetName := some (Bytes.resize bl core.linkTargetLen.toNat)
      link := fun _ _ => ⟨_, rfl, by simp⟩ }
  else
    .ret {
      pIno := .nil
      core := core
      linkTargetName := none
      link := fun hlnk => absurd hlnk _h }

/-- `value` is what lies behind the pointer. -/
def deserialize (value : Bytes) : IoProg Inode :=
  if value.length < regInodeSize then .fault .undefinedBehaviour
  else withLink (Core.ofBytes value)

/-- `inode::sync` -/
def sync (i : Inode) : IoProg Unit := do
  let _ ← RadosIo.write .INODE (uuidToString i.core.ino) i.serialize 0
  return ()

/-- The constructor `inode(uuid ino)`, which pulls the metadata. -/
def pull (ino : Uuid) : IoProg Inode :=
  Prog.tryCatch (do
      let bl ← RadosIo.read .INODE (uuidToString ino) regInodeSize 0
      deserialize (Bytes.resize bl regInodeSize)) fun
    | .noSuchObject _ =>
        .throw (.noEntry "No such file or Directory: in inode(ino) constructor")
    | e => .throw e

/-- The target of a symbolic link. -/
def linkTarget (i : Inode) : Bytes :=
  if i.core.isLnk then i.linkTargetName.getD [] else []

/-- The same attributes and link target. -/
def Same (i j : Inode) : Prop :=
  i.core = j.core ∧ i.linkTarget = j.linkTarget

theorem length_serialize (i : Inode) :
    i.serialize.length = regInodeSize + i.core.linkTargetLen.toNat := by
  rw [serialize, List.length_append, Core.length_toBytes]
  split
  · rename_i h
    obtain ⟨name, hname, hlen⟩ := i.link h.1 h.2
    simp [hname, hlen]
  · simp

/-- Nothing but the core is taken from the bytes. -/
theorem deserialize_serialize (i : Inode) (rest : Bytes) :
    deserialize (i.serialize ++ rest) = withLink i.core := by
  have hlen : ¬ (i.serialize ++ rest).length < regInodeSize := by
    rw [List.length_append, length_serialize]
    omega
  rw [deserialize, if_neg hlen, serialize, List.append_assoc,
    Core.ofBytes_toBytes]

/-- The INODE object of a symbolic link holds its target. -/
def LinkStored (p : Pool) (i : Inode) : Prop :=
  i.core.isLnk = true → ∃ bl,
    (RadosIo.read .INODE (uuidToString i.core.ino) i.core.linkTargetLen.toNat
      regInodeSize).run Pool.handle p = (.ok bl, p) ∧
    Bytes.resize bl i.core.linkTargetLen.toNat = i.linkTarget

theorem withLink_of_not_lnk
    {c : Core} (h : c.isLnk = false) :
    ∃ j : Inode, withLink c = .ret j ∧ j.core = c ∧ j.linkTarget = [] := by
  refine ⟨_, by rw [withLink, dif_neg (by simp [h])], rfl, ?_⟩
  simp [linkTarget, h]

/-- The link is read only, and the core is the given one. -/
theorem run_withLink
    (c : Core) (p : Pool) :
    ((withLink c).run Pool.handle p).2 = p ∧
      ∀ j p', (withLink c).run Pool.handle p = (.ok j, p') → j.core = c := by
  cases hlnk : c.isLnk with
  | false =>
      obtain ⟨j, hj, hcore, -⟩ := withLink_of_not_lnk hlnk
      rw [hj]
      refine ⟨rfl, ?_⟩
      rintro j' p' hrun
      cases hrun
      exact hcore
  | true =>
      have hkeep := RadosIo.run_read_snd .INODE (uuidToString c.ino)
        c.linkTargetLen.toNat regInodeSize p
      rcases hrun : (RadosIo.read .INODE (uuidToString c.ino)
        c.linkTargetLen.toNat regInodeSize).run Pool.handle p with ⟨o, p₁⟩
      rw [hrun] at hkeep
      simp only at hkeep
      subst hkeep
      rw [withLink, dif_pos hlnk, Prog.run_bind, hrun]
      cases o with
      | throws e => simp
      | faults x => simp
      | ok bl =>
          refine ⟨rfl, ?_⟩
          rintro j p' hj
          cases hj
          rfl

/-- The inode comes back exactly if its link is stored. -/
theorem run_withLink_iff (p : Pool) (i : Inode) :
    (∃ j p', (withLink i.core).run Pool.handle p = (.ok j, p') ∧ i.Same j) ↔
      i.LinkStored p := by
  cases hlnk : i.core.isLnk with
  | false =>
      obtain ⟨j, hj, hcore, htarget⟩ := withLink_of_not_lnk hlnk
      simp only [LinkStored, hlnk, Bool.false_eq_true, false_implies, iff_true]
      refine ⟨j, p, by rw [hj]; rfl, hcore.symm, ?_⟩
      rw [htarget, linkTarget, hlnk]
      rfl
  | true =>
      have hkeep := RadosIo.run_read_snd .INODE (uuidToString i.core.ino)
        i.core.linkTargetLen.toNat regInodeSize p
      rcases hrun : (RadosIo.read .INODE (uuidToString i.core.ino)
        i.core.linkTargetLen.toNat regInodeSize).run Pool.handle p with ⟨o, p₁⟩
      rw [hrun] at hkeep
      simp only at hkeep
      subst hkeep
      rw [withLink, dif_pos hlnk, Prog.run_bind, hrun]
      simp only [LinkStored, hlnk, hrun, Prod.mk.injEq, true_implies, and_true]
      cases o with
      | throws e => simp
      | faults x => simp
      | ok bl =>
          simp only [Prog.pure_eq_ret, Prog.run_ret, Prod.mk.injEq,
            Outcome.ok.injEq, Inode.Same]
          constructor
          · rintro ⟨j, p', ⟨rfl, -⟩, -, htarget⟩
            refine ⟨bl, rfl, ?_⟩
            simpa [linkTarget, hlnk] using htarget.symm
          · rintro ⟨bl', rfl, hbl⟩
            refine ⟨_, _, ⟨rfl, rfl⟩, rfl, ?_⟩
            simpa [linkTarget, hlnk] using hbl.symm

end Inode

end Nmfs
