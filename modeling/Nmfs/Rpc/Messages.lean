import Nmfs.Meta.Inode
import Nmfs.Meta.Dentry

/-!
# What the messages carry

An inode number travels as two integers of 64 bits.  A rename between two
leaders sends the whole inode, once in a response and once in a request, field
by field; protobuf delivers every field as it is.

The name of a link's target is given to protobuf as a C string, so it ends at
its first NUL byte.  That protobuf may refuse a string that is not UTF-8 is left
out: names and targets are taken to be UTF-8.
-/

namespace Nmfs

namespace Uuid

/-- `uuid_controller::get_prefix_from_uuid` -/
def getPrefixFromUuid (id : Uuid) : UInt64 :=
  UInt64.ofNat (Bytes.leNat (id.data.take 8))

/-- `uuid_controller::get_postfix_from_uuid` -/
def getPostfixFromUuid (id : Uuid) : UInt64 :=
  UInt64.ofNat (Bytes.leNat (id.data.drop 8))

/-- `uuid_controller::splice_prefix_and_postfix` -/
def splicePrefixAndPostfix (low high : UInt64) : Uuid where
  data := Bytes.leBytes 8 low.toNat ++ Bytes.leBytes 8 high.toNat
  size := by simp

theorem leBytes_half {bs : Bytes} (h : bs.length = 8) :
    Bytes.leBytes 8 (UInt64.ofNat (Bytes.leNat bs)).toNat = bs := by
  have hlt := Bytes.leNat_lt bs
  rw [h] at hlt
  rw [UInt64.toNat_ofNat_of_lt' hlt, ← h, Bytes.leBytes_leNat]

/-- An inode number comes through. -/
@[simp] theorem splice_get (id : Uuid) :
    splicePrefixAndPostfix id.getPrefixFromUuid id.getPostfixFromUuid = id := by
  apply ext_data
  have hlow : (id.data.take 8).length = 8 := by simp [id.size]
  have hhigh : (id.data.drop 8).length = 8 := by simp [id.size]
  simp only [splicePrefixAndPostfix, getPrefixFromUuid, getPostfixFromUuid]
  rw [leBytes_half hlow, leBytes_half hhigh, List.take_append_drop]

end Uuid

/-- A string that is passed on as `data()`. -/
def cString (bs : Bytes) : Bytes := bs.takeWhile (· ≠ 0)

theorem cString_of_not_mem {bs : Bytes} (h : 0 ∉ bs) : cString bs = bs := by
  induction bs with
  | nil => rfl
  | cons b bs ih =>
      simp only [List.mem_cons, not_or] at h
      have hrest := ih h.2
      simp only [cString] at hrest ⊢
      rw [List.takeWhile_cons_of_pos (by simp [Ne.symm h.1]), hrest]

/-- The fields `target_i_…`, which are the same in
`rpc_rename_not_same_parent_src_respond` and in
`rpc_rename_not_same_parent_dst_request`.  `linkTargetName` is a `string`, which
protobuf wants to be UTF-8; that check is left out. -/
structure TargetFields where
  mode : UInt32
  uid : UInt32
  gid : UInt32
  inoLow : UInt64
  inoHigh : UInt64
  nlink : UInt64
  size : Int64
  aSec : Int64
  aNsec : Int64
  mSec : Int64
  mNsec : Int64
  cSec : Int64
  cNsec : Int64
  linkTargetLen : UInt32
  linkTargetName : Bytes

/-- `rpc_rename_not_same_parent_src_respond` -/
structure RenameSrcRespond where
  target : TargetFields
  ret : Int

/-- `rpc_rename_not_same_parent_dst_request`, with the name at the end of
`new_path`. -/
structure RenameDstRequest where
  dentryTableInoLow : UInt64
  dentryTableInoHigh : UInt64
  target : TargetFields
  checkDstInoLow : UInt64
  checkDstInoHigh : UInt64
  newName : Name
  flags : UInt32

namespace TargetFields

/-- The fields of a message that nobody has filled in. -/
def empty : TargetFields :=
  ⟨0, 0, 0, 0, 0, 0, 0, 0, 0, 0, 0, 0, 0, 0, []⟩

/-- What both codecs write.  A link has a name behind its pointer. -/
def ofInode (i : Inode) : TargetFields where
  mode := i.core.mode
  uid := i.core.uid
  gid := i.core.gid
  inoLow := i.core.ino.getPrefixFromUuid
  inoHigh := i.core.ino.getPostfixFromUuid
  nlink := i.core.nlink
  size := i.core.size
  aSec := i.core.atime.sec
  aNsec := i.core.atime.nsec
  mSec := i.core.mtime.sec
  mNsec := i.core.mtime.nsec
  cSec := i.core.ctime.sec
  cNsec := i.core.ctime.nsec
  linkTargetLen := i.core.linkTargetLen
  linkTargetName :=
    if i.core.isLnk then cString (i.linkTargetName.getD []) else []

def core (m : TargetFields) : Core where
  mode := m.mode
  uid := m.uid
  gid := m.gid
  ino := .splicePrefixAndPostfix m.inoLow m.inoHigh
  nlink := m.nlink
  size := m.size
  atime := ⟨m.aSec, m.aNsec⟩
  mtime := ⟨m.mSec, m.mNsec⟩
  ctime := ⟨m.cSec, m.cNsec⟩
  linkTargetLen := m.linkTargetLen

/-- What lies behind the name in memory, if the length says more, is not
specified. -/
def name (m : TargetFields) : Bytes :=
  Bytes.resize m.linkTargetName
    (max m.linkTargetLen.toNat m.linkTargetName.length)

/-- What both codecs read.  `p_ino` is not set. -/
def toInode (m : TargetFields) : Inode where
  pIno := .nil
  core := m.core
  linkTargetName := if m.core.isLnk then some m.name else none
  link := by
    intro hlnk _
    refine ⟨m.name, by rw [if_pos hlnk], ?_⟩
    simp [name, core]

end TargetFields

namespace Inode

/-- `inode::inode_to_rename_src_response` -/
def inodeToRenameSrcResponse (i : Inode) (response : RenameSrcRespond) :
    RenameSrcRespond :=
  { response with target := .ofInode i }

/-- `inode::rename_src_response_to_inode` -/
def renameSrcResponseToInode (response : RenameSrcRespond) : Inode :=
  response.target.toInode

/-- `inode::inode_to_rename_dst_request` -/
def inodeToRenameDstRequest (i : Inode) (request : RenameDstRequest) :
    RenameDstRequest :=
  { request with target := .ofInode i }

/-- `inode::rename_dst_request_to_inode` -/
def renameDstRequestToInode (request : RenameDstRequest) : Inode :=
  request.target.toInode

/-- A link has a target without NUL bytes, and another file has none. -/
def Portable (i : Inode) : Prop :=
  if i.core.isLnk then ∃ name, i.linkTargetName = some name ∧ 0 ∉ name
  else i.linkTargetName = none

section Portable

variable {i : Inode}

theorem portable_new
    (parentIno : Uuid) (owner group mode : UInt32) (ino : Uuid) (ts : Timespec)
    (h : mode &&& sIFMT ≠ sIFLNK) :
    (Inode.new parentIno owner group mode ino ts).Portable := by
  have hlnk : (Inode.new parentIno owner group mode ino ts).core.isLnk = false := by
    simp [Inode.new, newCore, Core.isLnk, h]
  rw [Portable, hlnk]
  rfl

theorem portable_newSymlink
    (parentIno : Uuid) (owner group mode : UInt32) (ino : Uuid) (ts : Timespec)
    {target : Bytes} (hmode : mode &&& sIFMT = sIFLNK) (h : 0 ∉ target) :
    (Inode.newSymlink parentIno owner group mode ino ts target).Portable := by
  have hlnk : (Inode.newSymlink parentIno owner group mode ino ts
      target).core.isLnk = true := by
    simp [Inode.newSymlink, newCore, Core.isLnk, hmode]
  rw [Portable, hlnk]
  exact ⟨target, rfl, h⟩

/-- The inode comes through both codecs, but for `p_ino`. -/
theorem toInode_ofInode (h : i.Portable) (pIno : Uuid) :
    (TargetFields.ofInode i).toInode.setPIno pIno = i.setPIno pIno := by
  have hcore : (TargetFields.ofInode i).core = i.core := by
    simp [TargetFields.core, TargetFields.ofInode]
  have hname : (if i.core.isLnk then some (TargetFields.ofInode i).name
      else none) = i.linkTargetName := by
    unfold Portable at h
    cases hlnk : i.core.isLnk with
    | false =>
        rw [hlnk] at h
        exact h.symm
    | true =>
        rw [hlnk] at h
        obtain ⟨name, hname, hzero⟩ := h
        have hlen : i.core.linkTargetLen.toNat ≤ name.length := by
          by_cases hpos : 0 < i.core.linkTargetLen.toNat
          · obtain ⟨name', hname', hle⟩ := i.link hlnk hpos
            cases hname.symm.trans hname'
            exact hle
          · omega
        have hfield : (TargetFields.ofInode i).linkTargetName = name := by
          simp [TargetFields.ofInode, hlnk, hname, cString_of_not_mem hzero]
        have hfieldLen : (TargetFields.ofInode i).linkTargetLen =
            i.core.linkTargetLen := rfl
        rw [hname, if_pos rfl, TargetFields.name, hfield, hfieldLen,
          Nat.max_eq_right hlen]
        simp [Bytes.resize]
  simp only [setPIno, TargetFields.toInode, hcore, hname]

theorem Portable.setPIno (h : i.Portable) (pIno : Uuid) :
    (i.setPIno pIno).Portable := h

theorem Portable.of_setPIno
    {pIno : Uuid} (h : (i.setPIno pIno).Portable) : i.Portable := h

end Portable

end Inode

end Nmfs
