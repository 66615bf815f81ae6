import Nmfs.Local.ExclusiveCreate
import Nmfs.Tree.Namespace

/-!
# What a rename answers

The numbers that `fuse_ops::rename` returns, in whatever state and for whatever
paths: `-EINVAL` is one of them only for two paths with one parent of which the
new one lies inside the old one, and `-ENOTEMPTY` is none of them.
-/

namespace Nmfs

/-- A half of a rename returns 0 or `-ENOSYS`, if it returns. -/
def Reply.Plain (r : Reply) : Prop := ∀ n, r = .ret n → n = 0 ∨ n = -ENOSYS

theorem Reply.plain_throws (e : Exn) : (Reply.throws e).Plain := nofun

theorem Reply.plain_zero : (Reply.ret 0).Plain := by
  rintro n ⟨⟩
  exact .inl rfl

theorem Reply.plain_enosys : (Reply.ret (-ENOSYS)).Plain := by
  rintro n ⟨⟩
  exact .inr rfl

namespace Directory

section Halves

variable (d : Directory) (name oldName newName : Name) (targetI : Inode)

theorem plain_insertTarget : (d.insertTarget name targetI).1.Plain :=
  journalCall_fst Reply.plain_throws fun _ => Reply.plain_zero

theorem plain_replaceTarget
    {next : Directory → Reply × Directory} (hnext : ∀ d, (next d).1.Plain) :
    (d.replaceTarget name next).1.Plain := by
  unfold replaceTarget
  split
  · exact Reply.plain_throws _
  · exact journalCall_fst Reply.plain_throws hnext

theorem plain_moveName : (d.moveName oldName newName targetI).1.Plain := by
  unfold moveName
  split
  · exact plain_insertTarget _ _ _
  · exact Reply.plain_throws _

theorem plain_moveTarget : (d.moveTarget oldName newName targetI).1.Plain := by
  unfold moveTarget
  split
  · exact plain_replaceTarget d newName fun d => plain_moveName d _ _ _
  · exact plain_moveName d _ _ _

theorem plain_renameDst (checkDstIno : Uuid) :
    (d.renameDst newName targetI checkDstIno).1.Plain := by
  unfold renameDst
  split
  · exact plain_replaceTarget d newName fun d => plain_insertTarget d _ _
  · exact plain_insertTarget d _ _

theorem plain_rpcRenameNotSameParentDst (checkDstIno : Uuid) (flags : UInt32) :
    (d.rpcRenameNotSameParentDst targetI checkDstIno newName flags).1.Plain := by
  unfold rpcRenameNotSameParentDst
  split
  · exact plain_renameDst d _ _ _
  · exact Reply.plain_enosys

theorem plain_localRenameNotSameParentDst (checkDstIno : Uuid) (flags : UInt32) :
    (d.localRenameNotSameParentDst targetI checkDstIno newName flags).1.Plain := by
  unfold localRenameNotSameParentDst
  split
  · exact plain_renameDst d _ _ _
  · exact Reply.plain_throws _

theorem plain_rpcRenameSameParent (oldPath newPath : Bytes) (flags : UInt32) :
    (d.rpcRenameSameParent oldPath newPath flags).1.Plain := by
  unfold rpcRenameSameParent
  split
  · split
    · exact Reply.plain_throws _
    · split
      · exact plain_moveTarget d _ _ _
      · exact Reply.plain_enosys
  · exact Reply.plain_throws _
  · exact Reply.plain_throws _

theorem plain_localRenameSameParent
    {oldPath newPath : Bytes} (h : Path.inside oldPath newPath = false)
    (flags : UInt32) (ts : Timespec) :
    (d.localRenameSameParent oldPath newPath flags ts).1.Plain := by
  rw [localRenameSameParent, h, if_neg (by simp)]
  split
  · split
    · exact Reply.plain_throws _
    · dsimp only
      split
      · exact plain_moveTarget _ _ _ _
      · exact Reply.plain_enosys
  · exact Reply.plain_throws _
  · exact Reply.plain_throws _

theorem localRenameSameParent_inside
    {oldPath newPath : Bytes} (h : Path.inside oldPath newPath = true)
    (flags : UInt32) (ts : Timespec) :
    d.localRenameSameParent oldPath newPath flags ts = (.ret (-EINVAL), d) := by
  rw [localRenameSameParent, if_pos h]

end Halves

end Directory

theorem Parents.plain_renameDst
    (p : Parents) (b : Nat) (here : Bool) (targetI : Inode) (checkDstIno : Uuid)
    (newName : Name) (flags : UInt32) :
    (p.renameDst b here targetI checkDstIno newName flags).1.Plain := by
  unfold renameDst
  split
  · exact Directory.plain_localRenameNotSameParentDst _ _ _ _ _
  · have hplain := Directory.plain_rpcRenameNotSameParentDst
      (p.dstDirectory b) newName
      ((Inode.renameDstRequestToInode (p.dstRequest targetI checkDstIno newName
        flags)).setPIno (.splicePrefixAndPostfix p.dst.dirIno.getPrefixFromUuid
          p.dst.dirIno.getPostfixFromUuid))
      (.splicePrefixAndPostfix checkDstIno.getPrefixFromUuid
        checkDstIno.getPostfixFromUuid) flags
    split
    · exact Reply.plain_throws _
    · rename_i n d heq
      have hn := congrArg Prod.fst heq
      intro m hm
      exact hplain m (hn.trans hm)

namespace Namespace

open Directory Nmfs.Path

/-- The numbers that a rename returns in every state. -/
def renameCodes : List Int := [0, -EEXIST, -ENOENT, -EACCES, -ENOSYS]

/-- Two paths with one parent, of which the new one lies inside the old one. -/
def InsideSibling (oldPath newPath : Bytes) : Prop :=
  (∃ parent, getParentDirPath oldPath = .ok parent ∧
    getParentDirPath newPath = .ok parent) ∧ inside oldPath newPath = true

/-- A number that a rename returns; `-EINVAL` only if `p`. -/
def Coded (p : Prop) (r : Result) : Prop :=
  ∀ n, r = .ret n → n ∈ renameCodes ∨ p ∧ n = -EINVAL

section Coded

variable {p q : Prop}

theorem Coded.mono {r : Result} (h : Coded p r) (hpq : p → q) : Coded q r := by
  intro n hn
  exact (h n hn).imp id fun hp => ⟨hpq hp.1, hp.2⟩

theorem coded_catchRename (e : Exn) : Coded p (catchRename e) := by
  intro n h
  left
  cases e <;> cases h <;> simp [renameCodes]

theorem coded_result (e : Thrown) : Coded p (Caller.rename.result e) := by
  cases e with
  | permissionDenied =>
      rintro n ⟨⟩
      exact .inl (by simp [renameCodes])
  | exn e => exact coded_catchRename e

theorem coded_reply {r : Reply} (h : r.Plain) : Coded p (Caller.rename.reply r) := by
  cases r with
  | throws e => exact coded_catchRename e
  | ret m =>
      rintro n ⟨⟩
      left
      rcases h m rfl with rfl | rfl
      · simp [renameCodes]
      · simp [renameCodes]

end Coded

theorem plain_answered {r : Reply} (h : r.Plain) : (NsOp.answered r).Plain := by
  cases r with
  | ret n => exact h
  | throws e => exact Reply.plain_throws _

section Answers

variable (ns : Namespace) (env : Env)

/-- Only the local function refuses a path inside the other one. -/
theorem coded_renameSameParent
    (t : DentryTable) (oldPath newPath : Bytes) (flags : UInt32) :
    Coded (inside oldPath newPath = true)
      (ns.renameSameParent env t oldPath newPath flags).1 := by
  unfold renameSameParent
  split
  · cases h : inside oldPath newPath with
    | false => exact coded_reply (plain_localRenameSameParent _ h flags env.ts)
    | true =>
        intro n hn
        dsimp only at hn
        rw [localRenameSameParent_inside _ h] at hn
        cases hn
        exact .inr ⟨rfl, rfl⟩
  · exact coded_reply (plain_answered (plain_rpcRenameSameParent _ _ _ _))

theorem coded_renameNotSameParent
    {p : Prop} (src dst : DentryTable) (oldName newName : Name) (flags : UInt32) :
    Coded p (ns.renameNotSameParent env src dst oldName newName flags).1 := by
  unfold renameNotSameParent
  dsimp only
  split
  · exact coded_catchRename _
  · unfold renameDst
    split
    · exact coded_result _
    · exact coded_reply (Parents.plain_renameDst _ _ _ _ _ _ _)

/-- What a rename returns, in every state. -/
theorem coded_rename (oldPath newPath : Bytes) (flags : UInt32) :
    Coded (InsideSibling oldPath newPath) (ns.rename env oldPath newPath flags).1 := by
  unfold rename
  split
  · rintro n ⟨⟩
    exact .inl (by simp [renameCodes])
  · split
    · exact coded_catchRename _
    · exact coded_catchRename _
    · rename_i srcParent dstParent hsrc hdst
      split
      · rename_i heq
        split
        · exact coded_result _
        · refine (ns.coded_renameSameParent env _ oldPath newPath flags).mono ?_
          exact fun h => ⟨⟨srcParent, hsrc, heq ▸ hdst⟩, h⟩
      · split
        · exact coded_result _
        · exact coded_result _
        · split
          · exact coded_catchRename _
          · exact coded_catchRename _
          · exact ns.coded_renameNotSameParent env _ _ _ _ flags

end Answers

end Namespace

end Nmfs
