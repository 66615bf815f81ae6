import Nmfs.Tree.Namespace

/-!
# What the operations add to a table

An operation on a directory adds one link to its table at most: to a new inode
number, or to the one that a rename moves (`Gains`).  This holds whether the
operation returns or throws, and the inodes in the table stay those that its
links name.
-/

namespace Nmfs

namespace DentryTable

/-- The inodes are those that the links name. -/
def Coherent (t : DentryTable) : Prop :=
  ∀ n i, t.childInodes.lookup n = some i → t.childIno n = some i.core.ino

theorem lookup_of_getChildInode
    {t : DentryTable} {name : Name} {i : Inode} (h : t.getChildInode name = .ok i) :
    t.childInodes.lookup name = some i := by
  unfold getChildInode at h
  split at h
  · rename_i j hj
    cases h
    exact hj
  · cases h

/-- The links of `t'` are links of `t`, or lead to `v`. -/
structure Gains (v : Option Uuid) (t t' : DentryTable) : Prop where
  dirIno : t'.dirIno = t.dirIno
  child : ∀ n u, t'.childIno n = some u → t.childIno n = some u ∨ v = some u
  coherent : t.Coherent → t'.Coherent

section Gains

variable {v : Option Uuid} {t t' t'' : DentryTable}

theorem Gains.refl (t : DentryTable) : Gains v t t :=
  ⟨rfl, fun _ _ h => .inl h, id⟩

theorem Gains.trans (h : Gains v t t') (h' : Gains v t' t'') : Gains v t t'' where
  dirIno := h'.dirIno.trans h.dirIno
  child n u hu := by
    rcases h'.child n u hu with hold | hnew
    · exact h.child n u hold
    · exact .inr hnew
  coherent ht := h'.coherent (h.coherent ht)

/-- What gains nothing may gain something. -/
theorem Gains.any (h : Gains none t t') : Gains v t t' where
  dirIno := h.dirIno
  child n u hu := .inl ((h.child n u hu).resolve_right nofun)
  coherent := h.coherent

theorem gains_touch (t : DentryTable) (ts : Timespec) : Gains v t (t.touch ts) :=
  ⟨rfl, fun _ _ h => .inl h, id⟩

theorem gains_createChildInode (t : DentryTable) (name : Name) (i : Inode) :
    Gains (some i.core.ino) t (t.createChildInode name i).2 := by
  cases hname : t.childIno name with
  | some u =>
      rw [createChildInode_of_present _ _ _ (by simp [hname])]
      exact .refl t
  | none =>
      rw [createChildInode_of_absent _ _ _ hname]
      refine ⟨rfl, ?_, ?_⟩
      · intro n u hu
        rcases eq_or_ne n name with rfl | hne
        · rw [putChild_childIno] at hu
          exact .inr hu
        · rw [putChild_childIno_ne _ _ _ hne] at hu
          exact .inl hu
      · intro ht n j hj
        rcases eq_or_ne n name with rfl | hne
        · rw [putChild_childInodes] at hj
          cases hj
          exact putChild_childIno _ _ _
        · rw [putChild_childInodes_ne _ _ _ hne] at hj
          rw [putChild_childIno_ne _ _ _ hne]
          exact ht n j hj

theorem gains_deleteChildInode (t : DentryTable) (name : Name) :
    Gains v t (t.deleteChildInode name).2 := by
  cases hname : t.childIno name with
  | none =>
      rw [deleteChildInode_of_absent _ _ hname]
      exact .refl t
  | some u =>
      rw [deleteChildInode_of_present _ _ (by simp [hname])]
      refine ⟨rfl, ?_, ?_⟩
      · intro n w hw
        rcases eq_or_ne n name with rfl | hne
        · rw [dropChild_childIno] at hw
          cases hw
        · rw [dropChild_childIno_ne _ _ hne] at hw
          exact .inl hw
      · intro ht n j hj
        rcases eq_or_ne n name with rfl | hne
        · simp [dropChild] at hj
        · rw [dropChild_childInodes_ne _ _ hne] at hj
          rw [dropChild_childIno_ne _ _ hne]
          exact ht n j hj

/-- The object of a child changes, but not its inode number. -/
theorem gains_setChild
    {name : Name} {i i' : Inode} (hi : t.childInodes.lookup name = some i)
    (hino : i'.core.ino = i.core.ino)
    (h : (t.childInodes.lookup name).isSome) : Gains v t (t.setChild name i' h) where
  dirIno := rfl
  child _ _ hu := .inl hu
  coherent ht n j hj := by
    rcases eq_or_ne n name with rfl | hne
    · have hlookup := AList.lookup_insert (a := n) (b := i') t.childInodes
      cases hlookup.symm.trans hj
      exact (ht n i hi).trans (congrArg some hino.symm)
    · exact ht n j ((AList.lookup_insert_ne hne).symm.trans hj)

end Gains

end DentryTable

namespace Directory

open DentryTable

section Operations

variable {v : Option Uuid} {d : Directory} {name oldName newName : Name}
  {targetI : Inode}

/-- A call of the journal gains nothing. -/
theorem gains_journalCall
    {t : DentryTable} (h : Gains v t d.table) (ino : Uuid) (op : TxOp)
    {next : Directory → Reply × Directory}
    (hnext : ∀ d, Gains v d.table (next d).2.table) :
    Gains v t (d.journalCall ino op next).2.table :=
  journalCall_snd (P := fun d' => Gains v t d'.table) h
    fun d' hd => hd.trans (hnext d')

/-- The last call of an operation. -/
theorem gains_lastCall
    {t : DentryTable} (h : Gains v t d.table) (ino : Uuid) (op : TxOp) :
    Gains v t (d.journalCall ino op fun d => (.ret 0, d)).2.table :=
  gains_journalCall h ino op fun _ => .refl _

theorem gains_insertDir
    (d : Directory) (name : Name) (newI : Inode) (ts : Timespec)
    {next : Directory → Reply × Directory}
    (hnext : ∀ d, Gains (some newI.core.ino) d.table (next d).2.table) :
    Gains (some newI.core.ino) d.table (d.insertDir name newI ts next).2.table :=
  gains_journalCall ((gains_createChildInode d.table name newI).trans
    (gains_touch _ ts)) _ _ hnext

theorem gains_insertReg (d : Directory) (name : Name) (i : Inode) (ts : Timespec) :
    Gains (some i.core.ino) d.table (d.insertReg name i ts).2.table :=
  gains_lastCall ((gains_createChildInode d.table name i).trans
    (gains_touch _ ts)) _ _

theorem gains_insertSymlink (d : Directory) (name : Name) (i : Inode) :
    Gains (some i.core.ino) d.table (d.insertSymlink name i).2.table := by
  unfold insertSymlink
  split
  · exact .refl _
  · exact gains_lastCall (gains_createChildInode d.table name i) _ _

theorem gains_removeReg (d : Directory) (name : Name) (ts : Timespec) :
    Gains v d.table (d.removeReg name ts).2.table := by
  unfold removeReg
  split
  · exact .refl _
  · rename_i i hi
    dsimp only
    split
    · exact gains_lastCall ((gains_deleteChildInode d.table name).trans
        (gains_touch _ ts)) _ _
    · exact gains_lastCall (gains_setChild hi (by rfl) (by simp [hi])) _ _

theorem gains_removeDir
    (d : Directory) (name : Name) (targetIno : Uuid) (ts : Timespec) :
    Gains v d.table (d.removeDir name targetIno ts).2.table :=
  gains_lastCall ((gains_deleteChildInode d.table name).trans
    (gains_touch _ ts)) _ _

theorem gains_insertTarget (d : Directory) (name : Name) (i : Inode) :
    Gains (some i.core.ino) d.table (d.insertTarget name i).2.table :=
  gains_lastCall (gains_createChildInode d.table name i) _ _

theorem gains_takeTarget (d : Directory) (name : Name) (i : Inode) :
    Gains v d.table (d.takeTarget name i).2.table :=
  takeTarget_snd (P := fun d' => Gains v d.table d'.table)
    (gains_deleteChildInode d.table name)

theorem gains_replaceTarget
    (d : Directory) (name : Name) {next : Directory → Reply × Directory}
    (hnext : ∀ d, Gains v d.table (next d).2.table) :
    Gains v d.table (d.replaceTarget name next).2.table := by
  unfold replaceTarget
  split
  · exact .refl _
  · exact gains_journalCall (gains_deleteChildInode d.table name) _ _ hnext

/-- The file that is taken is the one that is handed on. -/
theorem takeTarget_ok
    {i : Inode} {d' : Directory} (h : d.takeTarget name targetI = (.ok i, d')) :
    i = targetI := by
  unfold takeTarget at h
  simp only at h
  split at h
  · cases h
    rfl
  · cases h

theorem gains_moveName (d : Directory) (oldName newName : Name) (targetI : Inode) :
    Gains (some targetI.core.ino) d.table
      (d.moveName oldName newName targetI).2.table := by
  have htake := @gains_takeTarget (some targetI.core.ino) d oldName targetI
  unfold moveName
  split
  · rename_i i d' heq
    have hi := takeTarget_ok heq
    subst hi
    rw [heq] at htake
    exact htake.trans (gains_insertTarget d' newName i)
  · rename_i e d' heq
    rw [heq] at htake
    exact htake

theorem gains_moveTarget
    (d : Directory) (oldName newName : Name) (targetI : Inode) :
    Gains (some targetI.core.ino) d.table
      (d.moveTarget oldName newName targetI).2.table := by
  unfold moveTarget
  split
  · exact gains_replaceTarget d newName fun d => gains_moveName d oldName newName targetI
  · exact gains_moveName d oldName newName targetI

theorem gains_renameDst
    (d : Directory) (newName : Name) (targetI : Inode) (checkDstIno : Uuid) :
    Gains (some targetI.core.ino) d.table
      (d.renameDst newName targetI checkDstIno).2.table := by
  unfold renameDst
  split
  · exact gains_replaceTarget d newName fun d' =>
      gains_insertTarget d' newName (targetI.setPIno d.dirIno)
  · exact gains_insertTarget d newName (targetI.setPIno d.dirIno)

/-- What a half of `rmdir` leaves, wherever the directory is led. -/
theorem rmdirTopHalf_table (place : Place) (d : Directory) :
    (rmdirTopHalf place d).2.table = d.table := by
  have hself : d.removeSelf.2.table = d.table := by
    unfold removeSelf
    split
    · rfl
    · exact journalCall_snd (P := fun d' => d'.table = d.table) rfl fun _ h => h
  cases place with
  | LOCAL => exact hself
  | REMOTE net =>
      cases net with
      | requestLost => rfl
      | replyLost => exact hself
      | delivered =>
          simp only [rmdirTopHalf, remote]
          split
          · rename_i heq
            obtain ⟨-, rfl⟩ := Prod.mk.inj heq
            exact hself
          · rename_i heq
            obtain ⟨-, rfl⟩ := Prod.mk.inj heq
            exact hself

theorem gains_rmdirDownHalf
    (place : Place) (targetIno : Uuid) (targetName : Name) (ts : Timespec)
    (d : Directory) :
    Gains v d.table (rmdirDownHalf place targetIno targetName ts d).2.table := by
  have hdown := @gains_removeDir v d targetName targetIno ts
  cases place with
  | LOCAL => exact hdown
  | REMOTE net =>
      cases net with
      | requestLost => exact .refl _
      | replyLost => exact hdown
      | delivered =>
          simp only [rmdirDownHalf, remote]
          split
          · rename_i heq
            obtain ⟨-, rfl⟩ := Prod.mk.inj heq
            exact hdown
          · rename_i heq
            obtain ⟨-, rfl⟩ := Prod.mk.inj heq
            exact hdown

end Operations

end Directory

namespace Inode

/-- Both codecs keep the core of an inode. -/
theorem core_ofInode (i : Inode) : (TargetFields.ofInode i).core = i.core := by
  simp [TargetFields.ofInode, TargetFields.core]

end Inode

namespace NsOp

open DentryTable Directory

/-- The new inode number of a request. -/
def newIno? : NsOp → Option Uuid
  | .create r | .mkdir r | .symlink r => some r.newIno
  | .unlink _ | .rename _ _ _ _ => none

def isRename : NsOp → Bool
  | .rename _ _ _ _ => true
  | .create _ | .mkdir _ | .symlink _ | .unlink _ => false

theorem gains_perform
    {op : NsOp} (h : op.isRename = false) (ts : Timespec) (d : Directory) :
    Gains op.newIno? d.table (op.perform ts d).2.table := by
  cases op with
  | create r => exact gains_insertReg d r.name (d.newRegInode r) r.ts
  | mkdir r =>
      exact gains_insertDir d r.name (d.newDirInode d.clientUid d.clientGid r) r.ts
        fun d' => gains_lastCall (.refl d'.table) _ _
  | symlink r => exact gains_insertSymlink d r.name (d.newSymlinkInode r)
  | unlink name => exact gains_removeReg d name ts
  | rename parent oldName newName flags => cases h

theorem gains_handle
    {op : NsOp} (h : op.isRename = false) (ts : Timespec) (d : Directory)
    (c : Client) : Gains op.newIno? d.table (op.handle ts d c).2.table := by
  cases op with
  | create r => exact gains_insertReg d r.name (d.newRegInode r) r.ts
  | mkdir r =>
      exact gains_insertDir d r.name (d.newDirInode c.uid c.gid r) r.ts
        fun d' => .refl d'.table
  | symlink r => exact gains_insertSymlink d r.name (d.newSymlinkInode r)
  | unlink name => exact gains_removeReg d name ts
  | rename parent oldName newName flags => cases h

end NsOp

namespace Directory

open DentryTable

variable {d : Directory}

/-- A rename in one directory links an inode that has a link there already. -/
theorem gains_localRenameSameParent
    (oldPath newPath : Bytes) (flags : UInt32) (ts : Timespec) :
    ∃ v, (∀ u, v = some u → ∃ n i, d.table.childInodes.lookup n = some i ∧
        i.core.ino = u) ∧
      Gains v d.table (d.localRenameSameParent oldPath newPath flags ts).2.table := by
  have hnone : ∀ u, none = some u → ∃ n i, d.table.childInodes.lookup n = some i ∧
      i.core.ino = u := nofun
  unfold localRenameSameParent
  split
  · exact ⟨none, hnone, .refl _⟩
  · split
    · rename_i oldName newName _ _
      split
      · exact ⟨none, hnone, .refl _⟩
      · rename_i targetI htarget
        have hlookup := lookup_of_getChildInode htarget
        refine ⟨some targetI.core.ino, ?_, ?_⟩
        · rintro u ⟨⟩
          exact ⟨oldName, targetI, hlookup, rfl⟩
        · dsimp only
          split
          · exact (gains_touch d.table ts).trans
              (gains_moveTarget { d with table := d.table.touch ts } oldName newName
                targetI)
          · exact gains_touch d.table ts
    · exact ⟨none, hnone, .refl _⟩
    · exact ⟨none, hnone, .refl _⟩

theorem gains_rpcRenameSameParent
    (oldPath newPath : Bytes) (flags : UInt32) :
    ∃ v, (∀ u, v = some u → ∃ n i, d.table.childInodes.lookup n = some i ∧
        i.core.ino = u) ∧
      Gains v d.table (d.rpcRenameSameParent oldPath newPath flags).2.table := by
  have hnone : ∀ u, none = some u → ∃ n i, d.table.childInodes.lookup n = some i ∧
      i.core.ino = u := nofun
  unfold rpcRenameSameParent
  split
  · rename_i oldName newName _ _
    split
    · exact ⟨none, hnone, .refl _⟩
    · rename_i targetI htarget
      have hlookup := lookup_of_getChildInode htarget
      refine ⟨some targetI.core.ino, ?_, ?_⟩
      · rintro u ⟨⟩
        exact ⟨oldName, targetI, hlookup, rfl⟩
      · split
        · exact gains_moveTarget _ _ _ _
        · exact .refl _
  · exact ⟨none, hnone, .refl _⟩
  · exact ⟨none, hnone, .refl _⟩

end Directory

namespace Parents

open DentryTable Directory

variable {p : Parents}

/-- The source half removes the old name, and hands on what it led to. -/
theorem gains_renameSrc
    {v : Option Uuid} (p : Parents) (a : Nat) (here : Bool) (oldName : Name)
    (flags : UInt32) :
    Gains v p.src (p.renameSrc a here oldName flags).2.src := by
  have htake : ∀ i, Gains v p.src
      ((p.srcDirectory a).takeTarget oldName i).2.table :=
    fun i => gains_takeTarget (p.srcDirectory a) oldName i
  unfold renameSrc
  split
  · have hlocal : Gains v p.src ((p.srcDirectory a).localRenameNotSameParentSrc
        oldName flags).2.table := by
      unfold localRenameNotSameParentSrc
      split
      · exact .refl _
      · split
        · exact htake _
        · exact .refl _
    split
    · rename_i e d heq
      rw [heq] at hlocal
      exact hlocal
    · rename_i i d heq
      rw [heq] at hlocal
      exact hlocal
  · have hremote : Gains v p.src ((p.srcDirectory a).rpcRenameNotSameParentSrc
        oldName flags).2.table := by
      unfold rpcRenameNotSameParentSrc
      split
      · exact .refl _
      · rename_i i _
        split
        · have hi := htake i
          split
          · rename_i i d heq
            rw [heq] at hi
            exact hi
          · rename_i e d heq
            rw [heq] at hi
            exact hi
        · exact .refl _
    split
    · rename_i e d heq
      rw [heq] at hremote
      exact hremote
    · rename_i i d heq
      rw [heq] at hremote
      exact hremote

/-- The inode of the source half is that of the old name. -/
theorem renameSrc_ino
    {a : Nat} {here : Bool} {oldName : Name} {flags : UInt32} {i : Inode}
    {loc : MetaLocation}
    (h : (p.renameSrc a here oldName flags).1 = .ok (i, loc)) :
    ∃ j, p.src.childInodes.lookup oldName = some j ∧ i.core = j.core := by
  unfold renameSrc at h
  split at h
  · split at h
    · cases h
    · rename_i j d heq
      cases h
      unfold localRenameNotSameParentSrc at heq
      split at heq
      · cases heq
      · rename_i j hj
        split at heq
        · have hi := takeTarget_ok heq
          exact ⟨j, lookup_of_getChildInode hj, by rw [hi]⟩
        · cases heq
  · split at h
    · cases h
    · rename_i j d heq
      unfold rpcRenameNotSameParentSrc at heq
      split at heq
      · cases heq
      · rename_i j' hj'
        split at heq
        · split at heq
          · rename_i k d' htake
            cases heq
            have hk := takeTarget_ok htake
            refine ⟨j', lookup_of_getChildInode hj', ?_⟩
            rw [srcTarget, srcRespond, if_neg (by simp [ENOSYS])] at h
            cases h
            rw [← hk]
            exact Inode.core_ofInode k
          · cases heq
        · cases heq
          simp only [srcTarget, srcRespond, if_true] at h
          cases h

theorem gains_renameDst
    (p : Parents) (b : Nat) (here : Bool) (targetI : Inode) (checkDstIno : Uuid)
    (newName : Name) (flags : UInt32) :
    Gains (some targetI.core.ino) p.dst
      (p.renameDst b here targetI checkDstIno newName flags).2.2.dst := by
  unfold renameDst
  split
  · simp only [localRenameNotSameParentDst]
    split
    · exact Directory.gains_renameDst (p.dstDirectory b) newName targetI checkDstIno
    · exact .refl _
  · have hrequest : ∀ i : Inode, i.core = targetI.core → ∀ check,
        Gains (some targetI.core.ino) p.dst
          ((p.dstDirectory b).rpcRenameNotSameParentDst i check newName
            flags).2.table := by
      intro i hi check
      unfold rpcRenameNotSameParentDst
      split
      · rw [← hi]
        exact Directory.gains_renameDst (p.dstDirectory b) newName i check
      · exact .refl _
    have hhandle : Gains (some targetI.core.ino) p.dst (handleDst (p.dstDirectory b)
        (p.dstRequest targetI checkDstIno newName flags)).2.table :=
      hrequest _ (Inode.core_ofInode targetI) _
    split
    · rename_i e d heq
      rw [heq] at hhandle
      exact hhandle
    · rename_i n d heq
      rw [heq] at hhandle
      exact hhandle

end Parents

end Nmfs
