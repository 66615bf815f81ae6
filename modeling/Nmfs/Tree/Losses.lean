import Nmfs.Rpc.CrossRename
import Nmfs.Tree.Growth

/-!
# What the operations take away from a table

A new entry takes no link away, and a removal takes the link of its name
(`Spares`).  A rename whose calls the transactions take has moved one link, and
has removed the one that had the new name.  A rename whose calls are refused has
lost a link; see `Nmfs.Directory.takeTarget_cases`.
-/

namespace Nmfs

namespace DentryTable

/-- The links of `t`, except for the names in `lost`, are links of `t'`. -/
def Spares (lost : Name → Prop) (t t' : DentryTable) : Prop :=
  ∀ n u, t.childIno n = some u → ¬ lost n → t'.childIno n = some u

section Spares

variable {lost : Name → Prop} {t t' t'' : DentryTable}

theorem Spares.refl (t : DentryTable) : Spares lost t t := fun _ _ h _ => h

theorem Spares.trans (h : Spares lost t t') (h' : Spares lost t' t'') :
    Spares lost t t'' :=
  fun n u hu hn => h' n u (h n u hu hn) hn

theorem spares_touch (t : DentryTable) (ts : Timespec) :
    Spares lost t (t.touch ts) := fun _ _ h _ => h

theorem spares_createChildInode (t : DentryTable) (name : Name) (i : Inode) :
    Spares lost t (t.createChildInode name i).2 := by
  intro n u hu _
  cases hname : t.childIno name with
  | some w => rwa [createChildInode_of_present _ _ _ (by simp [hname])]
  | none =>
      have hne : n ≠ name := by
        rintro rfl
        rw [hname] at hu
        cases hu
      rw [createChildInode_of_absent _ _ _ hname]
      exact (putChild_childIno_ne _ _ _ hne).trans hu

theorem spares_deleteChildInode (t : DentryTable) (name : Name) :
    Spares (· = name) t (t.deleteChildInode name).2 := by
  intro n u hu hne
  rw [(deleteChildInode_ne hne).1]
  exact hu

end Spares

end DentryTable

namespace Directory

open DentryTable

section Operations

variable {lost : Name → Prop} {d : Directory} {name oldName newName : Name}
  {targetI : Inode}

theorem spares_journalCall
    {t : DentryTable} (h : Spares lost t d.table) (ino : Uuid) (op : TxOp)
    {next : Directory → Reply × Directory}
    (hnext : ∀ d, Spares lost d.table (next d).2.table) :
    Spares lost t (d.journalCall ino op next).2.table :=
  journalCall_snd (P := fun d' => Spares lost t d'.table) h
    fun d' hd => hd.trans (hnext d')

theorem spares_lastCall
    {t : DentryTable} (h : Spares lost t d.table) (ino : Uuid) (op : TxOp) :
    Spares lost t (d.journalCall ino op fun d => (.ret 0, d)).2.table :=
  spares_journalCall h ino op fun _ => .refl _

theorem spares_insertDir
    (d : Directory) (name : Name) (newI : Inode) (ts : Timespec)
    {next : Directory → Reply × Directory}
    (hnext : ∀ d, Spares lost d.table (next d).2.table) :
    Spares lost d.table (d.insertDir name newI ts next).2.table :=
  spares_journalCall ((spares_createChildInode d.table name newI).trans
    (spares_touch _ ts)) _ _ hnext

theorem spares_insertReg (d : Directory) (name : Name) (i : Inode) (ts : Timespec) :
    Spares lost d.table (d.insertReg name i ts).2.table :=
  spares_lastCall ((spares_createChildInode d.table name i).trans
    (spares_touch _ ts)) _ _

theorem spares_insertSymlink (d : Directory) (name : Name) (i : Inode) :
    Spares lost d.table (d.insertSymlink name i).2.table := by
  unfold insertSymlink
  split
  · exact .refl _
  · exact spares_lastCall (spares_createChildInode d.table name i) _ _

theorem spares_removeReg (d : Directory) (name : Name) (ts : Timespec) :
    Spares (· = name) d.table (d.removeReg name ts).2.table := by
  intro n u hu hne
  rw [((touches_removeReg d name ts).other n hne).child]
  exact hu

theorem spares_rmdirDownHalf
    (place : Place) (targetIno : Uuid) (targetName : Name) (ts : Timespec)
    (d : Directory) :
    Spares (· = targetName) d.table
      (rmdirDownHalf place targetIno targetName ts d).2.table := by
  have hdown : Spares (· = targetName) d.table
      (d.removeDir targetName targetIno ts).2.table :=
    spares_lastCall ((spares_deleteChildInode d.table targetName).trans
      (spares_touch _ ts)) _ _
  cases place with
  | LOCAL => exact hdown
  | REMOTE net =>
      cases net with
      | requestLost => exact .refl _
      | replyLost => exact hdown
      | delivered =>
          simp only [rmdirDownHalf, remote]
          split
          · rename_i heq
            obtain ⟨-, rfl⟩ := Prod.mk.inj heq
            exact hdown
          · rename_i heq
            obtain ⟨-, rfl⟩ := Prod.mk.inj heq
            exact hdown

/-- A directory is removed only if it is empty. -/
theorem rmdirTopHalf_empty
    {place : Place} (h : (rmdirTopHalf place d).1 = .ret 0) :
    ∀ n, d.table.childIno n = none := by
  have hself : d.removeSelf.1 = .ret 0 → d.table.getChildNum = 0 := by
    intro hret
    unfold removeSelf at hret
    split at hret
    · cases hret
    · rename_i hpos
      omega
  rw [← getChildNum_eq_zero_iff]
  cases place with
  | LOCAL => exact hself h
  | REMOTE net =>
      cases net with
      | requestLost => cases h
      | replyLost => cases h
      | delivered =>
          refine hself ?_
          simp only [rmdirTopHalf, remote, rpcRmdirTop] at h
          cases hr : d.removeSelf.1 with
          | throws e =>
              rw [hr] at h
              cases h
          | ret n =>
              rw [hr] at h
              cases h
              rfl

end Operations

end Directory

namespace NsOp

open DentryTable Directory

/-- The name that an operation removes. -/
def Loses : NsOp → Name → Prop
  | .unlink name, n => n = name
  | .create _, _ | .mkdir _, _ | .symlink _, _ | .rename _ _ _ _, _ => False

theorem spares_perform
    {op : NsOp} (h : op.isRename = false) (ts : Timespec) (d : Directory) :
    Spares op.Loses d.table (op.perform ts d).2.table := by
  cases op with
  | create r => exact spares_insertReg d r.name (d.newRegInode r) r.ts
  | mkdir r =>
      exact spares_insertDir d r.name (d.newDirInode d.clientUid d.clientGid r) r.ts
        fun d' => spares_lastCall (.refl d'.table) _ _
  | symlink r => exact spares_insertSymlink d r.name (d.newSymlinkInode r)
  | unlink name => exact spares_removeReg d name ts
  | rename parent oldName newName flags => cases h

theorem spares_handle
    {op : NsOp} (h : op.isRename = false) (ts : Timespec) (d : Directory)
    (c : Client) : Spares op.Loses d.table (op.handle ts d c).2.table := by
  cases op with
  | create r => exact spares_insertReg d r.name (d.newRegInode r) r.ts
  | mkdir r =>
      exact spares_insertDir d r.name (d.newDirInode c.uid c.gid r) r.ts
        fun d' => .refl d'.table
  | symlink r => exact spares_insertSymlink d r.name (d.newSymlinkInode r)
  | unlink name => exact spares_removeReg d name ts
  | rename parent oldName newName flags => cases h

end NsOp

namespace TxOp

/-- A name is not removed twice. -/
theorem not_accepted_twice
    {tx : Transaction} {s s' : Inode} {name : Name} {i j : Inode} {ops : List TxOp} :
    ¬ Accepted tx (.rmreg s name i :: .rmreg s' name j :: ops) := by
  rintro ⟨hfirst, hsecond, -⟩
  have hdead : ((TxOp.rmreg s name i).apply tx).2.hasDentry name false = true := by
    simp only [TxOp.apply, Transaction.rmreg] at hfirst ⊢
    split at hfirst
    · cases hfirst
    · rename_i hcommitted
      rw [if_neg hcommitted]
      split at hfirst
      · cases hfirst
      · rename_i hdead
        rw [if_neg hdead]
        split at hfirst
        · cases hfirst
        · simp [Transaction.hasDentry]
  generalize ((TxOp.rmreg s name i).apply tx).2 = tx' at hsecond hdead
  simp only [TxOp.apply, Transaction.rmreg, hdead, if_true] at hsecond
  split at hsecond
  · cases hsecond
  · cases hsecond

/-- Only the inode number of a new file matters. -/
theorem mkreg_congr
    {tx : Transaction} {s : Inode} {name : Name} {i j : Inode}
    (h : i.core.ino = j.core.ino) :
    ((TxOp.mkreg s name i).apply tx).1 = ((TxOp.mkreg s name j).apply tx).1 := by
  have hfile : tx.fInodes.lookup i.core.ino = tx.fInodes.lookup j.core.ino := by
    rw [h]
  simp only [TxOp.apply, Transaction.mkreg, hfile]
  split
  · rfl
  · split
    · rfl
    · rcases tx.fInodes.lookup j.core.ino with _ | _ | _
      · rfl
      · rfl
      · rfl

theorem accepted_concat {tx : Transaction} {ops : List TxOp} {op : TxOp} :
    Accepted tx (ops ++ [op]) ↔
      Accepted tx ops ∧ (op.apply (applyAll tx ops)).1 = .done := by
  induction ops generalizing tx with
  | nil => simp [Accepted, applyAll]
  | cons o ops ih => simp only [List.cons_append, Accepted, applyAll, ih, and_assoc]

end TxOp

namespace Directory

open DentryTable Nmfs.Path

section Rename

variable {d : Directory} {oldName newName : Name} {targetI : Inode}

/-- The file that a rename replaces. -/
def replaced (d : Directory) (newName : Name) : Option Inode :=
  if d.table.checkChildInode newName = .nil then none
  else d.table.childInodes.lookup newName

/-- The calls of the journal in a rename inside one directory. -/
def moveCalls (d : Directory) (selfInode : Inode) (oldName newName : Name)
    (targetI : Inode) : List TxOp :=
  ((d.replaced newName).map (.rmreg selfInode newName)).toList ++
    [.rmreg selfInode oldName targetI, .mkreg selfInode newName targetI]

/-- The transaction takes them, whatever is recorded of the directory itself. -/
def AcceptsMove (d : Directory) (oldName newName : Name) (targetI : Inode) : Prop :=
  ∀ selfInode, TxOp.Accepted (d.journal.getEntry d.dirIno)
    (d.moveCalls selfInode oldName newName targetI)

/-- The new name leads to the file, and no third name has changed. -/
structure Relinks (old new : Name) (x : Uuid) (t t' : DentryTable) : Prop where
  spares : Spares (fun n => n = old ∨ n = new) t t'
  linked : t'.childIno new = some x

theorem moveName_relinks
    (hold : d.table.childInodes.lookup oldName = some targetI)
    (hfree : oldName = newName ∨ d.table.childIno newName = none)
    (h : TxOp.Accepted (d.journal.getEntry d.dirIno)
      [.rmreg d.table.thisDirInode oldName targetI,
        .mkreg d.table.thisDirInode newName targetI]) :
    Relinks oldName newName targetI.core.ino d.table
      (d.moveName oldName newName targetI).2.table := by
  obtain ⟨hdone, hlast⟩ := h
  let d₁ : Directory := { d with
    table := d.table.dropChild oldName
    journal := (d.journal.call d.dirIno
      (.rmreg d.table.thisDirInode oldName targetI)).2 }
  have htake : d.takeTarget oldName targetI = (.ok targetI, d₁) :=
    takeTarget_accepted hold ⟨hdone, trivial⟩
  have hinsert := @insertTarget_accepted d₁ newName targetI (by
    rw [show d₁.journal.getEntry d₁.dirIno = _ from Journal.call_getEntry _ _ _]
    exact hlast)
  have habsent : d₁.table.childIno newName = none := by
    by_cases hname : newName = oldName
    · subst hname
      exact dropChild_childIno _ _
    · rw [show d₁.table = d.table.dropChild oldName from rfl,
        dropChild_childIno_ne _ _ hname]
      exact hfree.resolve_left (Ne.symm hname)
  unfold moveName
  rw [htake]
  simp only [hinsert]
  rw [createChildInode_of_absent _ _ _ habsent]
  refine ⟨?_, putChild_childIno _ _ _⟩
  intro n u hu hn
  rw [putChild_childIno_ne _ _ _ fun heq => hn (.inr heq)]
  exact (dropChild_childIno_ne _ _ fun heq => hn (.inl heq)).trans hu

theorem moveTarget_relinks
    (hold : d.table.childInodes.lookup oldName = some targetI)
    (hname : newName ≠ rootName) (hnil : d.table.childIno newName ≠ some .nil)
    (h : d.AcceptsMove oldName newName targetI) :
    Relinks oldName newName targetI.core.ino d.table
      (d.moveTarget oldName newName targetI).2.table := by
  have hcalls := h d.table.thisDirInode
  unfold moveTarget
  by_cases hcheck : d.table.checkChildInode newName = .nil
  · rw [if_neg (not_not_intro hcheck)]
    rw [moveCalls, replaced, if_pos hcheck] at hcalls
    exact moveName_relinks hold
      (.inr (Parents.childIno_of_check hname hnil hcheck)) hcalls
  · obtain ⟨i, hi⟩ := Parents.checkChildInode_present hname hcheck
    rw [if_pos hcheck]
    rw [moveCalls, replaced, if_neg hcheck, hi] at hcalls
    have hne : oldName ≠ newName := by
      rintro rfl
      exact TxOp.not_accepted_twice hcalls
    obtain ⟨hdone, hrest⟩ := hcalls
    rw [replaceTarget_accepted hi hdone]
    let d₁ : Directory := { d with
      table := d.table.dropChild newName
      journal := (d.journal.call d.dirIno
        (.rmreg d.table.thisDirInode newName i)).2 }
    have hentry : d₁.journal.getEntry d₁.dirIno =
        ((TxOp.rmreg d.table.thisDirInode newName i).apply
          (d.journal.getEntry d.dirIno)).2 := Journal.call_getEntry _ _ _
    have hmove := @moveName_relinks d₁ oldName newName targetI
      ((dropChild_childInodes_ne _ _ hne).trans hold)
      (.inr (dropChild_childIno _ _)) (by
        rw [hentry]
        exact hrest)
    refine ⟨?_, hmove.linked⟩
    intro n u hu hn
    exact hmove.spares n u
      ((dropChild_childIno_ne _ _ fun heq => hn (.inr heq)).trans hu) hn

/-- What a rename inside one directory leaves of the other links. -/
def SparesOrRelinks (oldPath newPath : Bytes) (flags : UInt32)
    (t t' : DentryTable) : Prop :=
  Spares (fun _ => False) t t' ∨ flags = 0 ∧ ∃ oldName newName targetI,
    getFilenameFromPath oldPath = .ok oldName ∧
    getFilenameFromPath newPath = .ok newName ∧
    t.childInodes.lookup oldName = some targetI ∧
    Relinks oldName newName targetI.core.ino t t'

/-- The transaction takes the calls of a rename of these paths. -/
def AcceptsPaths (d : Directory) (oldPath newPath : Bytes) : Prop :=
  ∀ oldName newName targetI, getFilenameFromPath oldPath = .ok oldName →
    getFilenameFromPath newPath = .ok newName →
    d.table.childInodes.lookup oldName = some targetI →
    newName ≠ rootName ∧ d.table.childIno newName ≠ some .nil ∧
      d.AcceptsMove oldName newName targetI

variable {oldPath newPath : Bytes} {flags : UInt32}

theorem localRenameSameParent_relinks
    (h : flags = 0 → d.AcceptsPaths oldPath newPath) (ts : Timespec) :
    SparesOrRelinks oldPath newPath flags d.table
      (d.localRenameSameParent oldPath newPath flags ts).2.table := by
  unfold localRenameSameParent
  split
  · exact .inl (.refl _)
  · split
    · rename_i oldName newName hold hnew
      split
      · exact .inl (.refl _)
      · rename_i targetI htarget
        have hlookup := lookup_of_getChildInode htarget
        dsimp only
        split
        · rename_i hflags
          obtain ⟨hname, hnil, haccepts⟩ := h hflags _ _ _ hold hnew hlookup
          have hmove := @moveTarget_relinks { d with table := d.table.touch ts }
            oldName newName targetI hlookup hname hnil haccepts
          exact .inr ⟨hflags, oldName, newName, targetI, hold, hnew, hlookup,
            hmove.spares, hmove.linked⟩
        · exact .inl (spares_touch _ _)
    · exact .inl (.refl _)
    · exact .inl (.refl _)

theorem rpcRenameSameParent_relinks
    (h : flags = 0 → d.AcceptsPaths oldPath newPath) :
    SparesOrRelinks oldPath newPath flags d.table
      (d.rpcRenameSameParent oldPath newPath flags).2.table := by
  unfold rpcRenameSameParent
  split
  · rename_i oldName newName hold hnew
    split
    · exact .inl (.refl _)
    · rename_i targetI htarget
      have hlookup := lookup_of_getChildInode htarget
      split
      · rename_i hflags
        obtain ⟨hname, hnil, haccepts⟩ := h hflags _ _ _ hold hnew hlookup
        exact .inr ⟨hflags, oldName, newName, targetI, hold, hnew, hlookup,
          moveTarget_relinks hlookup hname hnil haccepts⟩
      · exact .inl (.refl _)
  · exact .inl (.refl _)
  · exact .inl (.refl _)

end Rename

end Directory

namespace Parents

open DentryTable Directory

variable {p : Parents} {oldName newName : Name} {targetI : Inode}

/-- A source half that refuses takes nothing. -/
theorem renameSrc_refuses
    {flags : UInt32} (h : flags ≠ 0 ∨ p.src.childInodes.lookup oldName = none)
    (a : Nat) (here : Bool) :
    ∃ e, (p.renameSrc a here oldName flags).1 = .error e ∧
      (p.renameSrc a here oldName flags).2.src = p.src := by
  unfold renameSrc localRenameNotSameParentSrc rpcRenameNotSameParentSrc getChildInode
  rw [show (p.srcDirectory a).table = p.src from rfl]
  cases hold : p.src.childInodes.lookup oldName with
  | none =>
      cases here with
      | true => exact ⟨_, rfl, rfl⟩
      | false => exact ⟨_, rfl, rfl⟩
  | some i =>
      have hflags := h.resolve_right (by rw [hold]; nofun)
      simp only [if_neg hflags]
      cases here with
      | true => exact ⟨_, rfl, rfl⟩
      | false => exact ⟨_, rfl, rfl⟩

/-- The destination half links an inode with the core that it is given. -/
theorem renameDst_links
    (b : Nat) (here : Bool) {i : Inode} (hi : i.core.ino = targetI.core.ino)
    (hname : newName ≠ rootName)
    (h : TxOp.Accepted (p.entry b p.dst.dirIno) (p.dstCalls newName targetI)) :
    ∃ j, j.core.ino = targetI.core.ino ∧
      (p.renameDst b here i (p.dst.checkChildInode newName) newName 0).2.2.dst =
        p.dstTable newName j := by
  have htaken : ∀ j : Inode, j.core.ino = targetI.core.ino →
      TxOp.Accepted (p.entry b p.dst.dirIno) (p.dstCalls newName j) := by
    intro j hj
    rw [dstCalls, TxOp.accepted_concat] at h ⊢
    refine ⟨h.1, ?_⟩
    exact (@TxOp.mkreg_congr _ _ _ (j.setPIno p.dst.dirIno)
      (targetI.setPIno p.dst.dirIno) hj).trans h.2
  cases here with
  | true =>
      refine ⟨i, hi, ?_⟩
      simp only [renameDst, localRenameNotSameParentDst, if_true,
        renameDst_table b hname (htaken i hi)]
      rfl
  | false =>
      let j := (TargetFields.ofInode i).toInode.setPIno p.dst.dirIno
      have hj : j.core.ino = targetI.core.ino := by
        rw [show j.core = i.core from Inode.core_ofInode i]
        exact hi
      refine ⟨j, hj, ?_⟩
      simp only [renameDst, handleDst, dstRequest, Inode.inodeToRenameDstRequest,
        Inode.renameDstRequestToInode, Uuid.splice_get,
        rpcRenameNotSameParentDst, if_true, Bool.false_eq_true, if_false]
      rw [renameDst_table b hname (htaken j hj)]
      rfl

/-- The links of the destination afterwards. -/
theorem dstTable_relinks
    (hname : newName ≠ rootName) (hnil : p.dst.childIno newName ≠ some .nil)
    (oldName : Name) (j : Inode) :
    Relinks oldName newName j.core.ino p.dst (p.dstTable newName j) where
  spares := by
    intro n u hu hn
    have hne : n ≠ newName := fun heq => hn (.inr heq)
    unfold dstTable
    dsimp only
    rw [(createChildInode_ne hne).1]
    split
    · exact (dropChild_childIno_ne _ _ hne).trans hu
    · exact hu
  linked := dstTable_childIno hname hnil

end Parents

end Nmfs
