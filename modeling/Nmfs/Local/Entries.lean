import Nmfs.Local.LocalOps

/-!
# What the operations do to the entries of a directory

The table and the current transaction of the directory both know about a name.
They do not contradict each other (`Consistent`): a name that the transaction
has added is in the table, one that it has removed is not.  Which inode the name
leads to is another matter; see `Nmfs.Local.ExclusiveCreate`.

Every operation keeps this, and says nothing about other names (`SameAt`).
-/

namespace Nmfs

namespace DentryTable

/-- The children are the same. -/
structure SameNames (t t' : DentryTable) : Prop where
  dirIno : t'.dirIno = t.dirIno
  child : ∀ name, t'.childIno name = t.childIno name
  inode : ∀ name, t'.childInodes.lookup name = t.childInodes.lookup name

theorem SameNames.refl (t : DentryTable) : SameNames t t :=
  ⟨rfl, fun _ => rfl, fun _ => rfl⟩

theorem SameNames.touch (t : DentryTable) (ts : Timespec) :
    SameNames t (t.touch ts) :=
  ⟨rfl, fun _ => rfl, fun _ => rfl⟩

section Changes

variable (t : DentryTable) (name : Name) (i : Inode)

@[simp] theorem createChildInode_dirIno :
    (t.createChildInode name i).2.dirIno = t.dirIno := by
  unfold createChildInode
  split <;> rfl

@[simp] theorem deleteChildInode_dirIno :
    (t.deleteChildInode name).2.dirIno = t.dirIno := by
  unfold deleteChildInode
  split <;> rfl

@[simp] theorem createChildInode_thisDirInode :
    (t.createChildInode name i).2.thisDirInode = t.thisDirInode := by
  unfold createChildInode
  split <;> rfl

@[simp] theorem deleteChildInode_thisDirInode :
    (t.deleteChildInode name).2.thisDirInode = t.thisDirInode := by
  unfold deleteChildInode
  split <;> rfl

variable {t name i}

theorem createChildInode_ne {name' : Name} (h : name' ≠ name) :
    (t.createChildInode name i).2.childIno name' = t.childIno name' ∧
      (t.createChildInode name i).2.childInodes.lookup name' =
        t.childInodes.lookup name' := by
  unfold createChildInode
  split
  · exact ⟨rfl, rfl⟩
  · exact ⟨t.putChild_childIno_ne name i h, t.putChild_childInodes_ne name i h⟩

theorem deleteChildInode_ne {name' : Name} (h : name' ≠ name) :
    (t.deleteChildInode name).2.childIno name' = t.childIno name' ∧
      (t.deleteChildInode name).2.childInodes.lookup name' =
        t.childInodes.lookup name' := by
  unfold deleteChildInode
  split
  · exact ⟨t.dropChild_childIno_ne name h, t.dropChild_childInodes_ne name h⟩
  · exact ⟨rfl, rfl⟩

/-- After an insertion the name exists, whether it did before or not. -/
theorem createChildInode_isSome :
    ((t.createChildInode name i).2.childIno name).isSome = true := by
  cases h : t.childIno name with
  | none =>
      rw [createChildInode_of_absent _ _ _ h, putChild_childIno]
      rfl
  | some ino =>
      rw [createChildInode_of_present _ _ _ (by simp [h]), h]
      rfl

theorem deleteChildInode_isNone :
    (t.deleteChildInode name).2.childIno name = none := by
  cases h : t.childIno name with
  | none => rw [deleteChildInode_of_absent _ _ h, h]
  | some ino =>
      rw [deleteChildInode_of_present _ _ (by simp [h]), dropChild_childIno]

end Changes

end DentryTable

namespace Directory

open DentryTable

/-- The word of the current transaction of the directory. -/
def word (d : Directory) (name : Name) : Option (Bool × Uuid) :=
  d.journal.word d.dirIno name

/-- Nothing has changed about a name. -/
structure SameAt (name : Name) (d d' : Directory) : Prop where
  dirIno : d'.dirIno = d.dirIno
  child : d'.table.childIno name = d.table.childIno name
  inode : d'.table.childInodes.lookup name = d.table.childInodes.lookup name
  entry : d'.journal.entry d.dirIno name = d.journal.entry d.dirIno name

/-- The current transaction does not contradict the table. -/
structure Consistent (d : Directory) : Prop where
  alive : ∀ name ino, d.word name = some (true, ino) →
    (d.table.childIno name).isSome
  dead : ∀ name ino, d.word name = some (false, ino) →
    d.table.childIno name = none

section Frame

variable {d d' d'' : Directory} {name : Name}

theorem SameAt.refl (d : Directory) : SameAt name d d :=
  ⟨rfl, rfl, rfl, rfl⟩

theorem SameAt.trans
    (h : SameAt name d d') (h' : SameAt name d' d'') : SameAt name d d'' where
  dirIno := h'.dirIno.trans h.dirIno
  child := h'.child.trans h.child
  inode := h'.inode.trans h.inode
  entry := by
    rw [← h.entry, ← h.dirIno]
    exact h'.entry

end Frame

section Calls

variable {d : Directory} {ino : Uuid} {op : TxOp}
  {next : Directory → Reply × Directory}

/-- The state in which `journalCall` goes on. -/
def called (d : Directory) (ino : Uuid) (op : TxOp) : Directory :=
  { d with journal := (d.journal.call ino op).2 }

theorem journalCall_of_done
    (h : (d.journal.call ino op).1 = .done) :
    d.journalCall ino op next = next (d.called ino op) := by
  unfold journalCall called
  cases hcall : d.journal.call ino op with
  | mk r j =>
      rw [hcall] at h
      simp only at h
      subst h
      rfl

theorem journalCall_of_throws
    {e : Exn} (h : (d.journal.call ino op).1 = .throws e) :
    d.journalCall ino op next = (.throws e, d.called ino op) := by
  unfold journalCall called
  cases hcall : d.journal.call ino op with
  | mk r j =>
      rw [hcall] at h
      simp only at h
      subst h
      rfl

theorem journalCall_cases
    (d : Directory) (ino : Uuid) (op : TxOp)
    (next : Directory → Reply × Directory) :
    (d.journal.call ino op).1 = .done ∧
        d.journalCall ino op next = next (d.called ino op) ∨
      (d.journal.call ino op).1 ≠ .done ∧
        ∃ e, d.journalCall ino op next = (.throws e, d.called ino op) := by
  cases h : (d.journal.call ino op).1 with
  | done => exact .inl ⟨rfl, journalCall_of_done h⟩
  | throws e => exact .inr ⟨by simp, e, journalCall_of_throws h⟩
  | committed =>
      exact absurd h (op.apply_ne_committed (d.journal.getEntry_owner ino).2)

/-- A call that returns something has gone on. -/
theorem journalCall_of_ret
    {n : Int} (h : (d.journalCall ino op next).1 = .ret n) :
    d.journalCall ino op next = next (d.called ino op) := by
  rcases journalCall_cases d ino op next with ⟨-, heq⟩ | ⟨-, e, heq⟩
  · exact heq
  · rw [heq] at h
    cases h

/-- What holds after the call holds in the end, if what comes next keeps it. -/
theorem journalCall_snd
    {P : Directory → Prop} (hcall : P (d.called ino op))
    (hnext : ∀ d, P d → P (next d).2) : P (d.journalCall ino op next).2 := by
  unfold journalCall
  cases h : d.journal.call ino op with
  | mk r j =>
      have heq : d.called ino op = { d with journal := j } := by
        rw [called, h]
      rw [heq] at hcall
      cases r with
      | throws e => exact hcall
      | done => exact hnext _ hcall
      | committed => exact hnext _ hcall

/-- A call that sets no entry. -/
theorem called_keeps_sameAt
    (d : Directory) (h : op.Keeps) (ino : Uuid) (name : Name) :
    SameAt name d (d.called ino op) :=
  ⟨rfl, rfl, rfl, (Journal.call_keeps d.journal ino op h d.dirIno name).entry⟩

theorem Consistent.called_keeps
    (hd : d.Consistent) (h : op.Keeps) (ino : Uuid) :
    (d.called ino op).Consistent := by
  have hword : ∀ name, (d.called ino op).word name = d.word name := fun name =>
    (Journal.call_keeps d.journal ino op h d.dirIno name).word
  constructor
  · intro name x hx
    rw [hword] at hx
    exact hd.alive name x hx
  · intro name x hx
    rw [hword] at hx
    exact hd.dead name x hx

/-- A table that has changed at one name, and a call that sets its entry. -/
theorem called_sets_sameAt
    {t : DentryTable} (hdir : t.dirIno = d.dirIno) {name name' : Name}
    {alive : Bool} {ino' : Uuid} (h : op.Sets name alive ino')
    (hne : name' ≠ name)
    (hother : t.childIno name' = d.table.childIno name' ∧
      t.childInodes.lookup name' = d.table.childInodes.lookup name') :
    SameAt name' d ({ d with table := t }.called t.dirIno op) where
  dirIno := hdir
  child := hother.1
  inode := hother.2
  entry := by
    rw [hdir]
    exact (Journal.call_sets_ne h hne).entry

theorem Consistent.called_sets
    (hd : d.Consistent) {t : DentryTable} (hdir : t.dirIno = d.dirIno)
    {name : Name} {alive : Bool} {ino' : Uuid} (h : op.Sets name alive ino')
    (hname : (t.childIno name).isSome = alive)
    (hother : ∀ name', name' ≠ name →
      t.childIno name' = d.table.childIno name') :
    ({ d with table := t }.called t.dirIno op).Consistent := by
  -- the word about the name has the right sign, whoever has set it
  have hsign : ∃ x, (d.journal.call t.dirIno op).2.word t.dirIno name =
      some (alive, x) := by
    rcases @Journal.call_sets d.journal t.dirIno _ _ _ _ h with
      ⟨-, ⟨x, hx⟩, hsame⟩ | ⟨-, hword⟩
    · exact ⟨x, hsame.word.trans hx⟩
    · exact ⟨ino', hword⟩
  have hword : ∀ name', name' ≠ name →
      (d.journal.call t.dirIno op).2.word t.dirIno name' = d.word name' := by
    intro name' hne
    rw [hdir]
    exact (Journal.call_sets_ne h hne).word
  obtain ⟨x, hx⟩ := hsign
  constructor
  · intro name' y hy
    rcases eq_or_ne name' name with rfl | hne
    · cases hx.symm.trans hy
      exact hname
    · exact (hother name' hne).symm ▸ hd.alive name' y ((hword name' hne) ▸ hy)
  · intro name' y hy
    rcases eq_or_ne name' name with rfl | hne
    · cases hx.symm.trans hy
      have hnone : t.childIno name' = none := by simpa using hname
      exact hnone
    · exact (hother name' hne).trans (hd.dead name' y ((hword name' hne) ▸ hy))

end Calls

/-- What an operation on `name` keeps: the entries of other names are as before,
the table and the transaction still agree, nothing is committed, and no
directory is marked as deleted. -/
structure Touches (name : Name) (d d' : Directory) : Prop where
  other : ∀ name', name' ≠ name → SameAt name' d d'
  consistent : d.Consistent → d'.Consistent
  dirIno : d'.dirIno = d.dirIno
  log : d'.journal.log = d.journal.log
  deleted : ∀ ino, (d'.journal.getEntry ino).status = .S_DELETED →
    (d.journal.getEntry ino).status = .S_DELETED

section Operations

variable {d : Directory} {name : Name}

theorem Touches.refl (d : Directory) : Touches name d d where
  other _ _ := .refl d
  consistent := id
  dirIno := rfl
  log := rfl
  deleted _ := id

theorem Touches.trans
    {d' d'' : Directory} (h : Touches name d d') (h' : Touches name d' d'') :
    Touches name d d'' where
  other name' hne := (h.other name' hne).trans (h'.other name' hne)
  consistent hd := h'.consistent (h.consistent hd)
  dirIno := h'.dirIno.trans h.dirIno
  log := h'.log.trans h.log
  deleted ino hdel := h.deleted ino (h'.deleted ino hdel)

theorem touches_keeps
    (d : Directory) {op : TxOp} (h : op.Keeps) (hop : op ≠ .rmself)
    (ino : Uuid) : Touches name d (d.called ino op) where
  other name' _ := called_keeps_sameAt d h ino name'
  consistent hd := hd.called_keeps h ino
  dirIno := rfl
  log := rfl
  deleted _ := Journal.call_deleted d.journal ino hop

/-- The name is inserted into the table, and an entry for it is recorded. -/
theorem touches_create
    {t : DentryTable} {i : Inode}
    (ht : SameNames (d.table.createChildInode name i).2 t)
    {op : TxOp} {ino : Uuid} (h : op.Sets name true ino) :
    Touches name d ({ d with table := t }.called t.dirIno op) := by
  have hdir : t.dirIno = d.dirIno := by
    rw [ht.dirIno, createChildInode_dirIno]
    rfl
  refine ⟨?_, ?_, hdir, rfl, fun _ => Journal.call_deleted _ _ h.ne_rmself⟩
  · intro name' hne
    have hother := createChildInode_ne (t := d.table) (i := i) hne
    refine called_sets_sameAt hdir h hne ⟨?_, ?_⟩
    · rw [ht.child, hother.1]
    · rw [ht.inode, hother.2]
  · intro hd
    refine hd.called_sets hdir h ?_ ?_
    · rw [ht.child, createChildInode_isSome]
    · intro name' hne
      rw [ht.child, (createChildInode_ne hne).1]

/-- The name is deleted from the table, and its removal is recorded. -/
theorem touches_delete
    {t : DentryTable} (ht : SameNames (d.table.deleteChildInode name).2 t)
    {op : TxOp} {ino : Uuid} (h : op.Sets name false ino) :
    Touches name d ({ d with table := t }.called t.dirIno op) := by
  have hdir : t.dirIno = d.dirIno := by
    rw [ht.dirIno, deleteChildInode_dirIno]
    rfl
  refine ⟨?_, ?_, hdir, rfl, fun _ => Journal.call_deleted _ _ h.ne_rmself⟩
  · intro name' hne
    have hother := deleteChildInode_ne (t := d.table) hne
    refine called_sets_sameAt hdir h hne ⟨?_, ?_⟩
    · rw [ht.child, hother.1]
    · rw [ht.inode, hother.2]
  · intro hd
    refine hd.called_sets hdir h ?_ ?_
    · rw [ht.child, deleteChildInode_isNone]
      rfl
    · intro name' hne
      rw [ht.child, (deleteChildInode_ne hne).1]

theorem touches_insertDir
    (d : Directory) (newI : Inode) (ts : Timespec)
    {next : Directory → Reply × Directory}
    (hnext : ∀ d, Touches name d (next d).2) :
    Touches name d (d.insertDir name newI ts next).2 :=
  journalCall_snd (P := Touches name d)
    (touches_create (.touch _ ts) (.mkdir _ name _))
    fun d' h => h.trans (hnext d')

theorem touches_localMkdir (d : Directory) (r : Request) :
    Touches r.name d (d.localMkdir r).2 :=
  touches_insertDir d _ r.ts fun d =>
    journalCall_snd (P := Touches r.name d) 
      (touches_keeps d (.mkself _) (by simp) _) fun _ h => h

theorem touches_rpcMkdir (d : Directory) (r : Request) :
    Touches r.name d (d.rpcMkdir r).2 :=
  touches_insertDir d _ r.ts fun d => .refl d

theorem touches_insertReg
    (d : Directory) (name : Name) (i : Inode) (ts : Timespec) :
    Touches name d (d.insertReg name i ts).2 :=
  journalCall_snd (P := Touches name d)
    (touches_create (.touch _ ts) (.mkreg _ name i)) fun _ h => h

theorem touches_insertSymlink (d : Directory) (name : Name) (i : Inode) :
    Touches name d (d.insertSymlink name i).2 := by
  unfold insertSymlink
  split
  · exact .refl d
  · exact journalCall_snd (P := Touches name d)
      (touches_create (.refl _) (.mkreg _ name i)) fun _ h => h

theorem touches_insertTarget (d : Directory) (name : Name) (i : Inode) :
    Touches name d (d.insertTarget name i).2 :=
  journalCall_snd (P := Touches name d)
    (touches_create (.refl _) (.mkreg _ name i)) fun _ h => h

theorem touches_removeReg (d : Directory) (name : Name) (ts : Timespec) :
    Touches name d (d.removeReg name ts).2 := by
  unfold removeReg
  split
  · exact .refl d
  · rename_i targetI h
    dsimp only
    split
    · exact journalCall_snd (P := Touches name d)
        (touches_delete (.touch _ ts) (.rmreg _ name targetI)) fun _ h => h
    · -- only the inode behind the name changes
      refine journalCall_snd (P := Touches name d) ?_ fun _ h => h
      have hset : ∀ h, Touches name d { d with
          table := d.table.setChild name
            (targetI.setNlink (targetI.core.nlink - 1)) h } := fun h =>
        { other := fun name' hne =>
            ⟨rfl, rfl, AList.lookup_insert_ne hne, rfl⟩
          consistent := fun hd => ⟨hd.alive, hd.dead⟩
          dirIno := rfl
          log := rfl
          deleted := fun _ => id }
      exact (hset (by simp [h])).trans (touches_keeps _ (.chreg _) (by simp) _)

theorem touches_removeDir
    (d : Directory) (name : Name) (targetIno : Uuid) (ts : Timespec) :
    Touches name d (d.removeDir name targetIno ts).2 :=
  journalCall_snd (P := Touches name d)
    (touches_delete (.touch _ ts) (.rmdir _ name targetIno)) fun _ h => h

theorem touches_replaceTarget
    (d : Directory) {next : Directory → Reply × Directory}
    (hnext : ∀ d, Touches name d (next d).2) :
    Touches name d (d.replaceTarget name next).2 := by
  unfold replaceTarget
  split
  · exact .refl d
  · rename_i i hi
    exact journalCall_snd (P := Touches name d)
      (touches_delete (.refl _) (.rmreg _ name i))
      fun d' h => h.trans (hnext d')

theorem touches_renameDst
    (d : Directory) (name : Name) (targetI : Inode) (checkDstIno : Uuid) :
    Touches name d (d.renameDst name targetI checkDstIno).2 := by
  unfold renameDst
  split
  · exact touches_replaceTarget d fun d => touches_insertTarget d name _
  · exact touches_insertTarget d name _

theorem takeTarget_snd
    {P : Directory → Prop} {targetI : Inode}
    (h : P ({ d with table := (d.table.deleteChildInode name).2 }.called
      (d.table.deleteChildInode name).2.dirIno
      (.rmreg (d.table.deleteChildInode name).2.thisDirInode name targetI))) :
    P (d.takeTarget name targetI).2 := by
  have h' := @journalCall_snd _ _ _ (fun d => (.ret 0, d)) P h fun _ h => h
  unfold takeTarget
  simp only
  split
  · rename_i d' heq
    rw [heq] at h'
    exact h'
  · rename_i e d' heq
    rw [heq] at h'
    exact h'

theorem touches_takeTarget
    (d : Directory) (name : Name) (targetI : Inode) :
    Touches name d (d.takeTarget name targetI).2 :=
  takeTarget_snd (touches_delete (.refl _) (.rmreg _ name targetI))

end Operations

/-- A turn of the commit thread. -/
def commitAll (d : Directory) : Directory :=
  { d with journal := d.journal.commitAll }

theorem commitAll_sameAt (d : Directory) (name : Name) :
    SameAt name d d.commitAll :=
  ⟨rfl, rfl, rfl, Journal.commitAll_entry d.journal d.dirIno name⟩

/-- A new transaction contradicts nothing. -/
theorem commitAll_consistent (d : Directory) : d.commitAll.Consistent := by
  have hword : ∀ name, d.commitAll.word name = none := fun name => rfl
  constructor
  · intro name ino h
    rw [hword] at h
    cases h
  · intro name ino h
    rw [hword] at h
    cases h

end Directory

end Nmfs
