import Nmfs.Journal.Replay

/-!
# What is still to be written

The store lags behind: what a directory has is what the store says, with the
changes of the current transaction over it.  `shown` is this view of an entry,
and `fileWrite` and `sInode` are what the transaction has for an inode.

A commit and a later `sync` turn the view into the store (`sync_shown`).
-/

namespace Nmfs

namespace Inode

theorem copy_copy (i : Inode) : i.copy.copy = i.copy := by
  unfold copy
  simp only [mk.injEq, true_and]
  split <;> rfl

/-- Copies remember the attributes. -/
theorem core_of_copy {i i' : Inode} (h : i.copy = i'.copy) : i.core = i'.core := by
  have hcore : i.copy.core = i'.copy.core := congrArg Inode.core h
  exact hcore

/-- The times of an inode have been set. -/
def Retimed (i i' : Inode) : Prop :=
  ∃ mtime ctime, i' = (i.setMtime mtime).setCtime ctime

theorem Retimed.refl (i : Inode) : i.Retimed i := ⟨_, _, rfl⟩

theorem Retimed.trans
    {i i' i'' : Inode} (h : i.Retimed i') (h' : i'.Retimed i'') :
    i.Retimed i'' := by
  obtain ⟨m, c, rfl⟩ := h
  obtain ⟨m', c', rfl⟩ := h'
  exact ⟨m', c', rfl⟩

theorem Retimed.core_ino {i i' : Inode} (h : i.Retimed i') :
    i'.core.ino = i.core.ino := by
  obtain ⟨m, c, rfl⟩ := h
  rfl

theorem Retimed.isDir {i i' : Inode} (h : i.Retimed i') :
    i'.core.isDir = i.core.isDir := by
  obtain ⟨m, c, rfl⟩ := h
  rfl

/-- A copy takes the times over. -/
theorem Retimed.copy
    {s i i' : Inode} (h : i.Retimed i') (hs : s.copy = i.copy) :
    ((s.setMtime i'.core.mtime).setCtime i'.core.ctime).copy = i'.copy := by
  obtain ⟨m, c, rfl⟩ := h
  exact congrArg (fun x => (x.setMtime m).setCtime c) hs

end Inode

namespace Transaction

variable {tx tx' : Transaction} {name name' : Name} {alive : Bool}
  {ino ino' : Uuid} {old : Option Uuid}

/-- What a name leads to once the transaction has been synced, if it leads to
`old` in the store. -/
def shown (tx : Transaction) (old : Option Uuid) (name : Name) : Option Uuid :=
  (tx.entryWrite name).getD old

/-- The inode of a file that the transaction will write. -/
def fileWrite (tx : Transaction) (ino : Uuid) : Option Inode :=
  (tx.fInodes.lookup ino).join

theorem entryWrite_congr
    (hstatus : tx'.status = tx.status)
    (hlookup : tx'.dentries.lookup name = tx.dentries.lookup name) :
    tx'.entryWrite name = tx.entryWrite name := by
  unfold entryWrite merged
  rw [hstatus, hlookup]

theorem entryWrite_of_lookup
    (h : tx.dentries.lookup name = some (alive, ino)) :
    tx.entryWrite name = some (if alive then some ino else none) := by
  unfold entryWrite merged
  rw [h]
  cases alive with
  | true => simp
  | false => simp

@[simp] theorem shown_new (dirIno : Uuid) : (new dirIno).shown old name = old :=
  rfl

theorem shown_of_lookup
    (h : tx.dentries.lookup name = some (alive, ino)) :
    tx.shown old name = if alive then some ino else none := by
  rw [shown, entryWrite_of_lookup h]
  rfl

@[simp] theorem shown_setDentry :
    (tx.setDentry name alive ino).shown old name =
      if alive then some ino else none :=
  shown_of_lookup (setDentry_lookup ..)

theorem shown_setDentry_ne (h : name' ≠ name) :
    (tx.setDentry name alive ino).shown old name' = tx.shown old name' := by
  rw [shown, @entryWrite_congr tx (tx.setDentry name alive ino) name' rfl
    (setDentry_lookup_ne tx name alive ino h), shown]

/-- A transaction that shows something else has not set the entry so. -/
theorem hasDentry_of_shown
    (old : Option Uuid)
    (h : ∀ ino, tx.dentries.lookup name = some (alive, ino) →
      tx.shown old name ≠ if alive then some ino else none) :
    tx.hasDentry name alive = false := by
  rw [← Bool.not_eq_true, TxOp.hasDentry_eq_true_iff]
  rintro ⟨ino, hino⟩
  exact h ino hino (shown_of_lookup hino)

@[simp] theorem fileWrite_setFInode (fi : Option Inode) :
    (tx.setFInode ino fi).fileWrite ino = fi := by
  rw [fileWrite, setFInode_lookup]
  rfl

theorem fileWrite_setFInode_ne (fi : Option Inode) (h : ino' ≠ ino) :
    (tx.setFInode ino fi).fileWrite ino' = tx.fileWrite ino' := by
  rw [fileWrite, setFInode_lookup_ne _ _ _ h, fileWrite]

/-- The transaction writes the file, if it is not the directory itself. -/
theorem inodeWrite_file
    (h : ∀ s, tx.sInode = some s → s.core.ino ≠ ino) :
    tx.inodeWrite ino = (tx.fileWrite ino).map some := by
  unfold inodeWrite fileWrite
  rcases hl : tx.fInodes.lookup ino with _ | _ | i
  · cases hs : tx.sInode with
    | none => rfl
    | some s => exact if_neg (h s hs)
  · cases hs : tx.sInode with
    | none => rfl
    | some s => exact if_neg (h s hs)
  · rfl

/-- The transaction writes the directory itself. -/
theorem inodeWrite_self
    (hself : ∀ s, tx.sInode = some s → s.core.ino = ino)
    (hfile : tx.fInodes.lookup ino = none) :
    tx.inodeWrite ino = tx.sInode.map some := by
  unfold inodeWrite
  rw [hfile]
  cases hs : tx.sInode with
  | none => rfl
  | some s => exact if_pos (hself s hs)

end Transaction

namespace TxOp

open Transaction

variable {tx : Transaction} {s f : Inode} {name : Name} {ino : Uuid}

theorem mkdir_apply
    (hopen : tx.committed = false) (hhas : tx.hasDentry name true = false) :
    (TxOp.mkdir s name ino).apply tx =
      (.done, (tx.setDentry name true ino).recordSelf s) := by
  simp [apply, Transaction.mkdir, hopen, hhas]

theorem rmdir_apply
    (hopen : tx.committed = false) (hhas : tx.hasDentry name false = false) :
    (TxOp.rmdir s name ino).apply tx =
      (.done, (tx.setDentry name false ino).recordSelf s) := by
  simp [apply, Transaction.rmdir, hopen, hhas]

theorem mkreg_apply
    (hopen : tx.committed = false) (hhas : tx.hasDentry name true = false)
    (hfile : tx.fileWrite f.core.ino = none) :
    (TxOp.mkreg s name f).apply tx =
      (.done, ((tx.setDentry name true f.core.ino).recordSelf s).setFInode
        f.core.ino (some f.copy)) := by
  simp only [apply, Transaction.mkreg, hopen, hhas, Bool.false_eq_true, if_false]
  split
  · rename_i i hi
    rw [fileWrite, hi] at hfile
    cases hfile
  · rfl

theorem rmreg_apply
    (hopen : tx.committed = false) (hhas : tx.hasDentry name false = false)
    (hfile : tx.fInodes.lookup f.core.ino ≠ some none) :
    (TxOp.rmreg s name f).apply tx =
      (.done, ((tx.setDentry name false f.core.ino).recordSelf s).setFInode
        f.core.ino none) := by
  simp only [apply, Transaction.rmreg, hopen, hhas, Bool.false_eq_true, if_false]

theorem chreg_apply (hopen : tx.committed = false) :
    (TxOp.chreg f).apply tx = (.done, tx.setFInode f.core.ino (some f.copy)) := by
  simp [apply, Transaction.chreg, hopen]

theorem chself_apply (hopen : tx.committed = false) :
    (TxOp.chself s).apply tx = (.done, { tx with sInode := some s.copy }) := by
  simp [apply, Transaction.chself, hopen]

end TxOp

namespace Journal

/-- The transactions of a directory that have been committed, in order. -/
def committed (j : Journal) (dirIno : Uuid) : List Transaction :=
  j.log.filter fun tx => tx.sIno = dirIno

@[simp] theorem call_committed (j : Journal) (ino : Uuid) (op : TxOp) (dirIno : Uuid) :
    (j.call ino op).2.committed dirIno = j.committed dirIno := rfl

/-- Of the transactions in the map, one is that of the directory. -/
theorem filter_entries
    {dirIno : Uuid} {l : List ((_ : Uuid) × Transaction)} (hkeys : l.NodupKeys)
    (howner : ∀ e ∈ l, e.2.sIno = e.1) :
    ((l.map fun e => { e.2 with committed := true }).filter
        fun tx => tx.sIno = dirIno) =
      ((l.dlookup dirIno).map fun tx => { tx with committed := true }).toList := by
  induction l with
  | nil => rfl
  | cons e l ih =>
      obtain ⟨ino, tx⟩ := e
      rw [List.nodupKeys_cons] at hkeys
      have hsIno : tx.sIno = ino := howner _ List.mem_cons_self
      have hih := ih hkeys.2 fun e he => howner e (List.mem_cons_of_mem _ he)
      by_cases hne : dirIno = ino
      · subst hne
        rw [List.dlookup_eq_none.mpr hkeys.1] at hih
        rw [List.map_cons, List.filter_cons_of_pos (by simpa using hsIno),
          List.dlookup_cons_eq, hih]
        rfl
      · rw [List.map_cons, List.filter_cons_of_neg (by
          simpa [hsIno] using Ne.symm hne), hih, List.dlookup_cons_ne _ _ hne]

/-- A turn of the commit thread commits the current transaction, if there is
one. -/
theorem commitAll_committed (j : Journal) (dirIno : Uuid) :
    j.commitAll.committed dirIno = j.committed dirIno ++
      ((j.map.lookup dirIno).map fun tx => { tx with committed := true }).toList := by
  have hentries := @filter_entries dirIno j.map.entries j.map.nodupKeys
    fun e he => (j.owner e.1 e.2 (AList.mem_lookup_iff.mpr he)).1
  rw [committed, commitAll, List.filter_append, hentries]
  rfl

end Journal

namespace MetaStore

open Transaction

variable {m m' : MetaStore} {tx : Transaction}

theorem syncAll_append
    {txs txs' : List Transaction} (h : m.syncAll txs = .ok m') :
    m.syncAll (txs ++ txs') = m'.syncAll txs' := by
  induction txs generalizing m with
  | nil =>
      cases h
      rfl
  | cons tx txs ih =>
      rw [List.cons_append, syncAll]
      rw [syncAll] at h
      cases hs : m.sync tx with
      | error e =>
          rw [hs] at h
          cases h
      | ok m₁ =>
          rw [hs] at h
          exact ih h

/-- A commit does not change what `sync` does. -/
theorem sync_commit (m : MetaStore) (tx : Transaction) :
    m.sync { tx with committed := true } = m.sync tx := rfl

/-- What the store says after a `sync` is what the transaction has shown. -/
theorem sync_shown
    (hfiles : ∀ ino i, tx.fInodes.lookup ino = some (some i) → i.core.ino = ino)
    (hstatus : tx.status ≠ .S_DELETED)
    (hload : tx.status = .S_CREATED ∨ (m.dentries tx.sIno).isSome) :
    ∃ m', m.sync tx = .ok m' ∧ (m'.dentries tx.sIno).isSome ∧
      (∀ name, m'.entry tx.sIno name = tx.shown (m.entry tx.sIno name) name) ∧
      ∀ ino, m'.inodes ino = (tx.inodeWrite ino).getD (m.inodes ino) := by
  obtain ⟨m', hsync, hinodes, hsome, hentries, -⟩ := sync_ok hfiles hstatus hload
  exact ⟨m', hsync, hsome, hentries, hinodes⟩

end MetaStore

end Nmfs
