import Nmfs.Journal.Pending
import Nmfs.Tree.TwoCopies

/-!
# The table of a directory, and what the store will have

`Mirrors m t k tx` says that the store `m`, with the current transaction `tx` of
a directory over it, has what the table `t` has: the same entries, the
attributes of the directory, and those of every file in it.

Each journal call of an operation keeps this, together with the change of the
table that comes before it.  None of them throws: the transaction has heard of a
name or a file only what the table says too.  For this a new inode number must
be new, and one that arrives from another directory must not be that of a
directory that has been removed here (`Known`): the transaction keeps an inode
that a rename has recorded, when `rmdir` removes its entry.
-/

namespace Nmfs

/-- The inode numbers that have been in a directory, and those of the
directories that `rmdir` has removed from it. -/
structure Known where
  used : List Uuid
  dead : List Uuid

namespace Known

def add (k : Known) (ino : Uuid) : Known := { k with used := ino :: k.used }

def bury (k : Known) (ino : Uuid) : Known := { k with dead := ino :: k.dead }

end Known

namespace DentryTable

/-- A table as the operations of its leader keep it. -/
structure Tidy (t : DentryTable) (k : Known) : Prop where
  coherent : t.Coherent
  used : ∀ name ino, t.childIno name = some ino → ino ∈ k.used
  alive : ∀ name ino, t.childIno name = some ino → ino ∉ k.dead
  single : ∀ name name' ino, t.childIno name = some ino →
    t.childIno name' = some ino → name = name'
  pIno : ∀ name i, t.childInodes.lookup name = some i → i.pIno = t.dirIno
  self : t.dirIno ∉ k.used
  nil : .nil ∉ k.used
  dir : t.thisDirInode.core.isDir = true

/-- An inode that may be put into the table. -/
structure Arrives (t : DentryTable) (k : Known) (i : Inode) : Prop where
  pIno : i.pIno = t.dirIno
  unlisted : ∀ name, t.childIno name ≠ some i.core.ino
  alive : i.core.ino ∉ k.dead
  self : i.core.ino ≠ t.dirIno
  nil : i.core.ino ≠ .nil

section Tidy

variable {t t' : DentryTable} {k : Known} {name : Name} {i i' : Inode}

/-- Each name has its inode. -/
theorem exists_childInode {ino : Uuid} (h : t.childIno name = some ino) :
    ∃ i, t.childInodes.lookup name = some i := by
  have hsome := t.childInodes_isSome name
  rw [h] at hsome
  exact Option.isSome_iff_exists.mp hsome

theorem childInode_of_absent (h : t.childIno name = none) :
    t.childInodes.lookup name = none := by
  have hnone := t.childInodes_isSome name
  rw [h] at hnone
  simpa using hnone

theorem Tidy.same
    (h : t.Tidy k) (hsame : SameNames t t')
    (hdir : t'.thisDirInode.core.isDir = true) : t'.Tidy k where
  coherent n i hi := by
    rw [hsame.inode] at hi
    rw [hsame.child]
    exact h.coherent n i hi
  used n ino hn := h.used n ino (by rwa [← hsame.child])
  alive n ino hn := h.alive n ino (by rwa [← hsame.child])
  single n n' ino hn hn' := by
    rw [hsame.child] at hn hn'
    exact h.single n n' ino hn hn'
  pIno n i hi := by
    rw [hsame.inode] at hi
    rw [hsame.dirIno]
    exact h.pIno n i hi
  self := by
    rw [hsame.dirIno]
    exact h.self
  nil := h.nil
  dir := hdir

/-- What the table has for a name after an insertion. -/
theorem putChild_childIno_cases
    {n : Name} {ino : Uuid} (h : (t.putChild name i).childIno n = some ino) :
    (n = name ∧ ino = i.core.ino) ∨ (n ≠ name ∧ t.childIno n = some ino) := by
  rcases eq_or_ne n name with rfl | hne
  · rw [putChild_childIno] at h
    exact .inl ⟨rfl, (Option.some.inj h).symm⟩
  · rw [putChild_childIno_ne _ _ _ hne] at h
    exact .inr ⟨hne, h⟩

theorem putChild_childInodes_cases
    {n : Name} {j : Inode} (h : (t.putChild name i).childInodes.lookup n = some j) :
    (n = name ∧ j = i) ∨ (n ≠ name ∧ t.childInodes.lookup n = some j) := by
  rcases eq_or_ne n name with rfl | hne
  · rw [putChild_childInodes] at h
    exact .inl ⟨rfl, (Option.some.inj h).symm⟩
  · rw [putChild_childInodes_ne _ _ _ hne] at h
    exact .inr ⟨hne, h⟩

theorem dropChild_childIno_cases
    {n : Name} {ino : Uuid} (h : (t.dropChild name).childIno n = some ino) :
    n ≠ name ∧ t.childIno n = some ino := by
  rcases eq_or_ne n name with rfl | hne
  · rw [dropChild_childIno] at h
    cases h
  · rw [dropChild_childIno_ne _ _ hne] at h
    exact ⟨hne, h⟩

theorem dropChild_childInodes_cases
    {n : Name} {j : Inode} (h : (t.dropChild name).childInodes.lookup n = some j) :
    n ≠ name ∧ t.childInodes.lookup n = some j := by
  rcases eq_or_ne n name with rfl | hne
  · rw [childInode_of_absent (dropChild_childIno t n)] at h
    cases h
  · rw [dropChild_childInodes_ne _ _ hne] at h
    exact ⟨hne, h⟩

theorem Tidy.putChild
    (h : t.Tidy k) (hi : t.Arrives k i) : (t.putChild name i).Tidy (k.add i.core.ino) where
  coherent n j hj := by
    rcases putChild_childInodes_cases hj with ⟨rfl, rfl⟩ | ⟨hne, hj⟩
    · exact putChild_childIno _ _ _
    · rw [putChild_childIno_ne _ _ _ hne]
      exact h.coherent n j hj
  used n ino hn := by
    rcases putChild_childIno_cases hn with ⟨-, rfl⟩ | ⟨-, hn⟩
    · exact List.mem_cons_self
    · exact List.mem_cons_of_mem _ (h.used n ino hn)
  alive n ino hn := by
    rcases putChild_childIno_cases hn with ⟨-, rfl⟩ | ⟨-, hn⟩
    · exact hi.alive
    · exact h.alive n ino hn
  single n n' ino hn hn' := by
    rcases putChild_childIno_cases hn with ⟨rfl, rfl⟩ | ⟨-, hold⟩
    · rcases putChild_childIno_cases hn' with ⟨rfl, -⟩ | ⟨-, hold'⟩
      · rfl
      · exact absurd hold' (hi.unlisted n')
    · rcases putChild_childIno_cases hn' with ⟨rfl, rfl⟩ | ⟨-, hold'⟩
      · exact absurd hold (hi.unlisted n)
      · exact h.single n n' ino hold hold'
  pIno n j hj := by
    rcases putChild_childInodes_cases hj with ⟨rfl, rfl⟩ | ⟨-, hj⟩
    · exact hi.pIno
    · exact h.pIno n j hj
  self hmem := by
    rcases List.mem_cons.mp hmem with heq | hmem
    · exact hi.self heq.symm
    · exact h.self hmem
  nil hmem := by
    rcases List.mem_cons.mp hmem with heq | hmem
    · exact hi.nil heq.symm
    · exact h.nil hmem
  dir := h.dir

theorem Tidy.dropChild (h : t.Tidy k) : (t.dropChild name).Tidy k where
  coherent n j hj := by
    obtain ⟨hne, hj⟩ := dropChild_childInodes_cases hj
    rw [dropChild_childIno_ne _ _ hne]
    exact h.coherent n j hj
  used n ino hn := h.used n ino (dropChild_childIno_cases hn).2
  alive n ino hn := h.alive n ino (dropChild_childIno_cases hn).2
  single n n' ino hn hn' := h.single n n' ino (dropChild_childIno_cases hn).2
    (dropChild_childIno_cases hn').2
  pIno n j hj := h.pIno n j (dropChild_childInodes_cases hj).2
  self := h.self
  nil := h.nil
  dir := h.dir

/-- A number that leads nowhere any more may be buried. -/
theorem Tidy.bury
    (h : t.Tidy k) {ino : Uuid} (hino : ∀ n, t.childIno n ≠ some ino) :
    t.Tidy (k.bury ino) where
  coherent := h.coherent
  used := h.used
  alive n ino' hn hmem := by
    rcases List.mem_cons.mp hmem with rfl | hmem
    · exact hino n hn
    · exact h.alive n ino' hn hmem
  single := h.single
  pIno := h.pIno
  self := h.self
  nil := h.nil
  dir := h.dir

theorem setChild_childInodes_cases
    {hsome : (t.childInodes.lookup name).isSome} {n : Name} {j : Inode}
    (h : (t.setChild name i hsome).childInodes.lookup n = some j) :
    (n = name ∧ j = i) ∨ (n ≠ name ∧ t.childInodes.lookup n = some j) := by
  rcases eq_or_ne n name with rfl | hne
  · have hlookup := AList.lookup_insert (a := n) (b := i) t.childInodes
    exact .inl ⟨rfl, Option.some.inj (h.symm.trans hlookup)⟩
  · exact .inr ⟨hne, (AList.lookup_insert_ne hne).symm.trans h⟩

theorem Tidy.setChild
    (h : t.Tidy k) (hi : t.childInodes.lookup name = some i)
    (hino : i'.core.ino = i.core.ino) (hp : i'.pIno = i.pIno)
    (hsome : (t.childInodes.lookup name).isSome) :
    (t.setChild name i' hsome).Tidy k where
  coherent := (gains_setChild (v := none) hi hino hsome).coherent h.coherent
  used := h.used
  alive := h.alive
  single := h.single
  pIno n j hj := by
    rcases setChild_childInodes_cases hj with ⟨rfl, rfl⟩ | ⟨-, hj⟩
    · exact hp.trans (h.pIno n i hi)
    · exact h.pIno n j hj
  self := h.self
  nil := h.nil
  dir := h.dir

end Tidy

end DentryTable

open DentryTable Transaction

/-- The store and the transaction have the entries and the attributes of the
directory. -/
structure ShowsDir (m : MetaStore) (t : DentryTable) (tx : Transaction) : Prop where
  own : tx.sIno = t.dirIno
  opened : tx.committed = false
  kept : tx.status ≠ .S_DELETED
  begun : tx.status = .S_CREATED ∨ (m.dentries t.dirIno).isSome
  entries : ∀ name, tx.shown (m.entry t.dirIno name) name = t.childIno name
  selfIno : ∀ s, tx.sInode = some s → s.core.ino = t.dirIno
  self : ∃ s, tx.sInode.or (m.inodes t.dirIno) = some s ∧
    s.copy = t.thisDirInode.copy

/-- They have the attributes of the files in it, too. -/
structure ShowsFiles (m : MetaStore) (t : DentryTable) (k : Known)
    (tx : Transaction) : Prop where
  named : ∀ ino f, tx.fInodes.lookup ino = some (some f) → f.core.ino = ino
  child : ∀ name i, t.childInodes.lookup name = some i → i.core.isDir = false →
    ∃ s, (tx.fileWrite i.core.ino).or (m.inodes i.core.ino) = some s ∧
      s.copy = i.copy
  recorded : ∀ ino, tx.fInodes.lookup ino ≠ none → ino ∈ k.used
  stale : ∀ ino, tx.fileWrite ino ≠ none →
    (∃ name, t.childIno name = some ino) ∨ ino ∈ k.dead
  gone : ∀ ino, tx.fInodes.lookup ino = some none →
    ∀ name, t.childIno name ≠ some ino

structure Mirrors (m : MetaStore) (t : DentryTable) (k : Known)
    (tx : Transaction) : Prop where
  tidy : t.Tidy k
  dir : ShowsDir m t tx
  files : ShowsFiles m t k tx

section Dir

variable {m m' : MetaStore} {t t' : DentryTable} {k : Known} {tx : Transaction}
  {name : Name} {alive : Bool} {ino : Uuid} {i : Inode}

/-- The transaction has recorded the directory, whose times may have been set. -/
theorem recordSelf_shows
    (tx : Transaction) {s : Option Inode}
    (hself : ∃ s₀, tx.sInode.or s = some s₀ ∧ s₀.copy = t.thisDirInode.copy)
    (hino : ∀ s, tx.sInode = some s → s.core.ino = t.dirIno)
    (htimes : t.thisDirInode.Retimed t'.thisDirInode) :
    ∃ s', (tx.recordSelf t'.thisDirInode).sInode = some s' ∧
      s'.copy = t'.thisDirInode.copy ∧ s'.core.ino = t.dirIno := by
  obtain ⟨s₀, hs₀, hcopy⟩ := hself
  unfold Transaction.recordSelf
  cases hs : tx.sInode with
  | none => exact ⟨_, rfl, Inode.copy_copy _, htimes.core_ino⟩
  | some s₁ =>
      rw [hs] at hs₀
      obtain rfl : s₁ = s₀ := Option.some.inj hs₀
      exact ⟨_, rfl, htimes.copy hcopy, hino s₁ hs⟩

/-- An entry changes in the table and in the transaction. -/
theorem ShowsDir.edit
    (h : ShowsDir m t tx) (hdir : t'.dirIno = t.dirIno)
    (htimes : t.thisDirInode.Retimed t'.thisDirInode)
    (hname : t'.childIno name = if alive then some ino else none)
    (hother : ∀ n, n ≠ name → t'.childIno n = t.childIno n) :
    ShowsDir m t' ((tx.setDentry name alive ino).recordSelf t'.thisDirInode) := by
  obtain ⟨s', hs', hcopy, hino⟩ :=
    recordSelf_shows (tx.setDentry name alive ino) h.self h.selfIno htimes
  refine ⟨h.own.trans hdir.symm, h.opened, h.kept, ?_, ?_, ?_, ?_⟩
  · rw [hdir]
    exact h.begun
  · intro n
    rw [hdir]
    change (tx.setDentry name alive ino).shown _ n = _
    rcases eq_or_ne n name with rfl | hne
    · rw [shown_setDentry, hname]
    · rw [shown_setDentry_ne hne, hother n hne]
      exact h.entries n
  · intro s hs
    rw [hs'] at hs
    cases hs
    exact hino.trans hdir.symm
  · rw [hs']
    exact ⟨s', rfl, hcopy⟩

/-- A file that is recorded says nothing about the directory. -/
theorem ShowsDir.setFInode (h : ShowsDir m t tx) (fi : Option Inode) :
    ShowsDir m t (tx.setFInode ino fi) :=
  ⟨h.own, h.opened, h.kept, h.begun, h.entries, h.selfIno, h.self⟩

/-- The attributes of the directory are recorded as they are. -/
theorem ShowsDir.chself
    (h : ShowsDir m t tx) (hdir : t'.dirIno = t.dirIno)
    (hname : ∀ n, t'.childIno n = t.childIno n) :
    ShowsDir m t' { tx with sInode := some t'.thisDirInode.copy } := by
  refine ⟨h.own.trans hdir.symm, h.opened, h.kept, ?_, ?_, ?_, ?_⟩
  · rw [hdir]
    exact h.begun
  · intro n
    rw [hdir, hname]
    exact h.entries n
  · rintro s ⟨⟩
    rfl
  · exact ⟨_, rfl, Inode.copy_copy _⟩

/-- The children have changed, but not their names. -/
theorem ShowsDir.sameNames
    (h : ShowsDir m t tx) (hself : t'.thisDirInode = t.thisDirInode)
    (hname : ∀ n, t'.childIno n = t.childIno n) : ShowsDir m t' tx := by
  have hdir : t'.dirIno = t.dirIno := congrArg (·.core.ino) hself
  refine ⟨h.own.trans hdir.symm, h.opened, h.kept, ?_, ?_, ?_, ?_⟩
  · rw [hdir]
    exact h.begun
  · intro n
    rw [hdir, hname]
    exact h.entries n
  · rw [hdir]
    exact h.selfIno
  · rw [hdir, hself]
    exact h.self

/-- A name that is not there has not been added. -/
theorem ShowsDir.hasDentry_absent
    (h : ShowsDir m t tx) (habsent : t.childIno name = none) :
    tx.hasDentry name true = false := by
  apply hasDentry_of_shown (m.entry t.dirIno name)
  intro ino _ heq
  rw [h.entries, habsent] at heq
  cases heq

/-- A name that is there has not been deleted. -/
theorem ShowsDir.hasDentry_present
    (h : ShowsDir m t tx) (hpresent : (t.childIno name).isSome) :
    tx.hasDentry name false = false := by
  apply hasDentry_of_shown (m.entry t.dirIno name)
  intro ino _ heq
  rw [h.entries] at heq
  rw [heq] at hpresent
  cases hpresent

end Dir

section Files

variable {m : MetaStore} {t t' : DentryTable} {k : Known} {tx : Transaction}
  {name : Name} {ino : Uuid} {i i' : Inode}

theorem ShowsFiles.same (h : ShowsFiles m t k tx) (hsame : SameNames t t') :
    ShowsFiles m t' k tx where
  named := h.named
  child n j hj := by
    rw [hsame.inode] at hj
    exact h.child n j hj
  recorded := h.recorded
  stale ino hino := by
    refine (h.stale ino hino).imp_left ?_
    rintro ⟨n, hn⟩
    exact ⟨n, (hsame.child n).trans hn⟩
  gone ino hino n hn := h.gone ino hino n ((hsame.child n).symm.trans hn)

/-- Files under other numbers are recorded as before. -/
theorem child_setFInode_ne
    {fi : Option Inode} (hne : i.core.ino ≠ ino)
    (h : ∃ s, (tx.fileWrite i.core.ino).or (m.inodes i.core.ino) = some s ∧
      s.copy = i.copy) :
    ∃ s, ((tx.setFInode ino fi).fileWrite i.core.ino).or (m.inodes i.core.ino) =
      some s ∧ s.copy = i.copy := by
  rw [fileWrite_setFInode_ne _ hne]
  exact h

theorem recorded_setFInode
    {fi : Option Inode} {ino' : Uuid}
    (h : (tx.setFInode ino fi).fInodes.lookup ino' ≠ none) :
    ino' = ino ∨ tx.fInodes.lookup ino' ≠ none := by
  rcases eq_or_ne ino' ino with rfl | hne
  · exact .inl rfl
  · rw [setFInode_lookup_ne _ _ _ hne] at h
    exact .inr h

/-- What is behind a name that is still there has a number of its own. -/
theorem DentryTable.Tidy.core_ino_ne
    (h : t.Tidy k) (hi : t.childInodes.lookup name = some i) {n : Name}
    {j : Inode} (hj : t.childInodes.lookup n = some j) (hne : n ≠ name) :
    j.core.ino ≠ i.core.ino := by
  intro heq
  have hn := h.coherent n j hj
  rw [heq] at hn
  exact hne (h.single n name _ hn (h.coherent name i hi))

/-- A file is put into the table, and recorded. -/
theorem ShowsFiles.putReg
    (h : ShowsFiles m t k tx) (ht : t.Tidy k) (hi : t.Arrives k i)
    (hname : t.childIno name = none) :
    ShowsFiles m (t.putChild name i) (k.add i.core.ino)
      (tx.setFInode i.core.ino (some i.copy)) where
  named ino f hf := by
    rcases TxOp.setFInode_cases hf with hold | ⟨rfl, hnew⟩
    · exact h.named ino f hold
    · cases hnew
      rfl
  child n j hj hdir := by
    rcases putChild_childInodes_cases hj with ⟨rfl, rfl⟩ | ⟨-, hj⟩
    · rw [fileWrite_setFInode]
      exact ⟨_, rfl, j.copy_copy⟩
    · refine child_setFInode_ne ?_ (h.child n j hj hdir)
      intro heq
      have hn := ht.coherent n j hj
      rw [heq] at hn
      exact hi.unlisted n hn
  recorded ino hino := by
    rcases recorded_setFInode hino with rfl | hold
    · exact List.mem_cons_self
    · exact List.mem_cons_of_mem _ (h.recorded ino hold)
  stale ino hino := by
    rcases eq_or_ne ino i.core.ino with rfl | hne
    · exact .inl ⟨name, putChild_childIno _ _ _⟩
    · rw [fileWrite_setFInode_ne _ hne] at hino
      refine (h.stale ino hino).imp_left ?_
      rintro ⟨n, hn⟩
      refine ⟨n, ?_⟩
      rw [putChild_childIno_ne]
      · exact hn
      · rintro rfl
        rw [hname] at hn
        cases hn
  gone ino hino n hn := by
    rcases eq_or_ne ino i.core.ino with rfl | hne
    · rw [setFInode_lookup] at hino
      cases hino
    · rw [setFInode_lookup_ne _ _ _ hne] at hino
      rcases putChild_childIno_cases hn with ⟨-, heq⟩ | ⟨-, hold⟩
      · exact hne heq
      · exact h.gone ino hino n hold

/-- A new directory is put into the table, which records only its entry. -/
theorem ShowsFiles.putDir
    (h : ShowsFiles m t k tx) (hnew : i.core.ino ∉ k.used)
    (hname : t.childIno name = none) (hisDir : i.core.isDir = true) :
    ShowsFiles m (t.putChild name i) (k.add i.core.ino) tx where
  named := h.named
  child n j hj hdir := by
    rcases putChild_childInodes_cases hj with ⟨rfl, rfl⟩ | ⟨-, hj⟩
    · rw [hisDir] at hdir
      cases hdir
    · exact h.child n j hj hdir
  recorded ino hino := List.mem_cons_of_mem _ (h.recorded ino hino)
  stale ino hino := by
    refine (h.stale ino hino).imp_left ?_
    rintro ⟨n, hn⟩
    refine ⟨n, ?_⟩
    rw [putChild_childIno_ne]
    · exact hn
    · rintro rfl
      rw [hname] at hn
      cases hn
  gone ino hino n hn := by
    rcases putChild_childIno_cases hn with ⟨-, rfl⟩ | ⟨-, hold⟩
    · exact hnew (h.recorded _ (by rw [hino]; simp))
    · exact h.gone ino hino n hold

/-- A name is taken out of the table, and its inode recorded as deleted. -/
theorem ShowsFiles.dropReg
    (h : ShowsFiles m t k tx) (ht : t.Tidy k)
    (hi : t.childInodes.lookup name = some i) :
    ShowsFiles m (t.dropChild name) k (tx.setFInode i.core.ino none) where
  named ino f hf := by
    rcases TxOp.setFInode_cases hf with hold | ⟨-, hnew⟩
    · exact h.named ino f hold
    · cases hnew
  child n j hj hdir := by
    obtain ⟨hne, hj⟩ := dropChild_childInodes_cases hj
    exact child_setFInode_ne (ht.core_ino_ne hi hj hne) (h.child n j hj hdir)
  recorded ino hino := by
    rcases recorded_setFInode hino with rfl | hold
    · exact ht.used name _ (ht.coherent name i hi)
    · exact h.recorded ino hold
  stale ino hino := by
    rcases eq_or_ne ino i.core.ino with rfl | hne
    · rw [fileWrite_setFInode] at hino
      exact absurd rfl hino
    · rw [fileWrite_setFInode_ne _ hne] at hino
      refine (h.stale ino hino).imp_left ?_
      rintro ⟨n, hn⟩
      refine ⟨n, ?_⟩
      rw [dropChild_childIno_ne]
      · exact hn
      · rintro rfl
        rw [ht.coherent n i hi] at hn
        exact hne (Option.some.inj hn).symm
  gone ino hino n hn := by
    obtain ⟨hne, hn⟩ := dropChild_childIno_cases hn
    rcases eq_or_ne ino i.core.ino with rfl | hino'
    · exact hne (ht.single n name _ hn (ht.coherent name i hi))
    · rw [setFInode_lookup_ne _ _ _ hino'] at hino
      exact h.gone ino hino n hn

/-- A directory is taken out of the table; if its inode has been recorded, it
stays so. -/
theorem ShowsFiles.dropDir
    (h : ShowsFiles m t k tx) (hino : t.childIno name = some ino) :
    ShowsFiles m (t.dropChild name) (k.bury ino) tx where
  named := h.named
  child n j hj hdir := h.child n j (dropChild_childInodes_cases hj).2 hdir
  recorded := h.recorded
  stale ino' hino' := by
    rcases h.stale ino' hino' with ⟨n, hn⟩ | hdead
    · rcases eq_or_ne n name with rfl | hne
      · rw [hino] at hn
        cases hn
        exact .inr List.mem_cons_self
      · exact .inl ⟨n, (dropChild_childIno_ne _ _ hne).trans hn⟩
    · exact .inr (List.mem_cons_of_mem _ hdead)
  gone ino' hino' n hn := h.gone ino' hino' n (dropChild_childIno_cases hn).2

/-- The attributes of a child change, and are recorded. -/
theorem ShowsFiles.setChild
    (h : ShowsFiles m t k tx) (ht : t.Tidy k)
    (hi : t.childInodes.lookup name = some i) (hino : i'.core.ino = i.core.ino)
    (hsome : (t.childInodes.lookup name).isSome) :
    ShowsFiles m (t.setChild name i' hsome) k
      (tx.setFInode i'.core.ino (some i'.copy)) where
  named ino f hf := by
    rcases TxOp.setFInode_cases hf with hold | ⟨rfl, hnew⟩
    · exact h.named ino f hold
    · cases hnew
      rfl
  child n j hj hdir := by
    rcases setChild_childInodes_cases hj with ⟨rfl, rfl⟩ | ⟨hne, hj⟩
    · rw [fileWrite_setFInode]
      exact ⟨_, rfl, j.copy_copy⟩
    · refine child_setFInode_ne ?_ (h.child n j hj hdir)
      rw [hino]
      exact ht.core_ino_ne hi hj hne
  recorded ino hino' := by
    rcases recorded_setFInode hino' with rfl | hold
    · rw [hino]
      exact ht.used name _ (ht.coherent name i hi)
    · exact h.recorded ino hold
  stale ino hino' := by
    rcases eq_or_ne ino i'.core.ino with rfl | hne
    · rw [hino]
      exact .inl ⟨name, ht.coherent name i hi⟩
    · rw [fileWrite_setFInode_ne _ hne] at hino'
      exact h.stale ino hino'
  gone ino hino' n hn := by
    rcases eq_or_ne ino i'.core.ino with rfl | hne
    · rw [setFInode_lookup] at hino'
      cases hino'
    · rw [setFInode_lookup_ne _ _ _ hne] at hino'
      exact h.gone ino hino' n hn

/-- The transaction has not got the inode of a file that arrives. -/
theorem ShowsFiles.fileWrite_arrives
    (h : ShowsFiles m t k tx) (hi : t.Arrives k i) :
    tx.fileWrite i.core.ino = none := by
  by_contra hsome
  rcases h.stale _ hsome with ⟨n, hn⟩ | hdead
  · exact hi.unlisted n hn
  · exact hi.alive hdead

end Files

/-- The store has what the table has. -/
structure Stores (m : MetaStore) (t : DentryTable) : Prop where
  found : (m.dentries t.dirIno).isSome
  entries : ∀ name, m.entry t.dirIno name = t.childIno name
  self : ∃ s, m.inodes t.dirIno = some s ∧ s.copy = t.thisDirInode.copy
  files : ∀ name i, t.childInodes.lookup name = some i → i.core.isDir = false →
    ∃ s, m.inodes i.core.ino = some s ∧ s.copy = i.copy

section Calls

variable {m : MetaStore} {t t' : DentryTable} {k : Known} {tx : Transaction}
  {name : Name} {ino : Uuid} {i i' : Inode}

/-- Behind a commit, the transaction is empty. -/
theorem Stores.mirrors (h : Stores m t) (ht : t.Tidy k) :
    Mirrors m t k (.new t.dirIno) where
  tidy := ht
  dir := ⟨rfl, rfl, by simp [Transaction.new], .inr h.found, h.entries,
    by simp [Transaction.new], h.self⟩
  files := ⟨by simp [Transaction.new], h.files, by simp [Transaction.new],
    by simp [Transaction.new, fileWrite], by simp [Transaction.new]⟩

/-- The view of the current transaction becomes the store. -/
theorem Mirrors.sync (h : Mirrors m t k tx) :
    ∃ m', m.sync tx = .ok m' ∧ Stores m' t := by
  obtain ⟨m', hsync, hfound, hentries, hinodes⟩ := MetaStore.sync_shown
    h.files.named h.dir.kept (by rw [h.dir.own]; exact h.dir.begun)
  rw [h.dir.own] at hfound hentries
  refine ⟨m', hsync, hfound, ?_, ?_, ?_⟩
  · intro n
    rw [hentries]
    exact h.dir.entries n
  · have hfile : tx.fInodes.lookup t.dirIno = none := by
      by_contra hne
      exact h.tidy.self (h.files.recorded _ hne)
    obtain ⟨s, hs, hcopy⟩ := h.dir.self
    refine ⟨s, ?_, hcopy⟩
    rw [hinodes, inodeWrite_self h.dir.selfIno hfile, ← hs]
    cases tx.sInode with
    | none => rfl
    | some s => rfl
  · intro n i hi hdir
    have hne : ∀ s, tx.sInode = some s → s.core.ino ≠ i.core.ino := by
      intro s hs heq
      have hself := h.dir.selfIno s hs
      rw [heq] at hself
      have hused := h.tidy.used n _ (h.tidy.coherent n i hi)
      rw [hself] at hused
      exact h.tidy.self hused
    obtain ⟨s, hs, hcopy⟩ := h.files.child n i hi hdir
    refine ⟨s, ?_, hcopy⟩
    rw [hinodes, inodeWrite_file hne, ← hs]
    cases tx.fileWrite i.core.ino with
    | none => rfl
    | some s => rfl

/-- `mkreg`, for a name that is not there. -/
theorem Mirrors.mkreg
    (h : Mirrors m t k tx) (hi : t.Arrives k i) (hname : t.childIno name = none)
    (hsame : SameNames (t.putChild name i) t')
    (htimes : t.thisDirInode.Retimed t'.thisDirInode) :
    ∃ tx', (TxOp.mkreg t'.thisDirInode name i).apply tx = (.done, tx') ∧
      Mirrors m t' (k.add i.core.ino) tx' := by
  refine ⟨_, TxOp.mkreg_apply h.dir.opened (h.dir.hasDentry_absent hname)
    (h.files.fileWrite_arrives hi), (h.tidy.putChild hi).same hsame (htimes.isDir.trans h.tidy.dir), ?_, ?_⟩
  · refine (h.dir.edit hsame.dirIno htimes ?_ ?_).setFInode _
    · rw [hsame.child, putChild_childIno]
      rfl
    · intro n hne
      rw [hsame.child, putChild_childIno_ne _ _ _ hne]
  · have hput := (h.files.putReg h.tidy hi hname).same hsame
    exact ⟨hput.named, hput.child, hput.recorded, hput.stale, hput.gone⟩

/-- `mkdir`, for a name that is not there. -/
theorem Mirrors.mkdir
    (h : Mirrors m t k tx) (hi : t.Arrives k i) (hnew : i.core.ino ∉ k.used)
    (hisDir : i.core.isDir = true) (hname : t.childIno name = none)
    (hsame : SameNames (t.putChild name i) t')
    (htimes : t.thisDirInode.Retimed t'.thisDirInode) :
    ∃ tx', (TxOp.mkdir t'.thisDirInode name i.core.ino).apply tx = (.done, tx') ∧
      Mirrors m t' (k.add i.core.ino) tx' := by
  refine ⟨_, TxOp.mkdir_apply h.dir.opened (h.dir.hasDentry_absent hname),
    (h.tidy.putChild hi).same hsame (htimes.isDir.trans h.tidy.dir), ?_, ?_⟩
  · refine h.dir.edit hsame.dirIno htimes ?_ ?_
    · rw [hsame.child, putChild_childIno]
      rfl
    · intro n hne
      rw [hsame.child, putChild_childIno_ne _ _ _ hne]
  · have hput := (h.files.putDir hnew hname hisDir).same hsame
    exact ⟨hput.named, hput.child, hput.recorded, hput.stale, hput.gone⟩

/-- `rmreg`, for a name that is there. -/
theorem Mirrors.rmreg
    (h : Mirrors m t k tx) (hi : t.childInodes.lookup name = some i)
    (hsame : SameNames (t.dropChild name) t')
    (htimes : t.thisDirInode.Retimed t'.thisDirInode) :
    ∃ tx', (TxOp.rmreg t'.thisDirInode name i).apply tx = (.done, tx') ∧
      Mirrors m t' k tx' := by
  have hino := h.tidy.coherent name i hi
  refine ⟨_, TxOp.rmreg_apply h.dir.opened
    (h.dir.hasDentry_present (by rw [hino]; rfl))
    (fun hgone => h.files.gone _ hgone name hino),
    h.tidy.dropChild.same hsame (htimes.isDir.trans h.tidy.dir), ?_, ?_⟩
  · refine (h.dir.edit hsame.dirIno htimes ?_ ?_).setFInode _
    · rw [hsame.child, dropChild_childIno]
      rfl
    · intro n hne
      rw [hsame.child, dropChild_childIno_ne _ _ hne]
  · have hdrop := (h.files.dropReg h.tidy hi).same hsame
    exact ⟨hdrop.named, hdrop.child, hdrop.recorded, hdrop.stale, hdrop.gone⟩

/-- `rmdir`, for a name that is there. -/
theorem Mirrors.rmdir
    (h : Mirrors m t k tx) (hino : t.childIno name = some ino)
    (hsame : SameNames (t.dropChild name) t')
    (htimes : t.thisDirInode.Retimed t'.thisDirInode) :
    ∃ tx', (TxOp.rmdir t'.thisDirInode name ino).apply tx = (.done, tx') ∧
      Mirrors m t' (k.bury ino) tx' := by
  have hnone : ∀ n, (t.dropChild name).childIno n ≠ some ino := by
    intro n hn
    obtain ⟨hne, hn⟩ := dropChild_childIno_cases hn
    exact hne (h.tidy.single n name _ hn hino)
  refine ⟨_, TxOp.rmdir_apply h.dir.opened
    (h.dir.hasDentry_present (by rw [hino]; rfl)),
    (h.tidy.dropChild.bury hnone).same hsame (htimes.isDir.trans h.tidy.dir), ?_, ?_⟩
  · refine h.dir.edit hsame.dirIno htimes ?_ ?_
    · rw [hsame.child, dropChild_childIno]
      rfl
    · intro n hne
      rw [hsame.child, dropChild_childIno_ne _ _ hne]
  · have hdrop := (h.files.dropDir hino).same hsame
    exact ⟨hdrop.named, hdrop.child, hdrop.recorded, hdrop.stale, hdrop.gone⟩

/-- `chreg`, for a file that is there. -/
theorem Mirrors.chreg
    (h : Mirrors m t k tx) (hi : t.childInodes.lookup name = some i)
    (hino : i'.core.ino = i.core.ino) (hp : i'.pIno = i.pIno)
    (hsome : (t.childInodes.lookup name).isSome) :
    ∃ tx', (TxOp.chreg i').apply tx = (.done, tx') ∧
      Mirrors m (t.setChild name i' hsome) k tx' := by
  refine ⟨_, TxOp.chreg_apply h.dir.opened, h.tidy.setChild hi hino hp hsome, ?_,
    h.files.setChild h.tidy hi hino hsome⟩
  have hdir : ShowsDir m (t.setChild name i' hsome) tx :=
    h.dir.sameNames rfl fun _ => rfl
  exact hdir.setFInode _

/-- `chself`, for the attributes that the directory has now. -/
theorem Mirrors.chself
    (h : Mirrors m t k tx) (hsame : SameNames t t')
    (hdir : t'.thisDirInode.core.isDir = true) :
    ∃ tx', (TxOp.chself t'.thisDirInode).apply tx = (.done, tx') ∧
      Mirrors m t' k tx' := by
  refine ⟨_, TxOp.chself_apply h.dir.opened, h.tidy.same hsame hdir,
    h.dir.chself hsame.dirIno hsame.child, ?_⟩
  have hfiles := h.files.same hsame
  exact ⟨hfiles.named, hfiles.child, hfiles.recorded, hfiles.stale, hfiles.gone⟩

end Calls

end Nmfs
