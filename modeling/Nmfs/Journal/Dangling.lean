import Nmfs.Journal.MetaStore
import Nmfs.Lib.Transitions
import Nmfs.Local.TwoStep
import Nmfs.Meta.DentryObject

/-!
# Entries without an inode

`sync` writes the DENTRY object of a directory before the INODE objects of its
new files, and removes the INODE object of a directory while its parent may
still list it.  The inode of a new directory is written by another transaction.
A client that loads the directory in between finds an entry whose inode does not
exist, and `pull_child_metadata` throws.

The checkpoint threads of all clients run here side by side, one call of `sync`
at a time.  What they are handed is left to the environment.  A directory is never
larger than its object, which is read and written at once.
-/

namespace Nmfs

namespace SyncCall

/-- The call puts an entry for the inode number into a DENTRY object, or is
followed by one that does. -/
def Lists : SyncCall → Uuid → Prop
  | .loadDentry _ _ changes, x => ∃ n, changes.lookup n = some (true, x)
  | .syncDentry d, x => ∃ n, d.childList.lookup n = some x
  | .syncInode _, _ | .removeInode _, _ | .removeDentry _, _ => False

end SyncCall

namespace MetaStore

/-- A stored entry leads to the inode number. -/
def Lists (m : MetaStore) (x : Uuid) : Prop :=
  ∃ ino l n, m.dentries ino = some l ∧ l.lookup n = some x

/-- Every stored entry has an INODE object. -/
def NoDangling (m : MetaStore) : Prop := ∀ x, m.Lists x → (m.inodes x).isSome

/-- The directories fit into their DENTRY objects. -/
def AllStorable (m : MetaStore) : Prop :=
  ∀ ino l, m.dentries ino = some l → (⟨ino, l⟩ : Dentry).Storable

/-- The pool is `m'` at some time while the calls are made, and nothing else. -/
inductive Passes : MetaStore → List SyncCall → MetaStore → Prop
  | here (m : MetaStore) (l : List SyncCall) : Passes m l m
  | next {m m₁ m' : MetaStore} {c : SyncCall} {l₁ l : List SyncCall}
      (h : m.perform c = .ok (m₁, l₁)) (hrest : Passes m₁ (l₁ ++ l) m') :
      Passes m (c :: l) m'

section Loading

variable {m : MetaStore}

theorem pullChildren_ok_iff
    {dirIno : Uuid} {l : List ((_ : Name) × Uuid)} :
    (∃ children, m.pullChildren dirIno l = .ok children) ↔
      ∀ it ∈ l, (m.inodes it.2).isSome := by
  induction l with
  | nil => exact ⟨nofun, fun _ => ⟨∅, rfl⟩⟩
  | cons it l ih =>
      rw [List.forall_mem_cons, ← ih]
      simp only [pullChildren, pullInode]
      cases m.inodes it.2 with
      | none => simp
      | some i =>
          cases m.pullChildren dirIno l with
          | error e => simp
          | ok children => simp

/-- The directories can be loaded exactly if no entry dangles. -/
theorem noDangling_iff_pull :
    m.NoDangling ↔ ∀ dirIno, (m.dentries dirIno).isSome →
      ∃ r, m.pullChildMetadata dirIno = .ok r := by
  constructor
  · intro h dirIno hdir
    obtain ⟨l, hl⟩ := Option.isSome_iff_exists.mp hdir
    obtain ⟨children, hchildren⟩ := (@pullChildren_ok_iff m dirIno l.entries).mpr
      fun it hit => h it.2 ⟨dirIno, l, it.1, hl, AList.mem_lookup_iff.mpr hit⟩
    refine ⟨(⟨dirIno, l⟩, children), ?_⟩
    simp [pullChildMetadata, loadDentry, hl, hchildren]
  · rintro h x ⟨ino, l, n, hl, hn⟩
    obtain ⟨r, hr⟩ := h ino (by rw [hl]; rfl)
    have hchildren : ∃ children, m.pullChildren ino l.entries = .ok children := by
      simp only [pullChildMetadata, loadDentry, hl] at hr
      cases hpull : m.pullChildren ino l.entries with
      | error e => simp [hpull] at hr
      | ok children => exact ⟨children, rfl⟩
    exact pullChildren_ok_iff.mp hchildren ⟨n, x⟩ (AList.mem_lookup_iff.mp hn)

theorem lists_of_load
    {ino x : Uuid} {mkdir : Bool} {d : Dentry} (h : m.loadDentry ino mkdir = .ok d)
    {n : Name} (hn : d.childList.lookup n = some x) : m.Lists x := by
  unfold loadDentry at h
  split at h
  · cases h
    cases hn
  · split at h
    · rename_i l hl
      cases h
      exact ⟨ino, l, n, hl, hn⟩
    · cases h

end Loading

end MetaStore

namespace Transaction

variable {tx : Transaction}

/-- The calls of a directory that is not removed. -/
theorem syncCalls_of_live (h : tx.status ≠ .S_DELETED) :
    tx.syncCalls = (tx.sInode.map .syncInode).toList ++
      .loadDentry tx.sIno (tx.status = .S_CREATED) tx.dentries ::
        tx.fInodes.entries.filterMap fun f => f.2.map .syncInode :=
  if_neg h

theorem mem_syncCalls
    {c : SyncCall} (h : tx.status ≠ .S_DELETED) (hc : c ∈ tx.syncCalls) :
    (∃ i, c = .syncInode i) ∨
      c = .loadDentry tx.sIno (tx.status = .S_CREATED) tx.dentries := by
  rw [syncCalls_of_live h, List.mem_append, List.mem_cons, List.mem_filterMap,
    Option.mem_toList, Option.map_eq_some_iff] at hc
  rcases hc with ⟨i, -, rfl⟩ | rfl | ⟨f, -, hf⟩
  · exact .inl ⟨i, rfl⟩
  · exact .inr rfl
  · obtain ⟨i, -, rfl⟩ := Option.map_eq_some_iff.mp hf
    exact .inl ⟨i, rfl⟩

theorem removeInode_notMem (h : tx.status ≠ .S_DELETED) (x : Uuid) :
    .removeInode x ∉ tx.syncCalls := by
  intro hmem
  rcases mem_syncCalls h hmem with ⟨i, hi⟩ | hi
  · cases hi
  · cases hi

/-- Only new entries are put into a DENTRY object. -/
theorem lists_of_syncCalls
    {c : SyncCall} {x : Uuid} (hc : c ∈ tx.syncCalls) (hx : c.Lists x) :
    ∃ n, tx.dentries.lookup n = some (true, x) := by
  by_cases h : tx.status = .S_DELETED
  · rw [syncCalls, if_pos h] at hc
    simp only [List.mem_cons, List.not_mem_nil, or_false] at hc
    rcases hc with rfl | rfl
    · exact hx.elim
    · exact hx.elim
  · rcases mem_syncCalls h hc with ⟨i, rfl⟩ | rfl
    · exact hx.elim
    · exact hx

end Transaction

namespace MetaStore

section Alone

variable {m m' : MetaStore}

theorem passes_nil : Passes m [] m' ↔ m' = m := by
  constructor
  · rintro ⟨⟩
    rfl
  · rintro rfl
    exact .here _ _

theorem passes_cons {c : SyncCall} {l : List SyncCall} :
    Passes m (c :: l) m' ↔
      m' = m ∨ ∃ m₁ l₁, m.perform c = .ok (m₁, l₁) ∧ Passes m₁ (l₁ ++ l) m' := by
  constructor
  · rintro (_ | ⟨h, hrest⟩)
    · exact .inl rfl
    · exact .inr ⟨_, _, h, hrest⟩
  · rintro (rfl | ⟨m₁, l₁, h, hrest⟩)
    · exact .here _ _
    · exact .next h hrest

/-- An inode that is stored leaves no entry dangling. -/
theorem NoDangling.setInode (h : m.NoDangling) (ino : Uuid) (i : Inode) :
    (m.setInode ino (some i)).NoDangling := by
  intro x hx
  rcases eq_or_ne x ino with rfl | hne
  · simp [MetaStore.setInode]
  · simp only [MetaStore.setInode, Function.update_of_ne hne]
    exact h x hx

/-- What the writing of an inode preserves. -/
theorem passes_inodes
    {P : MetaStore → Prop} (hP : ∀ m ino i, P m → P (m.setInode ino (some i)))
    {l : List SyncCall} (hl : ∀ c ∈ l, ∃ i, c = .syncInode i) (h : P m)
    (hpass : Passes m l m') : P m' := by
  induction l generalizing m with
  | nil => exact passes_nil.mp hpass ▸ h
  | cons c l ih =>
      obtain ⟨i, rfl⟩ := hl c List.mem_cons_self
      rcases passes_cons.mp hpass with rfl | ⟨m₁, l₁, hc, hrest⟩
      · exact h
      · cases hc
        exact ih (fun c hc => hl c (List.mem_cons_of_mem _ hc)) (hP m _ i h) hrest

theorem AllStorable.setDentry
    (h : m.AllStorable) {d : Dentry} (hd : d.Storable) :
    (m.setDentry d.thisIno (some d.childList)).AllStorable := by
  intro ino l hl
  simp only [MetaStore.setDentry] at hl
  rcases eq_or_ne ino d.thisIno with rfl | hne
  · rw [Function.update_self] at hl
    cases hl
    exact ⟨hd.size, hd.names⟩
  · rw [Function.update_of_ne hne] at hl
    exact h ino l hl

theorem AllStorable.removeDentry (h : m.AllStorable) (ino : Uuid) :
    (m.setDentry ino none).AllStorable := by
  intro ino' l hl
  simp only [MetaStore.setDentry] at hl
  rcases eq_or_ne ino' ino with rfl | hne
  · rw [Function.update_self] at hl
    cases hl
  · rw [Function.update_of_ne hne] at hl
    exact h ino' l hl

/-- The inodes behind the new entries of a directory are stored, or, for a removed
directory, nothing lists it. -/
def Ready (m : MetaStore) (tx : Transaction) : Prop :=
  if tx.status = .S_DELETED then ¬ m.Lists tx.sIno
  else tx.status = .S_CREATED ∨ (m.dentries tx.sIno).isSome →
    ∀ n x, tx.dentries.lookup n = some (true, x) →
      (m.inodes x).isSome ∨ ∃ s, tx.sInode = some s ∧ s.core.ino = x

/-- The directory fits into its object with the changes. -/
def HasRoom (m : MetaStore) (tx : Transaction) : Prop :=
  tx.status ≠ .S_DELETED → ∀ d, m.loadDentry tx.sIno (tx.status = .S_CREATED) = .ok d →
    (Transaction.syncDentries tx.dentries d).Storable

/-- The pool when `sync` has written the inode of the directory. -/
def withSelf (m : MetaStore) : Option Inode → MetaStore
  | some s => m.setInode s.core.ino (some s)
  | none => m

@[simp] theorem withSelf_dentries (s : Option Inode) :
    (m.withSelf s).dentries = m.dentries := by
  cases s with
  | none => rfl
  | some s => rfl

theorem withSelf_inodes {s : Option Inode} {x : Uuid} :
    ((m.withSelf s).inodes x).isSome ↔
      (m.inodes x).isSome ∨ ∃ i, s = some i ∧ i.core.ino = x := by
  cases s with
  | none => simp [withSelf]
  | some s =>
      rcases eq_or_ne x s.core.ino with rfl | hne
      · simp [withSelf, setInode]
      · simp [withSelf, setInode, Function.update_of_ne hne, Ne.symm hne]

theorem NoDangling.withSelf (h : m.NoDangling) (s : Option Inode) :
    (m.withSelf s).NoDangling := by
  cases s with
  | none => exact h
  | some s => exact h.setInode _ s

theorem loadDentry_isOk {ino : Uuid} {mkdir : Bool} :
    (∃ d, m.loadDentry ino mkdir = .ok d) ↔
      mkdir = true ∨ (m.dentries ino).isSome := by
  unfold loadDentry
  cases mkdir with
  | true => simp
  | false =>
      cases m.dentries ino with
      | none => simp
      | some l => simp

theorem loadDentry_thisIno
    {ino : Uuid} {mkdir : Bool} {d : Dentry} (h : m.loadDentry ino mkdir = .ok d) :
    d.thisIno = ino := by
  unfold loadDentry at h
  split at h
  · cases h
    rfl
  · split at h
    · cases h
      rfl
    · cases h

/-- The pool behind the first call of a directory that is not removed. -/
theorem passes_live
    {tx : Transaction} (h : tx.status ≠ .S_DELETED) :
    Passes m tx.syncCalls m' ↔ m' = m ∨ Passes (m.withSelf tx.sInode)
      (.loadDentry tx.sIno (tx.status = .S_CREATED) tx.dentries ::
        tx.fInodes.entries.filterMap fun f => f.2.map .syncInode) m' := by
  rw [Transaction.syncCalls_of_live h]
  cases tx.sInode with
  | none =>
      constructor
      · exact .inr
      · rintro (rfl | hpass)
        · exact .here _ _
        · exact hpass
  | some s =>
      refine passes_cons.trans (or_congr Iff.rfl ?_)
      constructor
      · rintro ⟨m₁, l₁, hc, hrest⟩
        cases hc
        exact hrest
      · exact fun hpass => ⟨_, _, rfl, hpass⟩

/-- The DENTRY object of a directory is written with its changes. -/
theorem noDangling_changes_iff
    (hm : m.NoDangling) {ino : Uuid} {mkdir : Bool} {d : Dentry}
    (hload : m.loadDentry ino mkdir = .ok d) (changes : TxDentries) :
    (m.setDentry ino (some (Transaction.syncDentries changes d).childList)).NoDangling ↔
      ∀ n x, changes.lookup n = some (true, x) → (m.inodes x).isSome := by
  constructor
  · intro h n x hx
    refine h x ⟨ino, _, n, Function.update_self _ _ _, ?_⟩
    rw [Transaction.syncDentries_lookup, Transaction.merged, hx]
  · rintro h x ⟨ino', l, n, hl, hn⟩
    simp only [setDentry] at hl
    rcases eq_or_ne ino' ino with rfl | hne
    · rw [Function.update_self] at hl
      cases hl
      rw [Transaction.syncDentries_lookup] at hn
      unfold Transaction.merged at hn
      split at hn
      · rename_i y hchange
        cases hn
        exact h n x hchange
      · cases hn
      · exact hm x (lists_of_load hload hn)
    · rw [Function.update_of_ne hne] at hl
      exact hm x ⟨ino', l, n, hl, hn⟩

/-- A checkpoint that runs alone leaves an entry dangling, now or at some time
while it runs, unless it is ready. -/
theorem passes_noDangling_iff
    (hm : m.NoDangling) (tx : Transaction) :
    (∀ m', Passes m tx.syncCalls m' → m'.NoDangling) ↔ m.Ready tx := by
  unfold Ready
  split
  · rename_i hdeleted
    have hcalls : tx.syncCalls = [.removeInode tx.sIno, .removeDentry tx.sIno] :=
      if_pos hdeleted
    rw [hcalls]
    constructor
    · intro h hlists
      have hpass : Passes m [.removeInode tx.sIno, .removeDentry tx.sIno]
          (m.setInode tx.sIno none) := .next rfl (.here _ _)
      have hsome := h _ hpass tx.sIno hlists
      simp [MetaStore.setInode] at hsome
    · intro hlists m' hpass
      have hremoved : ∀ x, m.Lists x → ((m.setInode tx.sIno none).inodes x).isSome := by
        intro x hx
        have hne : x ≠ tx.sIno := fun heq => hlists (heq ▸ hx)
        simp only [MetaStore.setInode, Function.update_of_ne hne]
        exact hm x hx
      rcases passes_cons.mp hpass with rfl | ⟨m₁, l₁, hc, hrest⟩
      · exact hm
      · cases hc
        rcases passes_cons.mp hrest with rfl | ⟨m₂, l₂, hc, hrest⟩
        · exact hremoved
        · cases hc
          rw [passes_nil.mp hrest]
          rintro x ⟨ino, l, n, hl, hn⟩
          refine hremoved x ⟨ino, l, n, ?_, hn⟩
          simp only [setDentry] at hl
          rcases eq_or_ne ino tx.sIno with rfl | hne
          · rw [Function.update_self] at hl
            cases hl
          · rw [Function.update_of_ne hne] at hl
            exact hl
  · rename_i hlive
    have hself := hm.withSelf tx.sInode
    constructor
    · intro h hload n x hx
      have hok : ∃ d, (m.withSelf tx.sInode).loadDentry tx.sIno
          (tx.status = .S_CREATED) = .ok d := by
        rw [loadDentry_isOk, withSelf_dentries]
        simpa using hload
      obtain ⟨d, hd⟩ := hok
      have hpass : Passes m tx.syncCalls ((m.withSelf tx.sInode).setDentry tx.sIno
          (some (Transaction.syncDentries tx.dentries d).childList)) := by
        refine (passes_live hlive).mpr (.inr (.next (by rw [perform, hd]) ?_))
        refine .next rfl ?_
        rw [Transaction.syncDentries_thisIno, loadDentry_thisIno hd]
        exact .here _ _
      exact withSelf_inodes.mp
        ((noDangling_changes_iff hself hd tx.dentries).mp (h _ hpass) n x hx)
    · intro h m' hpass
      rcases (passes_live hlive).mp hpass with rfl | hpass
      · exact hm
      · rcases passes_cons.mp hpass with rfl | ⟨m₁, l₁, hc, hrest⟩
        · exact hself
        · simp only [perform] at hc
          split at hc
          · cases hc
          · rename_i d hd
            cases hc
            rcases passes_cons.mp hrest with rfl | ⟨m₂, l₂, hc, hrest⟩
            · exact hself
            · cases hc
              refine passes_inodes (fun m ino i h => h.setInode ino i) ?_ ?_ hrest
              · intro c hc
                obtain ⟨f, -, hf⟩ := List.mem_filterMap.mp hc
                obtain ⟨i, -, rfl⟩ := Option.map_eq_some_iff.mp hf
                exact ⟨i, rfl⟩
              · rw [Transaction.syncDentries_thisIno, loadDentry_thisIno hd]
                refine (noDangling_changes_iff hself hd tx.dentries).mpr ?_
                intro n x hx
                have hok := loadDentry_isOk.mp ⟨d, hd⟩
                rw [withSelf_dentries] at hok
                exact withSelf_inodes.mpr (h (by simpa using hok) n x hx)

/-- It leaves no directory that does not fit. -/
theorem AllStorable.passes
    {tx : Transaction} (hm : m.AllStorable) (hroom : m.HasRoom tx)
    (hpass : Passes m tx.syncCalls m') : m'.AllStorable := by
  by_cases hdeleted : tx.status = .S_DELETED
  · rw [Transaction.syncCalls, if_pos hdeleted] at hpass
    rcases passes_cons.mp hpass with rfl | ⟨m₁, l₁, hc, hrest⟩
    · exact hm
    · cases hc
      rcases passes_cons.mp hrest with rfl | ⟨m₂, l₂, hc, hrest⟩
      · exact hm
      · cases hc
        rw [passes_nil.mp hrest]
        exact AllStorable.removeDentry hm tx.sIno
  · have hself : (m.withSelf tx.sInode).AllStorable := by
      intro ino l hl
      rw [withSelf_dentries] at hl
      exact hm ino l hl
    rcases (passes_live hdeleted).mp hpass with rfl | hpass
    · exact hm
    · rcases passes_cons.mp hpass with rfl | ⟨m₁, l₁, hc, hrest⟩
      · exact hself
      · simp only [perform] at hc
        split at hc
        · cases hc
        · rename_i d hd
          cases hc
          have hload : m.loadDentry tx.sIno (tx.status = .S_CREATED) = .ok d := by
            rw [← hd, loadDentry, loadDentry, withSelf_dentries]
          rcases passes_cons.mp hrest with rfl | ⟨m₂, l₂, hc, hrest⟩
          · exact hself
          · cases hc
            refine passes_inodes (fun m ino i h => h) ?_ ?_ hrest
            · intro c hc
              obtain ⟨f, -, hf⟩ := List.mem_filterMap.mp hc
              obtain ⟨i, -, rfl⟩ := Option.map_eq_some_iff.mp hf
              exact ⟨i, rfl⟩
            · exact hself.setDentry (hroom hdeleted d hload)

end Alone

end MetaStore

/-- The meta pool and what the checkpoint threads of all clients have left to
do. -/
structure MetaThreads where
  store : MetaStore
  threads : Nat → List SyncCall

namespace MetaThreads

/-- No checkpoint is running. -/
def idle (m : MetaStore) : MetaThreads := ⟨m, fun _ => []⟩

inductive Act where
  /-- a transaction is handed to a thread -/
  | start (k : Nat) (tx : Transaction)
  /-- the thread makes its next call -/
  | run (k : Nat)

/-- An exception ends the program of the client. -/
def step : Stepper MetaThreads Act
  | s, .start k tx =>
      match s.threads k with
      | [] => some { s with threads := Function.update s.threads k tx.syncCalls }
      | _ :: _ => none
  | s, .run k =>
      match s.threads k with
      | [] => none
      | c :: l =>
          match s.store.perform c with
          | .ok (m, l') => some ⟨m, Function.update s.threads k (l' ++ l)⟩
          | .error _ => some { s with threads := Function.update s.threads k [] }

/-- The inode number is listed, or a running checkpoint may list it. -/
def MayList (s : MetaThreads) (x : Uuid) : Prop :=
  s.store.Lists x ∨ ∃ k, ∃ c ∈ s.threads k, c.Lists x

/-- The inode is stored, and no running checkpoint removes it. -/
def Stays (s : MetaThreads) (x : Uuid) : Prop :=
  (s.store.inodes x).isSome ∧ ∀ k, .removeInode x ∉ s.threads k

/-- The checkpoint of a transaction starts when the inodes behind its new entries
are stored, and that of a removed directory when nothing lists it any more.  A
directory that is written fits into its object. -/
def Orderly (s : MetaThreads) : Act → Prop
  | .start _ tx =>
      if tx.status = .S_DELETED then ¬ s.MayList tx.sIno
      else ∀ n x, tx.dentries.lookup n = some (true, x) → s.Stays x
  | .run k => ∀ d l, s.threads k = .syncDentry d :: l → d.Storable

/-- What is listed, or about to be listed, is stored. -/
def Inv (s : MetaThreads) : Prop := ∀ x, s.MayList x → s.Stays x

section Steps

variable {s s' : MetaThreads}

/-- A step that lists nothing more and removes nothing that is listed. -/
theorem Inv.of_shrinks
    (hi : s.Inv) (hlist : ∀ x, s'.MayList x → s.MayList x)
    (hstays : ∀ x, s.MayList x → s.Stays x → s'.Stays x) : s'.Inv := by
  intro x hx
  have hold := hlist x hx
  exact hstays x hold (hi x hold)

theorem mem_update
    {k j : Nat} {l : List SyncCall} {c : SyncCall}
    (h : c ∈ Function.update s.threads k l j) :
    j = k ∧ c ∈ l ∨ j ≠ k ∧ c ∈ s.threads j := by
  rcases eq_or_ne j k with rfl | hne
  · rw [Function.update_self] at h
    exact .inl ⟨rfl, h⟩
  · rw [Function.update_of_ne hne] at h
    exact .inr ⟨hne, h⟩

/-- A call of a thread, with what it is followed by. -/
theorem Inv.performed
    (hi : s.Inv) {k : Nat} {c : SyncCall} {l l' : List SyncCall} {m : MetaStore}
    (hk : s.threads k = c :: l) (hc : s.store.perform c = .ok (m, l')) :
    Inv ⟨m, Function.update s.threads k (l' ++ l)⟩ := by
  have hmem : ∀ c' ∈ l, c' ∈ s.threads k := by
    intro c' hc'
    rw [hk]
    exact List.mem_cons_of_mem _ hc'
  have hcall : c ∈ s.threads k := by
    rw [hk]
    exact List.mem_cons_self
  -- what is listed now comes from the store, or from a call that is left
  have hlist : (∀ x, m.Lists x → s.MayList x) → (∀ c' ∈ l', ∀ x, c'.Lists x →
      s.MayList x) → ∀ x, MayList ⟨m, Function.update s.threads k (l' ++ l)⟩ x →
        s.MayList x := by
    rintro hm hl' x (hx | ⟨j, c', hc', hx⟩)
    · exact hm x hx
    · rcases mem_update hc' with ⟨-, hin⟩ | ⟨-, hin⟩
      · rcases List.mem_append.mp hin with hnew | hold
        · exact hl' c' hnew x hx
        · exact .inr ⟨k, c', hmem c' hold, hx⟩
      · exact .inr ⟨j, c', hin, hx⟩
  have hstays : ∀ x, (m.inodes x).isSome → (∀ c' ∈ l', c' ≠ .removeInode x) →
      s.Stays x → Stays ⟨m, Function.update s.threads k (l' ++ l)⟩ x := by
    rintro x hx hl' ⟨-, hkept⟩
    refine ⟨hx, ?_⟩
    intro j hj
    rcases mem_update hj with ⟨-, hin⟩ | ⟨-, hin⟩
    · rcases List.mem_append.mp hin with hnew | hold
      · exact hl' _ hnew rfl
      · exact hkept k (hmem _ hold)
    · exact hkept j hin
  cases c with
  | syncInode i =>
      cases hc
      refine hi.of_shrinks (hlist (fun x hx => .inl hx) nofun) ?_
      intro x _ hx
      refine hstays x ?_ nofun hx
      rcases eq_or_ne x i.core.ino with rfl | hne
      · simp [MetaStore.setInode]
      · simp only [MetaStore.setInode, Function.update_of_ne hne]
        exact hx.1
  | loadDentry ino mkdir changes =>
      simp only [MetaStore.perform] at hc
      split at hc
      · cases hc
      · rename_i d hload
        cases hc
        refine hi.of_shrinks (hlist (fun x hx => .inl hx) ?_) ?_
        · intro c' hc' x hx
          rw [List.mem_singleton.mp hc'] at hx
          obtain ⟨n, hn⟩ := hx
          rw [Transaction.syncDentries_lookup] at hn
          unfold Transaction.merged at hn
          split at hn
          · rename_i ino' hchange
            cases hn
            exact .inr ⟨k, _, hcall, n, hchange⟩
          · cases hn
          · exact .inl (MetaStore.lists_of_load hload hn)
        · intro x _ hx
          exact hstays x hx.1 (by simp) hx
  | syncDentry d =>
      cases hc
      refine hi.of_shrinks (hlist ?_ nofun) fun x _ hx => hstays x hx.1 nofun hx
      rintro x ⟨ino, l₁, n, hl₁, hn⟩
      simp only [MetaStore.setDentry] at hl₁
      rcases eq_or_ne ino d.thisIno with rfl | hne
      · rw [Function.update_self] at hl₁
        cases hl₁
        exact .inr ⟨k, _, hcall, n, hn⟩
      · rw [Function.update_of_ne hne] at hl₁
        exact .inl ⟨ino, l₁, n, hl₁, hn⟩
  | removeInode ino =>
      cases hc
      refine hi.of_shrinks (hlist (fun x hx => .inl hx) nofun) ?_
      intro x _ hx
      have hne : x ≠ ino := by
        rintro rfl
        exact hx.2 k hcall
      refine hstays x ?_ nofun hx
      simp only [MetaStore.setInode, Function.update_of_ne hne]
      exact hx.1
  | removeDentry ino =>
      cases hc
      refine hi.of_shrinks (hlist ?_ nofun) fun x _ hx => hstays x hx.1 nofun hx
      rintro x ⟨ino', l₁, n, hl₁, hn⟩
      simp only [MetaStore.setDentry] at hl₁
      rcases eq_or_ne ino' ino with rfl | hne
      · rw [Function.update_self] at hl₁
        cases hl₁
      · rw [Function.update_of_ne hne] at hl₁
        exact .inl ⟨ino', l₁, n, hl₁, hn⟩

theorem Inv.start
    (hi : s.Inv) {k : Nat} {tx : Transaction} (ho : s.Orderly (.start k tx)) :
    Inv { s with threads := Function.update s.threads k tx.syncCalls } := by
  simp only [Orderly] at ho
  split at ho
  · rename_i hdeleted
    have hcalls : tx.syncCalls = [.removeInode tx.sIno, .removeDentry tx.sIno] :=
      if_pos hdeleted
    rw [hcalls]
    refine hi.of_shrinks ?_ ?_
    · rintro x (hx | ⟨j, c, hc, hx⟩)
      · exact .inl hx
      · rcases mem_update hc with ⟨-, hc⟩ | ⟨-, hc⟩
        · simp only [List.mem_cons, List.not_mem_nil, or_false] at hc
          rcases hc with rfl | rfl
          · exact hx.elim
          · exact hx.elim
        · exact .inr ⟨j, c, hc, hx⟩
    · rintro x hlist ⟨hsome, hkept⟩
      refine ⟨hsome, ?_⟩
      intro j hj
      rcases mem_update hj with ⟨-, hj⟩ | ⟨-, hj⟩
      · simp only [List.mem_cons, List.not_mem_nil, or_false, reduceCtorEq,
          SyncCall.removeInode.injEq] at hj
        exact ho (hj ▸ hlist)
      · exact hkept j hj
  · rename_i hlive
    have hstays : ∀ x, s.Stays x →
        Stays { s with threads := Function.update s.threads k tx.syncCalls } x := by
      rintro x ⟨hsome, hkept⟩
      refine ⟨hsome, ?_⟩
      intro j hj
      rcases mem_update hj with ⟨-, hj⟩ | ⟨-, hj⟩
      · exact Transaction.removeInode_notMem hlive x hj
      · exact hkept j hj
    rintro x (hx | ⟨j, c, hc, hx⟩)
    · exact hstays x (hi x (.inl hx))
    · rcases mem_update hc with ⟨-, hc⟩ | ⟨-, hc⟩
      · obtain ⟨n, hn⟩ := Transaction.lists_of_syncCalls hc hx
        exact hstays x (ho n x hn)
      · exact hstays x (hi x (.inr ⟨j, c, hc, hx⟩))

theorem inv_step : step.InvariantUnder Orderly Inv := by
  rintro s a s' hi ho hstep
  cases a with
  | start k tx =>
      simp only [step] at hstep
      split at hstep
      · cases hstep
        exact hi.start ho
      · cases hstep
  | run k =>
      simp only [step] at hstep
      split at hstep
      · cases hstep
      · rename_i c l hk
        split at hstep
        · rename_i m l' hc
          cases hstep
          exact hi.performed hk hc
        · cases hstep
          refine hi.of_shrinks ?_ ?_
          · rintro x (hx | ⟨j, c', hc', hx⟩)
            · exact .inl hx
            · rcases mem_update hc' with ⟨-, hc'⟩ | ⟨-, hc'⟩
              · cases hc'
              · exact .inr ⟨j, c', hc', hx⟩
          · rintro x - ⟨hsome, hkept⟩
            refine ⟨hsome, ?_⟩
            intro j hj
            rcases mem_update hj with ⟨-, hj⟩ | ⟨-, hj⟩
            · cases hj
            · exact hkept j hj

theorem allStorable_step :
    step.InvariantUnder Orderly fun s => s.store.AllStorable := by
  rintro s a s' hi ho hstep
  cases a with
  | start k tx =>
      simp only [step] at hstep
      split at hstep
      · cases hstep
        exact hi
      · cases hstep
  | run k =>
      simp only [step] at hstep
      split at hstep
      · cases hstep
      · rename_i c l hk
        split at hstep
        · rename_i m l' hc
          cases hstep
          cases c with
          | syncInode i =>
              cases hc
              exact hi
          | loadDentry ino mkdir changes =>
              simp only [MetaStore.perform] at hc
              split at hc
              · cases hc
              · cases hc
                exact hi
          | syncDentry d =>
              cases hc
              exact MetaStore.AllStorable.setDentry hi (ho d l hk)
          | removeInode ino =>
              cases hc
              exact hi
          | removeDentry ino =>
              cases hc
              exact MetaStore.AllStorable.removeDentry hi ino
        · cases hstep
          exact hi

theorem inv_idle {m : MetaStore} (hm : m.NoDangling) : (idle m).Inv := by
  rintro x (hx | ⟨k, c, hc, -⟩)
  · exact ⟨hm x hx, fun _ => List.not_mem_nil⟩
  · cases hc

/-- A checkpoint that runs alone lets no entry dangle if and only if it is ready.
In every run in which each checkpoint starts orderly no entry dangles, and every
directory that is stored can be loaded.  The directories fit into their objects. -/
theorem no_dangling_iff_ready
    {m : MetaStore} (hm : m.NoDangling) (hfits : m.AllStorable) :
    (∀ tx, m.HasRoom tx →
      ((∀ m', MetaStore.Passes m tx.syncCalls m' → m'.NoDangling) ↔ m.Ready tx) ∧
        ∀ m', MetaStore.Passes m tx.syncCalls m' → m'.AllStorable) ∧
      ∀ as s, step.Steps Orderly (idle m) as → step.runFrom (idle m) as = some s →
        s.store.AllStorable ∧ s.store.NoDangling ∧
          ∀ dirIno, (s.store.dentries dirIno).isSome →
            ∃ r, s.store.pullChildMetadata dirIno = .ok r := by
  refine ⟨fun tx hroom => ⟨MetaStore.passes_noDangling_iff hm tx,
    fun m' hpass => hfits.passes hroom hpass⟩, ?_⟩
  intro as s hsteps hrun
  have hi := inv_step.runFrom (inv_idle hm) hsteps hrun
  have hstore : s.store.NoDangling := fun x hx => (hi x (.inl hx)).1
  exact ⟨allStorable_step.runFrom hfits hsteps hrun, hstore,
    MetaStore.noDangling_iff_pull.mp hstore⟩

end Steps

section Examples

open Directory

/-- The root directory is stored, without entries. -/
def rootStore : MetaStore where
  inodes := Function.update (fun _ => none) .root (some emptyRoot.table.thisDirInode)
  dentries := Function.update (fun _ => none) .root (some ∅)

theorem rootStore_entries {ino : Uuid} {l : ChildList}
    (hl : rootStore.dentries ino = some l) : l = ∅ := by
  simp only [rootStore] at hl
  rcases eq_or_ne ino .root with rfl | hne
  · rw [Function.update_self] at hl
    cases hl
    rfl
  · rw [Function.update_of_ne hne] at hl
    cases hl

theorem rootStore_noDangling : rootStore.NoDangling := by
  rintro x ⟨ino, l, n, hl, hn⟩
  rw [rootStore_entries hl] at hn
  cases hn

/-- The transaction of the root directory in which the file `a` is created. -/
def createsFile : Transaction := rootWithFile.journal.getEntry .root

/-- A new directory `a` in the root directory. -/
def newDir : Inode := .new .root 0 0 (sIFDIR ||| 0o755) inoA ⟨1700000001, 0⟩

def makesSelf : Transaction := ((Transaction.new inoA).mkself newDir).2

def makesEntry : Transaction :=
  ((Transaction.new .root).mkdir emptyRoot.table.thisDirInode [97] inoA).2

/-- The transaction of the new directory is checkpointed, and then that of the root
directory. -/
def inOrder : List Act :=
  [.start 0 makesSelf, .run 0, .run 0, .run 0, .start 1 makesEntry, .run 1, .run 1,
    .run 1]

theorem rootStore_allStorable : rootStore.AllStorable := by
  intro ino l hl
  rw [rootStore_entries hl]
  exact Dentry.storable_empty ino

theorem steps_inOrder : step.Steps Orderly (idle rootStore) inOrder := by
  refine .cons nofun rfl (.cons nofun rfl (.cons nofun rfl (.cons ?_ rfl (.cons ?_ rfl
    (.cons nofun rfl (.cons nofun rfl (.cons ?_ rfl trivial)))))))
  · rintro d l ⟨⟩
    exact Dentry.storable_empty inoA
  · change ∀ n x, makesEntry.dentries.lookup n = some (true, x) → _
    intro n x hx
    have hchanges : makesEntry.dentries = AList.insert [97] (true, inoA) ∅ := rfl
    rw [hchanges] at hx
    rcases eq_or_ne n [97] with rfl | hne
    · cases hx
      -- no thread has anything left to do
      refine ⟨rfl, fun k hk => ?_⟩
      cases k with
      | zero => cases hk
      | succ k => cases hk
    · rw [AList.lookup_insert_ne hne] at hx
      cases hx
  · rintro d l ⟨⟩
    refine ⟨?_, by decide⟩
    have hsize : (Transaction.syncDentries makesEntry.dentries
        ⟨makesEntry.sIno, ∅⟩).rawSize = 29 := rfl
    rw [hsize, objSize]
    decide

/-- The directory is listed when its inode is stored. -/
theorem no_dangling_mkdir :
    ∃ s, step.runFrom (idle rootStore) inOrder = some s ∧ s.store.Lists inoA ∧
      s.store.NoDangling ∧ ∃ r, s.store.pullChildMetadata .root = .ok r := by
  have hruns := (no_dangling_iff_ready rootStore_noDangling rootStore_allStorable).2
    inOrder _ steps_inOrder rfl
  exact ⟨_, rfl, ⟨.root, _, [97], rfl, by decide⟩, hruns.2.1, hruns.2.2 .root rfl⟩

/-- Between the writes of the DENTRY object and of the new INODE object, the
directory cannot be loaded. -/
theorem dangling_create :
    ∃ s, step.runFrom (idle rootStore) [.start 0 createsFile, .run 0, .run 0, .run 0] =
        some s ∧
      (s.store.inodes .root).isSome ∧ (s.store.dentries .root).isSome ∧
      ¬ s.store.NoDangling ∧
      s.store.pullChildMetadata .root =
        .error (.noEntry "No such file or Directory: in inode(ino) constructor") := by
  refine ⟨_, rfl, by decide, by decide, ?_, rfl⟩
  intro h
  exact absurd (h inoA ⟨.root, _, [97], rfl, by decide⟩) (by decide)

end Examples

end MetaThreads

end Nmfs
