import Nmfs.Lib.Overwrites
import Nmfs.Journal.JournalTable
import Nmfs.Journal.MetaStore

/-!
# Replaying a redo log

`sync` does not look at what it overwrites.  A transaction sets an entry or
removes it, and writes an inode as a whole; one that begins with `mkself` sets
every entry of the directory, since it begins with no entries.

So old transactions may be synced again over a newer store: it moves back to an
old state first, and comes to the same end (`syncAll_again`).  The limit of a
DENTRY object is left to `Nmfs.Journal.LogReplay`.
-/

namespace Nmfs

namespace MetaStore

/-- A call, and the call that it is followed by. -/
def execCall (m : MetaStore) (c : SyncCall) : Except Exn MetaStore :=
  match m.perform c with
  | .error e => .error e
  | .ok (m', []) => .ok m'
  | .ok (m', c' :: _) =>
      match m'.perform c' with
      | .error e => .error e
      | .ok (m'', _) => .ok m''

def execCalls (m : MetaStore) : List SyncCall → Except Exn MetaStore
  | [] => .ok m
  | c :: l =>
      match m.execCall c with
      | .error e => .error e
      | .ok m' => execCalls m' l

/-- `transaction::sync` -/
def sync (m : MetaStore) (tx : Transaction) : Except Exn MetaStore :=
  m.execCalls tx.syncCalls

/-- `sync` of some transactions, one after the other. -/
def syncAll (m : MetaStore) : List Transaction → Except Exn MetaStore
  | [] => .ok m
  | tx :: txs =>
      match m.sync tx with
      | .error e => .error e
      | .ok m' => syncAll m' txs

/-- The inode number of a name. -/
def entry (m : MetaStore) (ino : Uuid) (name : Name) : Option Uuid :=
  (m.dentries ino).bind (·.lookup name)

/-- The same inodes and directories, with the same entries. -/
structure Same (m m' : MetaStore) : Prop where
  inodes : ∀ ino, m.inodes ino = m'.inodes ino
  dentries : ∀ ino, (m.dentries ino).isSome = (m'.dentries ino).isSome
  entries : ∀ ino name, m.entry ino name = m'.entry ino name

end MetaStore

namespace Transaction

/-- What `sync` does to an INODE object. -/
def inodeWrite (tx : Transaction) (ino : Uuid) : Option (Option Inode) :=
  match tx.fInodes.lookup ino with
  | some (some i) => some (some i)
  | _ =>
      match tx.sInode with
      | some s => if s.core.ino = ino then some (some s) else none
      | none => none

/-- What `sync` does to an entry of the directory. -/
def entryWrite (tx : Transaction) (name : Name) : Option (Option Uuid) :=
  if tx.status = .S_CREATED then some (merged tx.dentries ∅ name)
  else
    match tx.dentries.lookup name with
    | some (true, ino) => some (some ino)
    | some (false, _) => some none
    | none => none

end Transaction

namespace Transaction

/-- A transaction of a directory, and the calls that have made it. -/
inductive LoggedBy (dirIno : Uuid) : List TxOp → Transaction → Prop
  | new : LoggedBy dirIno [] (.new dirIno)
  | apply {ops : List TxOp} {tx : Transaction} (op : TxOp)
      (h : LoggedBy dirIno ops tx) (hopen : tx.committed = false)
      (hself : ∀ s, op.selfInode? = some s → s.IsDirectory) :
      LoggedBy dirIno (ops ++ [op]) (op.apply tx).2
  | rehash {ops : List TxOp} {tx : Transaction} (dentries : TxDentries)
      (fInodes : FInodes) (h : LoggedBy dirIno ops tx)
      (hd : tx.dentries.entries.Perm dentries.entries)
      (hf : tx.fInodes.entries.Perm fInodes.entries) :
      LoggedBy dirIno ops { tx with dentries := dentries, fInodes := fInodes }
  | commit {ops : List TxOp} {tx : Transaction} (offset : Nat)
      (h : LoggedBy dirIno ops tx) :
      LoggedBy dirIno ops { tx with committed := true, offset := offset }

section LoggedBy

variable {dirIno : Uuid} {ops : List TxOp} {tx : Transaction}

theorem LoggedBy.sound (h : LoggedBy dirIno ops tx) : tx.Sound := by
  induction h with
  | new => exact ⟨by simp [Transaction.new], by simp [Transaction.new]⟩
  | apply op h hopen hself ih => exact ih.apply op hself
  | rehash dentries fInodes h hd hf ih =>
      refine ⟨?_, ih.self⟩
      intro ino i hi
      exact ih.files ino i ((AList.perm_lookup hf).trans hi)
  | commit offset h ih => exact ⟨ih.files, ih.self⟩

theorem LoggedBy.sIno (h : LoggedBy dirIno ops tx) : tx.sIno = dirIno := by
  induction h with
  | new => rfl
  | apply op h hopen hself ih => rw [(op.apply_frame _).1, ih]
  | rehash dentries fInodes h hd hf ih => exact ih
  | commit offset h ih => exact ih

theorem LoggedBy.not_deleted
    (h : LoggedBy dirIno ops tx) (hops : .rmself ∉ ops) :
    tx.status ≠ .S_DELETED := by
  induction h with
  | new => exact nofun
  | apply op h hopen hself ih =>
      rw [List.mem_append, List.mem_singleton, not_or] at hops
      exact fun hdel => ih hops.1 (TxOp.apply_deleted (Ne.symm hops.2) hdel)
  | rehash dentries fInodes h hd hf ih => exact ih hops
  | commit offset h ih => exact ih hops

/-- Only `mkself` and `rmself` set the status. -/
theorem apply_created
    {op : TxOp} (hop : op ≠ .rmself) (h : tx.status = .S_CREATED) :
    (op.apply tx).2.status = .S_CREATED := by
  cases op with
  | rmself => exact absurd rfl hop
  | mkself | chself | mkdir | rmdir | mvdir | mkreg | rmreg | mvreg | chreg =>
      simp only [TxOp.apply, mkself, chself, mkdir, rmdir, mvdir, mkreg, rmreg,
        mvreg, chreg]
      (repeat' split) <;> first | exact h | rfl

theorem LoggedBy.created
    (h : LoggedBy dirIno ops tx) (hops : .rmself ∉ ops) {s : Inode}
    (hmk : .mkself s ∈ ops) : tx.status = .S_CREATED := by
  induction h with
  | new => cases hmk
  | @apply ops tx op h hopen hself ih =>
      rw [List.mem_append, List.mem_singleton, not_or] at hops
      rw [List.mem_append, List.mem_singleton] at hmk
      rcases hmk with hold | rfl
      · exact apply_created (Ne.symm hops.2) (ih hops.1 hold)
      · simp [TxOp.apply, mkself, hopen]
  | rehash dentries fInodes h hd hf ih => exact ih hops hmk
  | commit offset h ih => exact ih hops hmk

end LoggedBy

end Transaction

namespace MetaStore

open Transaction

variable {m m' : MetaStore} {tx : Transaction}

section Calls

theorem execCalls_append
    {l l' : List SyncCall} (h : m.execCalls l = .ok m') :
    m.execCalls (l ++ l') = m'.execCalls l' := by
  induction l generalizing m with
  | nil =>
      cases h
      rfl
  | cons c l ih =>
      rw [List.cons_append, execCalls]
      rw [execCalls] at h
      cases hc : m.execCall c with
      | error e =>
          rw [hc] at h
          cases h
      | ok m₁ =>
          rw [hc] at h
          exact ih h

/-- The inodes of the files are written one after the other. -/
theorem execCalls_fInodes
    {l : List ((_ : Uuid) × Option Inode)} (hl : l.NodupKeys)
    (hino : ∀ ino i, ⟨ino, some i⟩ ∈ l → i.core.ino = ino) (m : MetaStore) :
    ∃ m', m.execCalls (l.filterMap fun f => f.2.map .syncInode) = .ok m' ∧
      m'.dentries = m.dentries ∧
      ∀ ino, m'.inodes ino =
        match l.dlookup ino with
        | some (some i) => some i
        | _ => m.inodes ino := by
  induction l generalizing m with
  | nil => exact ⟨m, rfl, rfl, fun _ => rfl⟩
  | cons f l ih =>
      obtain ⟨ino, fi⟩ := f
      rw [List.nodupKeys_cons] at hl
      have hrest := ih hl.2 fun ino i h => hino ino i (List.mem_cons_of_mem _ h)
      cases fi with
      | none =>
          obtain ⟨m', hexec, hdentries, hinodes⟩ := hrest m
          refine ⟨m', hexec, hdentries, ?_⟩
          intro ino'
          rw [hinodes]
          rcases eq_or_ne ino' ino with rfl | hne
          · rw [List.dlookup_eq_none.mpr hl.1, List.dlookup_cons_eq]
          · rw [List.dlookup_cons_ne _ _ hne]
      | some i =>
          have hi : i.core.ino = ino := hino ino i List.mem_cons_self
          obtain ⟨m', hexec, hdentries, hinodes⟩ := hrest (m.setInode ino (some i))
          refine ⟨m', ?_, hdentries, ?_⟩
          · rw [← hi] at hexec
            exact hexec
          · intro ino'
            rw [hinodes]
            rcases eq_or_ne ino' ino with rfl | hne
            · rw [List.dlookup_eq_none.mpr hl.1, List.dlookup_cons_eq]
              simp [setInode]
            · rw [List.dlookup_cons_ne _ _ hne]
              simp [setInode, hne]

end Calls

/-- The inode of the directory is written first. -/
theorem execCalls_sInode (tx : Transaction) (m : MetaStore) :
    ∃ m', m.execCalls (tx.sInode.map .syncInode).toList = .ok m' ∧
      m'.dentries = m.dentries ∧
      ∀ ino, m'.inodes ino =
        match tx.sInode with
        | some s => if s.core.ino = ino then some s else m.inodes ino
        | none => m.inodes ino := by
  cases tx.sInode with
  | none => exact ⟨m, rfl, rfl, fun _ => rfl⟩
  | some s =>
      refine ⟨m.setInode s.core.ino (some s), rfl, rfl, ?_⟩
      intro ino
      rcases eq_or_ne ino s.core.ino with rfl | hne
      · simp [setInode]
      · simp [setInode, hne, Ne.symm hne]

/-- The entries are read and written back with the changes. -/
theorem execCall_loadDentry
    (tx : Transaction)
    (hload : tx.status = .S_CREATED ∨ (m.dentries tx.sIno).isSome) :
    ∃ l, m.execCall (.loadDentry tx.sIno (tx.status = .S_CREATED) tx.dentries) =
        .ok (m.setDentry tx.sIno (some l)) ∧
      ∀ name, l.lookup name = (tx.entryWrite name).getD (m.entry tx.sIno name) := by
  by_cases hcreated : tx.status = .S_CREATED
  · refine ⟨(syncDentries tx.dentries ⟨tx.sIno, ∅⟩).childList, ?_, ?_⟩
    · simp [execCall, perform, loadDentry, hcreated, syncDentries_thisIno]
    · intro name
      rw [syncDentries_lookup, entryWrite, if_pos hcreated]
      rfl
  · obtain ⟨old, hold⟩ := Option.isSome_iff_exists.mp (hload.resolve_left hcreated)
    refine ⟨(syncDentries tx.dentries ⟨tx.sIno, old⟩).childList, ?_, ?_⟩
    · simp [execCall, perform, loadDentry, hcreated, hold, syncDentries_thisIno]
    · intro name
      rw [syncDentries_lookup, entryWrite, if_neg hcreated, merged, entry, hold]
      match tx.dentries.lookup name with
      | none | some (true, _) | some (false, _) => rfl

/-- What `sync` does to the objects, unless the directory is removed. -/
theorem sync_ok
    (hfiles : ∀ ino i, tx.fInodes.lookup ino = some (some i) → i.core.ino = ino)
    (hstatus : tx.status ≠ .S_DELETED)
    (hload : tx.status = .S_CREATED ∨ (m.dentries tx.sIno).isSome) :
    ∃ m', m.sync tx = .ok m' ∧
      (∀ ino, m'.inodes ino = (tx.inodeWrite ino).getD (m.inodes ino)) ∧
      (m'.dentries tx.sIno).isSome ∧
      (∀ name, m'.entry tx.sIno name =
        (tx.entryWrite name).getD (m.entry tx.sIno name)) ∧
      ∀ ino, ino ≠ tx.sIno → m'.dentries ino = m.dentries ino := by
  obtain ⟨m₁, hexec₁, hdentries₁, hinodes₁⟩ := execCalls_sInode tx m
  have hentry₁ : ∀ name, m₁.entry tx.sIno name = m.entry tx.sIno name := by
    intro name
    rw [entry, hdentries₁, entry]
  obtain ⟨l, hexec₂, hlookup⟩ := execCall_loadDentry (m := m₁) tx
    (by rw [hdentries₁]; exact hload)
  obtain ⟨m₃, hexec₃, hdentries₃, hinodes₃⟩ := execCalls_fInodes
    tx.fInodes.nodupKeys (fun ino i h => hfiles ino i (AList.mem_lookup_iff.mpr h)) (m₁.setDentry tx.sIno (some l))
  have hself : m₃.dentries tx.sIno = some l := by
    rw [hdentries₃]
    exact Function.update_self ..
  refine ⟨m₃, ?_, ?_, ?_, ?_, ?_⟩
  · rw [sync, syncCalls, if_neg hstatus, execCalls_append hexec₁, execCalls, hexec₂]
    exact hexec₃
  · intro ino
    rw [hinodes₃, inodeWrite, AList.lookup]
    have hinode := hinodes₁ ino
    match tx.fInodes.entries.dlookup ino with
    | some (some i) => rfl
    | none | some none =>
        refine Eq.trans (show _ = m₁.inodes ino from rfl) (hinode.trans ?_)
        cases tx.sInode with
        | none => rfl
        | some s =>
            dsimp only
            split <;> rfl
  · rw [hself]
    rfl
  · intro name
    rw [entry, hself, ← hentry₁]
    exact hlookup name
  · intro ino hne
    rw [hdentries₃, ← hdentries₁]
    exact Function.update_of_ne hne ..

/-- What a `sync` that succeeds does to an INODE object. -/
theorem sync_inodes
    (hfiles : ∀ ino i, tx.fInodes.lookup ino = some (some i) → i.core.ino = ino)
    (hstatus : tx.status ≠ .S_DELETED) (h : m.sync tx = .ok m') (ino : Uuid) :
    m'.inodes ino = (tx.inodeWrite ino).getD (m.inodes ino) := by
  by_cases hload : tx.status = .S_CREATED ∨ (m.dentries tx.sIno).isSome
  · obtain ⟨m₁, hsync, hinodes, -⟩ := sync_ok hfiles hstatus hload
    rw [hsync] at h
    cases h
    exact hinodes ino
  · -- the DENTRY object is missing
    obtain ⟨hcreated, hnone⟩ := not_or.mp hload
    obtain ⟨m₁, hexec, hdentries, -⟩ := execCalls_sInode tx m
    have hno : m₁.dentries tx.sIno = none := by
      rw [hdentries]
      simpa using hnone
    rw [sync, syncCalls, if_neg hstatus, execCalls_append hexec, execCalls] at h
    simp [execCall, perform, loadDentry, hcreated, hno] at h

/-- A removed directory leaves the other INODE objects alone. -/
theorem sync_deleted
    (hstatus : tx.status = .S_DELETED) (h : m.sync tx = .ok m') {ino : Uuid}
    (hne : ino ≠ tx.sIno) : m'.inodes ino = m.inodes ino := by
  rw [sync, syncCalls, if_pos hstatus] at h
  simp only [execCalls, execCall, perform, Except.ok.injEq] at h
  subst h
  exact Function.update_of_ne hne ..

/-- What a log does to the objects, if the directory exists when it begins or is
made by its first transaction. -/
theorem syncAll_ok
    {dirIno : Uuid} {txs : List Transaction}
    (htxs : ∀ tx ∈ txs, tx.Sound ∧ tx.sIno = dirIno ∧ tx.status ≠ .S_DELETED)
    (hbegin : ∀ tx, txs.head? = some tx →
      tx.status = .S_CREATED ∨ (m.dentries dirIno).isSome) :
    ∃ m', m.syncAll txs = .ok m' ∧
      (∀ ino, m'.inodes ino =
        Overwrites.after (m.inodes ino) (txs.map (·.inodeWrite ino))) ∧
      (m'.dentries dirIno).isSome =
        Overwrites.after (m.dentries dirIno).isSome (txs.map fun _ => some true) ∧
      (∀ name, m'.entry dirIno name =
        Overwrites.after (m.entry dirIno name) (txs.map (·.entryWrite name))) ∧
      ∀ ino, ino ≠ dirIno → m'.dentries ino = m.dentries ino := by
  induction txs generalizing m with
  | nil => exact ⟨m, rfl, fun _ => rfl, rfl, fun _ => rfl, fun _ _ => rfl⟩
  | cons tx txs ih =>
      obtain ⟨hsound, rfl, hstatus⟩ := htxs tx List.mem_cons_self
      obtain ⟨m₁, hsync, hinodes, hsome, hentries, hothers⟩ :=
        sync_ok hsound.files hstatus (hbegin tx rfl)
      obtain ⟨m₂, hrest, hinodes₂, hsome₂, hentries₂, hothers₂⟩ :=
        ih (fun tx' h => htxs tx' (List.mem_cons_of_mem tx h))
          fun _ _ => .inr hsome
      refine ⟨m₂, by rw [syncAll, hsync]; exact hrest, ?_, ?_, ?_, ?_⟩
      · intro ino
        rw [hinodes₂, hinodes]
        rfl
      · rw [hsome₂, hsome]
        rfl
      · intro name
        rw [hentries₂, hentries]
        rfl
      · intro ino hne
        rw [hothers₂ ino hne, hothers ino hne]

/-- A log that is synced again, over what any part of it has left, comes to the same
store. -/
theorem syncAll_again
    {m : MetaStore} {dirIno : Uuid} {txs : List Transaction}
    (htxs : ∀ tx ∈ txs, ∃ ops, LoggedBy dirIno ops tx ∧ .rmself ∉ ops)
    (hbegin : (m.dentries dirIno).isSome ∨ ∃ tx rest s ops,
      txs = tx :: rest ∧ LoggedBy dirIno (.mkself s :: ops) tx ∧ .rmself ∉ ops)
    (j : Nat) :
    ∃ m₁ m₂ m₃, m.syncAll (txs.take j) = .ok m₁ ∧ m₁.syncAll txs = .ok m₂ ∧
      m.syncAll txs = .ok m₃ ∧ m₂.Same m₃ := by
  have hlogged : ∀ tx ∈ txs,
      tx.Sound ∧ tx.sIno = dirIno ∧ tx.status ≠ .S_DELETED := by
    intro tx htx
    obtain ⟨ops, hlog, hrm⟩ := htxs tx htx
    exact ⟨hlog.sound, hlog.sIno, hlog.not_deleted hrm⟩
  have hhead : (m.dentries dirIno).isSome ∨
      ∀ tx, txs.head? = some tx → tx.status = .S_CREATED := by
    refine hbegin.imp_right ?_
    rintro ⟨tx, rest, s, ops, rfl, hlog, hrm⟩ tx' htx'
    cases htx'
    exact hlog.created (by simp [hrm]) List.mem_cons_self
  have hhead₀ : ∀ tx, (txs.take j).head? = some tx →
      tx.status = .S_CREATED ∨ (m.dentries dirIno).isSome := by
    intro tx htx
    refine hhead.symm.imp_left fun h => h tx ?_
    rw [List.head?_take] at htx
    split at htx
    · cases htx
    · exact htx
  obtain ⟨m₁, hfirst, hinodes₁, hsome₁, hentries₁, hothers₁⟩ :=
    @syncAll_ok m dirIno (txs.take j)
      (fun tx h => hlogged tx (List.mem_of_mem_take h)) hhead₀
  -- an existing directory stays
  have hhead₁ : ∀ tx, txs.head? = some tx →
      tx.status = .S_CREATED ∨ (m₁.dentries dirIno).isSome := by
    intro tx htx
    rcases hhead with hsome | hcreated
    · right
      rw [hsome₁, hsome]
      generalize txs.take j = l
      induction l with
      | nil => rfl
      | cons _ _ ih => exact ih
    · exact .inl (hcreated tx htx)
  obtain ⟨m₂, hsecond, hinodes₂, hsome₂, hentries₂, hothers₂⟩ :=
    syncAll_ok (m := m₁) hlogged hhead₁
  obtain ⟨m₃, honce, hinodes₃, hsome₃, hentries₃, hothers₃⟩ :=
    syncAll_ok (m := m) hlogged fun tx h => hhead.symm.imp_left fun h' => h' tx h
  have hsub : ∀ {γ : Type} (g : Transaction → γ),
      ∀ w ∈ (txs.take j).map g, w ∈ txs.map g := by
    intro γ g w hw
    obtain ⟨tx, htx, rfl⟩ := List.mem_map.mp hw
    exact List.mem_map_of_mem (List.mem_of_mem_take htx)
  refine ⟨m₁, m₂, m₃, hfirst, hsecond, honce, ?_, ?_, ?_⟩
  · intro ino
    rw [hinodes₂, hinodes₁, hinodes₃]
    exact Overwrites.after_replay (hsub _) _
  · intro ino
    rcases eq_or_ne ino dirIno with rfl | hne
    · rw [hsome₂, hsome₁, hsome₃]
      exact Overwrites.after_replay (hsub _) _
    · rw [hothers₂ ino hne, hothers₁ ino hne, hothers₃ ino hne]
  · intro ino name
    rcases eq_or_ne ino dirIno with rfl | hne
    · rw [hentries₂, hentries₁, hentries₃]
      exact Overwrites.after_replay (hsub _) _
    · rw [entry, entry, hothers₂ ino hne, hothers₁ ino hne, hothers₃ ino hne]

end MetaStore

end Nmfs
