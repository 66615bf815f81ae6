import Nmfs.Journal.Transaction

/-!
# The journal of a client

`journal_table` maps a directory to its current transaction, which `get_entry`
makes when it is missing.  A call of the journal is a method of the current
transaction; a commit cycle takes the whole map and commits the transactions in
it.  Nothing here is concurrent: a call runs between two commit cycles.

`entry` is what the journal says about a name: the last word of the committed
transactions of the directory and its current one.
-/

namespace Nmfs

namespace TxOp

/-- What the methods leave alone. -/
theorem apply_frame (op : TxOp) (tx : Transaction) :
    (op.apply tx).2.sIno = tx.sIno ∧ (op.apply tx).2.committed = tx.committed := by
  cases op <;>
    simp only [apply, Transaction.mkself, Transaction.rmself,
      Transaction.chself, Transaction.mkdir, Transaction.rmdir,
      Transaction.mvdir, Transaction.mkreg, Transaction.rmreg,
      Transaction.mvreg, Transaction.chreg] <;>
    repeat' split
  all_goals exact ⟨rfl, rfl⟩

/-- Only `rmself` marks a directory as deleted. -/
theorem apply_deleted
    {op : TxOp} (h : op ≠ .rmself) {tx : Transaction}
    (hdel : (op.apply tx).2.status = .S_DELETED) : tx.status = .S_DELETED := by
  revert hdel
  cases op with
  | rmself => exact absurd rfl h
  | mkself s =>
      simp only [apply, Transaction.mkself]
      split
      · exact id
      · rintro ⟨⟩
  | _ =>
      simp only [apply, Transaction.chself, Transaction.mkdir,
        Transaction.rmdir, Transaction.mvdir, Transaction.mkreg,
        Transaction.rmreg, Transaction.mvreg, Transaction.chreg]
      repeat' split
      all_goals exact id

/-- A transaction that is not committed does not ask for another one. -/
theorem apply_ne_committed
    (op : TxOp) {tx : Transaction} (hopen : tx.committed = false) :
    (op.apply tx).1 ≠ .committed := by
  cases op <;>
    simp only [apply, Transaction.mkself, Transaction.rmself,
      Transaction.chself, Transaction.mkdir, Transaction.rmdir,
      Transaction.mvdir, Transaction.mkreg, Transaction.rmreg,
      Transaction.mvreg, Transaction.chreg, hopen, Bool.false_eq_true,
      if_false] <;>
    repeat' split
  all_goals simp

/-- The calls that set one entry. -/
inductive Sets : TxOp → Name → Bool → Uuid → Prop
  | mkdir (selfInode : Inode) (dName : Name) (dIno : Uuid) :
      Sets (.mkdir selfInode dName dIno) dName true dIno
  | rmdir (selfInode : Inode) (dName : Name) (dIno : Uuid) :
      Sets (.rmdir selfInode dName dIno) dName false dIno
  | mkreg (selfInode : Inode) (fName : Name) (fInode : Inode) :
      Sets (.mkreg selfInode fName fInode) fName true fInode.core.ino
  | rmreg (selfInode : Inode) (fName : Name) (fInode : Inode) :
      Sets (.rmreg selfInode fName fInode) fName false fInode.core.ino

theorem Sets.ne_rmself
    {op : TxOp} {name : Name} {alive : Bool} {ino : Uuid}
    (h : op.Sets name alive ino) : op ≠ .rmself := by
  rintro rfl
  cases h

/-- The calls that set no entry. -/
inductive Keeps : TxOp → Prop
  | mkself (selfInode : Inode) : Keeps (.mkself selfInode)
  | rmself : Keeps .rmself
  | chself (selfInode : Inode) : Keeps (.chself selfInode)
  | chreg (fInode : Inode) : Keeps (.chreg fInode)

section Entries

open Transaction

variable {op : TxOp} {name : Name} {alive : Bool} {ino : Uuid}
  {tx : Transaction}

/-- A call that contradicts an earlier one throws and does nothing. -/
theorem Sets.apply_of_has
    (h : op.Sets name alive ino) (hopen : tx.committed = false)
    (hhas : tx.hasDentry name alive = true) :
    ∃ e, op.apply tx = (.throws e, tx) := by
  cases h <;>
    simp [apply, Transaction.mkdir, Transaction.rmdir, Transaction.mkreg,
      Transaction.rmreg, hopen, hhas]

/-- Otherwise the entry is set, even if the call throws in the end. -/
theorem Sets.apply_dentries
    (h : op.Sets name alive ino) (hopen : tx.committed = false)
    (hhas : tx.hasDentry name alive = false) :
    (op.apply tx).2.dentries = tx.dentries.insert name (alive, ino) := by
  cases h <;>
    simp only [apply, Transaction.mkdir, Transaction.rmdir, Transaction.mkreg,
      Transaction.rmreg, hopen, hhas, Bool.false_eq_true, if_false] <;>
    try split
  all_goals rfl

theorem Keeps.apply_dentries
    (h : op.Keeps) (tx : Transaction) :
    (op.apply tx).2.dentries = tx.dentries := by
  cases h <;>
    simp only [apply, Transaction.mkself, Transaction.rmself,
      Transaction.chself, Transaction.chreg] <;>
    split
  all_goals rfl

theorem Keeps.apply_done
    (h : op.Keeps) (hopen : tx.committed = false) :
    (op.apply tx).1 = .done := by
  cases h <;>
    simp [apply, Transaction.mkself, Transaction.rmself, Transaction.chself,
      Transaction.chreg, hopen]

theorem mkdir_done
    (s : Inode) (hopen : tx.committed = false)
    (hhas : tx.hasDentry name true = false) :
    ((TxOp.mkdir s name ino).apply tx).1 = .done := by
  simp [apply, Transaction.mkdir, hopen, hhas]

theorem mkreg_done
    (s : Inode) {f : Inode} (hopen : tx.committed = false)
    (hhas : tx.hasDentry name true = false)
    (hnew : (tx.fInodes.lookup f.core.ino).join = none) :
    ((TxOp.mkreg s name f).apply tx).1 = .done := by
  simp only [apply, Transaction.mkreg, hopen, hhas, Bool.false_eq_true, if_false]
  split
  · rename_i i hi
    rw [hi] at hnew
    cases hnew
  · rfl

theorem hasDentry_eq_true_iff :
    tx.hasDentry name alive = true ↔
      ∃ ino, tx.dentries.lookup name = some (alive, ino) := by
  unfold hasDentry
  cases h : tx.dentries.lookup name with
  | none => simp
  | some x =>
      obtain ⟨alive', ino⟩ := x
      simp

end Entries

end TxOp

/-- `journal_table`, and the transactions that have been committed, in order. -/
structure Journal where
  map : AList (fun _ : Uuid => Transaction)
  log : List Transaction
  owner : ∀ ino tx, map.lookup ino = some tx →
    tx.sIno = ino ∧ tx.committed = false

namespace Journal

def new : Journal where
  map := ∅
  log := []
  owner := by simp

/-- Without the transaction of a directory. -/
theorem owner_erase
    (j : Journal) (ino ino' : Uuid) (tx : Transaction)
    (htx : (j.map.erase ino).lookup ino' = some tx) :
    tx.sIno = ino' ∧ tx.committed = false := by
  by_cases hne : ino' = ino
  · subst hne
    rw [AList.lookup_erase] at htx
    cases htx
  · rw [AList.lookup_erase_ne hne] at htx
    exact j.owner ino' tx htx

/-- `journal_table::get_entry` -/
def getEntry (j : Journal) (ino : Uuid) : Transaction :=
  (j.map.lookup ino).getD (.new ino)

theorem getEntry_owner (j : Journal) (ino : Uuid) :
    (j.getEntry ino).sIno = ino ∧ (j.getEntry ino).committed = false := by
  unfold getEntry
  cases h : j.map.lookup ino with
  | none => exact ⟨rfl, rfl⟩
  | some tx => exact j.owner ino tx h

/-- A method of the current transaction. -/
def call (j : Journal) (ino : Uuid) (op : TxOp) : TxResult × Journal :=
  ((op.apply (j.getEntry ino)).1,
    { map := j.map.insert ino (op.apply (j.getEntry ino)).2
      log := j.log
      owner := by
        intro ino' tx htx
        by_cases hne : ino' = ino
        · subst hne
          rw [AList.lookup_insert] at htx
          cases htx
          obtain ⟨hino, hcommitted⟩ := op.apply_frame (j.getEntry ino')
          rw [hino, hcommitted]
          exact j.getEntry_owner ino'
        · rw [AList.lookup_insert_ne hne] at htx
          exact j.owner ino' tx htx })

/-- One turn of the loop in `commit::operator()`. -/
def commitAll (j : Journal) : Journal where
  map := ∅
  log := j.log ++ j.map.entries.map fun e => { e.2 with committed := true }
  owner := by simp

/-- The word of the current transaction about a name. -/
def word (j : Journal) (ino : Uuid) (name : Name) : Option (Bool × Uuid) :=
  (j.getEntry ino).dentries.lookup name

/-- The last word of some transactions about a name. -/
def latest (txs : List Transaction) (name : Name) : Option (Bool × Uuid) :=
  txs.reverse.findSome? fun tx => tx.dentries.lookup name

/-- The last word of the journal about a name. -/
def entry (j : Journal) (ino : Uuid) (name : Name) : Option (Bool × Uuid) :=
  (j.word ino name).or (latest (j.log.filter fun tx => tx.sIno = ino) name)

section Calls

variable (j : Journal) (ino : Uuid) (op : TxOp)

@[simp] theorem call_fst :
    (j.call ino op).1 = (op.apply (j.getEntry ino)).1 := rfl

@[simp] theorem call_log : (j.call ino op).2.log = j.log := rfl

@[simp] theorem call_getEntry :
    (j.call ino op).2.getEntry ino = (op.apply (j.getEntry ino)).2 := by
  simp [call, getEntry]

theorem call_getEntry_ne {ino' : Uuid} (h : ino' ≠ ino) :
    (j.call ino op).2.getEntry ino' = j.getEntry ino' := by
  rw [getEntry, getEntry, call, AList.lookup_insert_ne h]

variable {op} in
/-- A call other than `rmself` marks no directory as deleted. -/
theorem call_deleted
    (h : op ≠ .rmself) {ino' : Uuid}
    (hdel : ((j.call ino op).2.getEntry ino').status = .S_DELETED) :
    (j.getEntry ino').status = .S_DELETED := by
  by_cases hne : ino' = ino
  · subst hne
    rw [call_getEntry] at hdel
    exact TxOp.apply_deleted h hdel
  · rwa [call_getEntry_ne _ _ _ hne] at hdel

/-- The journal says the same about a name as before. -/
structure SameAt (ino : Uuid) (name : Name) (j j' : Journal) : Prop where
  word : j'.word ino name = j.word ino name
  entry : j'.entry ino name = j.entry ino name

theorem call_sameAt_of_word
    {ino' : Uuid} {name : Name}
    (h : (j.call ino op).2.word ino' name = j.word ino' name) :
    SameAt ino' name j (j.call ino op).2 := by
  refine ⟨h, ?_⟩
  rw [entry, entry, h, call_log]

/-- A call that sets no entry. -/
theorem call_keeps (h : op.Keeps) (ino' : Uuid) (name : Name) :
    SameAt ino' name j (j.call ino op).2 := by
  apply call_sameAt_of_word
  by_cases hne : ino' = ino
  · subst hne
    rw [word, word, call_getEntry, h.apply_dentries]
  · rw [word, word, call_getEntry_ne _ _ _ hne]

variable {j ino op}

/-- A call that sets one entry does not touch the others. -/
theorem call_sets_ne
    {name : Name} {alive : Bool} {ino' : Uuid} (h : op.Sets name alive ino')
    {name' : Name} (hne : name' ≠ name) :
    SameAt ino name' j (j.call ino op).2 := by
  have hopen := (j.getEntry_owner ino).2
  apply call_sameAt_of_word
  rw [word, word, call_getEntry]
  cases hhas : (j.getEntry ino).hasDentry name alive with
  | true =>
      obtain ⟨e, he⟩ := h.apply_of_has hopen hhas
      rw [he]
  | false => rw [h.apply_dentries hopen hhas, AList.lookup_insert_ne hne]

/-- The word of the transaction after a call that sets an entry: the call has
either thrown, since this was its word before, or set the entry. -/
theorem call_sets
    {name : Name} {alive : Bool} {ino' : Uuid} (h : op.Sets name alive ino') :
    ((∃ e, (j.call ino op).1 = .throws e) ∧
      (∃ x, j.word ino name = some (alive, x)) ∧
      SameAt ino name j (j.call ino op).2) ∨
    ((∀ x, j.word ino name ≠ some (alive, x)) ∧
      (j.call ino op).2.word ino name = some (alive, ino')) := by
  have hopen := (j.getEntry_owner ino).2
  cases hhas : (j.getEntry ino).hasDentry name alive with
  | true =>
      obtain ⟨e, he⟩ := h.apply_of_has hopen hhas
      refine .inl ⟨⟨e, ?_⟩, TxOp.hasDentry_eq_true_iff.mp hhas, ?_⟩
      · rw [call_fst, he]
      · apply call_sameAt_of_word
        rw [word, word, call_getEntry, he]
  | false =>
      refine .inr ⟨?_, ?_⟩
      · intro x hx
        rw [TxOp.hasDentry_eq_true_iff.mpr ⟨x, hx⟩] at hhas
        cases hhas
      · rw [word, call_getEntry, h.apply_dentries hopen hhas,
          AList.lookup_insert]

theorem entry_of_word
    {name : Name} {x : Bool × Uuid} (h : j.word ino name = some x) :
    j.entry ino name = some x := by
  rw [entry, h]
  rfl

/-- A call that does not contradict the current transaction is done. -/
theorem call_keeps_done (h : op.Keeps) : (j.call ino op).1 = .done :=
  h.apply_done (j.getEntry_owner ino).2

theorem call_mkdir_done
    (s : Inode) {name : Name} {ino' : Uuid}
    (h : ∀ x, j.word ino name ≠ some (true, x)) :
    (j.call ino (.mkdir s name ino')).1 = .done := by
  refine TxOp.mkdir_done s (j.getEntry_owner ino).2 ?_
  rw [← Bool.not_eq_true, TxOp.hasDentry_eq_true_iff]
  rintro ⟨x, hx⟩
  exact h x hx

theorem call_mkreg_done
    (s : Inode) {name : Name} {f : Inode}
    (h : ∀ x, j.word ino name ≠ some (true, x))
    (hnew : ((j.getEntry ino).fInodes.lookup f.core.ino).join = none) :
    (j.call ino (.mkreg s name f)).1 = .done := by
  refine TxOp.mkreg_done s (j.getEntry_owner ino).2 ?_ hnew
  rw [← Bool.not_eq_true, TxOp.hasDentry_eq_true_iff]
  rintro ⟨x, hx⟩
  exact h x hx

end Calls

section Commits

theorem latest_append (txs txs' : List Transaction) (name : Name) :
    latest (txs ++ txs') name = (latest txs' name).or (latest txs name) := by
  simp only [latest, List.reverse_append, List.findSome?_append]

/-- Of the transactions in the map, the one of the directory speaks. -/
theorem latest_entries
    {ino : Uuid} {name : Name} {l : List ((_ : Uuid) × Transaction)}
    (hkeys : l.NodupKeys) (howner : ∀ e ∈ l, e.2.sIno = e.1) :
    latest ((l.map fun e => { e.2 with committed := true }).filter
        fun tx => tx.sIno = ino) name =
      (l.dlookup ino).bind fun tx => tx.dentries.lookup name := by
  induction l with
  | nil => rfl
  | cons e l ih =>
      obtain ⟨ino', tx⟩ := e
      rw [List.nodupKeys_cons] at hkeys
      have hsIno : tx.sIno = ino' := howner _ List.mem_cons_self
      have hih := ih hkeys.2 fun e he => howner e (List.mem_cons_of_mem _ he)
      by_cases hne : ino = ino'
      · subst hne
        have hnone : l.dlookup ino = none := List.dlookup_eq_none.mpr hkeys.1
        rw [hnone] at hih
        rw [List.map_cons, List.filter_cons_of_pos (by simpa using hsIno),
          List.dlookup_cons_eq, ← List.singleton_append, latest_append, hih]
        simp [latest]
      · rw [List.map_cons, List.filter_cons_of_neg (by
          simpa [hsIno] using Ne.symm hne), hih, List.dlookup_cons_ne _ _ hne]

/-- A commit does not change what the journal says. -/
theorem commitAll_entry (j : Journal) (ino : Uuid) (name : Name) :
    j.commitAll.entry ino name = j.entry ino name := by
  have hentries := @latest_entries ino name j.map.entries j.map.nodupKeys
    fun e he => (j.owner e.1 e.2 (AList.mem_lookup_iff.mpr he)).1
  have hempty : j.commitAll.word ino name = none := rfl
  rw [entry, entry, hempty, Option.none_or, commitAll, List.filter_append,
    latest_append, hentries, word, getEntry]
  change ((j.map.lookup ino).bind _).or _ = _
  cases j.map.lookup ino with
  | none => rfl
  | some tx => rfl

end Commits

end Journal

end Nmfs
