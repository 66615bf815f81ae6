import Nmfs.Lib.RecordChains
import Nmfs.Lib.Transitions
import Nmfs.Rados.Footprints
import Nmfs.Journal.Record

/-!
# The journal object of a directory

`commit` appends the record of a transaction to the JOURNAL object of its
directory and keeps the offset; `checkpoint` writes the changes to the INODE and
DENTRY objects, and then clears a byte at the offset.

That byte is meant to be the valid byte, which `deserialize` tests, but it is
the lowest byte of the record's size.  So the layout is kept only as long as
nothing is checkpointed.
-/

namespace Nmfs

namespace Transaction

open Bytes Buffer

/-- The loop of `sync` over the entries. -/
def syncDentries (dentries : TxDentries) (d : Dentry) : Dentry :=
  dentries.entries.foldl (fun d p =>
    if p.2.1 then d.addChild p.1 p.2.2 else d.deleteChild p.1) d

/-- The loop of `sync` over the files. -/
def syncFInodes : List ((_ : Uuid) × Option Inode) → IoProg Unit
  | [] => .ret ()
  | ⟨_, some i⟩ :: l => do
    let _ ← i.sync
    syncFInodes l
  | ⟨_, none⟩ :: l => syncFInodes l

/-- The first part of `sync`. -/
def syncSelf : Option Inode → IoProg Unit
  | some s => s.sync
  | none => .ret ()

def sync (tx : Transaction) : IoProg Unit :=
  if tx.status = .S_DELETED then do
    let _ ← RadosIo.remove .INODE (uuidToString tx.sIno)
    RadosIo.remove .DENTRY (uuidToString tx.sIno)
  else do
    let _ ← syncSelf tx.sInode
    let d ← Dentry.load tx.sIno (tx.status = .S_CREATED)
    let _ ← (syncDentries tx.dentries d).sync
    syncFInodes tx.fInodes.entries

def commit (tx : Transaction) : IoProg Transaction :=
  if tx.committed then
    .throw (.logicError
      "transaction::commit() failed (tx has been already committed)")
  else do
    let objSize ← RadosIo.stat .JOURNAL (uuidToString tx.sIno)
    let _ ← RadosIo.write .JOURNAL (uuidToString tx.sIno) tx.serialize
      (objSize.getD 0)
    return { tx with committed := true, offset := objSize.getD 0 }

def checkpoint (tx : Transaction) : IoProg Unit := do
  let _ ← tx.sync
  let _ ← RadosIo.write .JOURNAL (uuidToString tx.sIno) [0] tx.offset
  return ()

section Footprint

theorem only_readChildren
    {P : IoCall → Prop} (raw : Bytes) (left index : Nat) (l : ChildList) :
    (Dentry.readChildren raw left index l).Only P := by
  induction left generalizing index l with
  | zero => trivial
  | succ left ih =>
      refine Prog.Only.bind ?_ fun size => ?_
      · unfold int32At bytesAt
        split <;> trivial
      · split
        · split <;> trivial
        · refine Prog.Only.bind ?_ fun name => ?_
          · unfold bytesAt
            split <;> trivial
          · refine Prog.Only.bind ?_ fun data => ?_
            · unfold bytesAt
              split <;> trivial
            · exact ih _ _

theorem only_load (ino : Uuid) (mkdir : Bool) :
    (Dentry.load ino mkdir).Only (OnFile .DENTRY (uuidToString ino)) := by
  unfold Dentry.load
  split
  · trivial
  · refine Prog.Only.tryCatch ?_ ?_
    · refine (RadosIo.only_read .DENTRY _ _ _).bind fun bl => ?_
      refine Prog.Only.bind ?_ fun childNum => ?_
      · unfold bytesAt
        split <;> trivial
      · exact (only_readChildren _ _ _ _).bind fun _ => trivial
    · rintro (_ | _ | _ | _ | _) <;> trivial

theorem notIn_inodeSync (i : Inode) : i.sync.Only (NotIn .JOURNAL) :=
  ((RadosIo.only_write .INODE _ _ _).mono (OnFile.notIn (by decide))).bind fun _ => trivial

theorem notIn_syncFInodes (l : List ((_ : Uuid) × Option Inode)) :
    (syncFInodes l).Only (NotIn .JOURNAL) := by
  induction l with
  | nil => trivial
  | cons f l ih =>
      obtain ⟨ino, fi⟩ := f
      cases fi with
      | none => exact ih
      | some i => exact (notIn_inodeSync i).bind fun _ => ih

/-- `sync` does not touch any journal. -/
theorem notIn_sync (tx : Transaction) : tx.sync.Only (NotIn .JOURNAL) := by
  unfold sync
  split
  · refine ((RadosIo.only_remove .INODE _).mono
      (OnFile.notIn (by decide))).bind fun _ => ?_
    exact (RadosIo.only_remove .DENTRY _).mono (OnFile.notIn (by decide))
  · refine Prog.Only.bind ?_ fun _ => Prog.Only.bind ?_ fun d =>
      Prog.Only.bind ?_ fun _ => notIn_syncFInodes _
    · unfold syncSelf
      split
      · exact notIn_inodeSync _
      · trivial
    · exact (only_load _ _).mono (OnFile.notIn (by decide))
    · exact ((RadosIo.only_write .DENTRY _ _ _).mono
        (OnFile.notIn (by decide))).bind fun _ => trivial

end Footprint

section Outcomes

variable {p : Pool} {c : Bytes} {n : Nat} {tx : Transaction}

/-- `commit` appends the record and remembers where it starts. -/
theorem run_commit
    (hf : FileIs p .JOURNAL (uuidToString tx.sIno) c n)
    (hnew : tx.committed = false)
    (hend : c.length + tx.serialize.length ≤ offEnd) :
    ∃ p' n', tx.commit.run Pool.handle p =
        (.ok { tx with committed := true, offset := c.length }, p') ∧
      FileIs p' .JOURNAL (uuidToString tx.sIno) (c ++ tx.serialize) n' ∧
      SameElsewhere .JOURNAL (uuidToString tx.sIno) p p' := by
  have hstat := RadosIo.run_stat hf (by omega)
  have hsize : (if n = 0 then none else some c.length).getD 0 = c.length := by
    split
    · rename_i hn
      subst hn
      rw [Striped.eq_nil_of_zero hf]
      rfl
    · rfl
  obtain ⟨p', n', hwrite, hf', hs, -⟩ := RadosIo.run_write hf hend
  rw [overwrite_length] at hf'
  refine ⟨p', n', ?_, hf', hs⟩
  rw [commit, hnew, if_neg (by decide), Prog.run_bind_ok _ hstat, hsize,
    Prog.run_bind_ok _ hwrite]
  rfl

/-- A transaction that has been committed is not committed again. -/
theorem run_commit_of_committed
    (p : Pool) (h : tx.committed = true) :
    ∃ e, tx.commit.run Pool.handle p = (.throws e, p) := by
  rw [commit, if_pos h]
  exact ⟨_, rfl⟩

/-- The objects of a removed directory are removed. -/
theorem run_sync_of_deleted
    {p₁ p₂ : Pool} (h : tx.status = .S_DELETED)
    (h₁ : (RadosIo.remove .INODE (uuidToString tx.sIno)).run Pool.handle p =
      (.ok (), p₁))
    (h₂ : (RadosIo.remove .DENTRY (uuidToString tx.sIno)).run Pool.handle p₁ =
      (.ok (), p₂)) : tx.sync.run Pool.handle p = (.ok (), p₂) := by
  rw [sync, if_pos h, Prog.run_bind_ok _ h₁, h₂]

theorem run_checkpoint_of_sync
    {p₁ p₂ : Pool} {k : Nat} (h₁ : tx.sync.run Pool.handle p = (.ok (), p₁))
    (h₂ : (RadosIo.write .JOURNAL (uuidToString tx.sIno) [0] tx.offset).run
      Pool.handle p₁ = (.ok k, p₂)) :
    tx.checkpoint.run Pool.handle p = (.ok (), p₂) := by
  rw [checkpoint, Prog.run_bind_ok _ h₁, Prog.run_bind_ok _ h₂]
  rfl

/-- `checkpoint` clears the byte at the offset, or ends before that. -/
theorem run_checkpoint
    (hf : FileIs p .JOURNAL (uuidToString tx.sIno) c n)
    (hoff : tx.offset < c.length) (hc : c.length ≤ offEnd) :
    (∃ p' n', tx.checkpoint.run Pool.handle p = (.ok (), p') ∧
      FileIs p' .JOURNAL (uuidToString tx.sIno)
        (overwrite c tx.offset [0]) n') ∨
    (∃ p', FileIs p' .JOURNAL (uuidToString tx.sIno) c n ∧
      ((∃ e, tx.checkpoint.run Pool.handle p = (.throws e, p')) ∨
        ∃ x, tx.checkpoint.run Pool.handle p = (.faults x, p'))) := by
  have hkeep := fileIs_of_only_notIn (notIn_sync tx) hf
  rcases hsync : tx.sync.run Pool.handle p with ⟨o, p₁⟩
  rw [hsync] at hkeep
  cases o with
  | ok u =>
      have hend : tx.offset + ([0] : Bytes).length ≤ offEnd := by
        simp only [List.length_singleton]
        omega
      obtain ⟨p', n', hwrite, hf', -, -⟩ := RadosIo.run_write hkeep hend
      exact .inl ⟨p', n', run_checkpoint_of_sync hsync hwrite, hf'⟩
  | throws e =>
      refine .inr ⟨p₁, hkeep, .inl ⟨e, ?_⟩⟩
      rw [checkpoint, Prog.run_bind_throws _ hsync]
  | faults x =>
      refine .inr ⟨p₁, hkeep, .inr ⟨x, ?_⟩⟩
      rw [checkpoint, Prog.run_bind_faults _ hsync]

end Outcomes

end Transaction

/-- A transaction that has been committed. -/
structure Entry where
  tx : Transaction
  checkpointed : Bool

/-- The journal of one directory. -/
structure JournalObject where
  pool : Pool
  entries : List Entry
  crashed : Bool

namespace JournalObject

open Bytes Transaction

inductive Act where
  | commit (tx : Transaction)
  | checkpoint (i : Nat)

def new (pool : Pool) : JournalObject where
  pool := pool
  entries := []
  crashed := false

/-- `commit` and `checkpoint` are called in any order on the transactions of the
directory, the latter for those that have been committed. -/
def step (ino : Uuid) : Stepper JournalObject Act
  | s, .commit tx =>
      if s.crashed ∨ tx.sIno ≠ ino then none
      else
        match tx.commit.run Pool.handle s.pool with
        | (.ok tx', pool) => some { s with
            pool := pool, entries := s.entries ++ [⟨tx', false⟩] }
        | (.throws _, pool) => some { s with pool := pool }
        | (.faults _, pool) => some { s with pool := pool, crashed := true }
  | s, .checkpoint i =>
      if s.crashed then none
      else
        (s.entries[i]?).bind fun e =>
          match e.tx.checkpoint.run Pool.handle s.pool with
          | (.ok _, pool) => some { s with
              pool := pool, entries := s.entries.set i ⟨e.tx, true⟩ }
          | (.throws _, pool) => some { s with pool := pool }
          | (.faults _, pool) => some { s with pool := pool, crashed := true }

/-- The records as `commit` has written them. -/
def records (s : JournalObject) : List Bytes :=
  s.entries.map fun e => e.tx.serialize

/-- The journal object does not leave the range of an `off_t`. -/
def InRange (s : JournalObject) : Act → Prop
  | .commit tx => s.records.flatten.length + tx.serialize.length ≤ offEnd
  | .checkpoint _ => True

/-- The record of an entry, with the valid byte cleared at the checkpoint. -/
def marked (e : Entry) : Bytes :=
  if e.checkpointed then overwrite e.tx.serialize 4 [0] else e.tx.serialize

/-- The size at the start of a record. -/
def recordSize (c : Bytes) : Option Nat :=
  (Buffer.int32 (c.take 4)).toNat?

/-- The journal object is the concatenation of the records, the valid byte is 0
in those that are checkpointed, and the sizes lead to the offsets that the
transactions have kept. -/
def LaidOut (ino : Uuid) (s : JournalObject) : Prop :=
  ∃ n, FileIs s.pool .JOURNAL (uuidToString ino)
      (s.entries.map marked).flatten n ∧
    RecordChain.walk recordSize (s.entries.map marked).flatten
        (s.entries.length + 1) 0 =
      some (s.entries.map fun e => e.tx.offset)

/-- The record of an entry, as it is found in the journal object. -/
def stored (e : Entry) : Bytes :=
  if e.checkpointed then overwrite e.tx.serialize 0 [0] else e.tx.serialize

/-- The record does not depend on the offset. -/
@[simp] theorem serialize_committed (tx : Transaction) (b : Bool) (n : Nat) :
    ({ tx with committed := b, offset := n } : Transaction).serialize =
      tx.serialize := rfl

theorem length_serialize_pos (tx : Transaction) : 5 ≤ tx.serialize.length := by
  simp [serialize]
  omega

@[simp] theorem length_stored (e : Entry) :
    (stored e).length = e.tx.serialize.length := by
  have := length_serialize_pos e.tx
  unfold stored
  split
  · rw [length_overwrite]
    exact Nat.max_eq_right (by simp; omega)
  · rfl

@[simp] theorem length_marked (e : Entry) :
    (marked e).length = e.tx.serialize.length := by
  have := length_serialize_pos e.tx
  unfold marked
  split
  · rw [length_overwrite]
    exact Nat.max_eq_right (by simp; omega)
  · rfl

/-- The valid byte of a laid out record tells whether it is checkpointed. -/
theorem marked_valid (e : Entry) :
    (marked e)[4]? = some (if e.checkpointed then 0 else 1) := by
  have hlen := length_serialize_pos e.tx
  unfold marked
  cases e.checkpointed with
  | true =>
      rw [if_pos rfl, getElem?_overwrite_of_le (by omega)]
      rfl
  | false => simp [serialize]

/-- The other bytes are as `commit` has written them. -/
theorem marked_other (e : Entry) {k : Nat} (hk : k ≠ 4) :
    (marked e)[k]? = e.tx.serialize[k]? := by
  have hlen := length_serialize_pos e.tx
  unfold marked
  split
  · rw [getElem?_overwrite_of_le (by omega), if_neg (by simp; omega)]
  · rfl

/-- The checkpoint has cleared the size's lowest byte, and not the valid byte. -/
theorem stored_ne_marked {e : Entry} (h : e.checkpointed = true) :
    stored e ≠ marked e := by
  intro heq
  have hvalid := marked_valid e
  have hlen := length_serialize_pos e.tx
  rw [← heq, stored, if_pos h, getElem?_overwrite_of_le (by omega),
    if_neg (by simp), h] at hvalid
  simp [serialize] at hvalid

section Offsets

variable {es : List Entry}

theorem flatten_stored_length (es : List Entry) :
    (es.map stored).flatten.length =
      (es.map fun e => e.tx.serialize).flatten.length := by
  simp [List.length_flatten, Function.comp_def]

/-- The offset of an entry is the length of what lies before it. -/
theorem offset_of_split
    {as bs : List Entry} {e : Entry}
    (h : (as ++ e :: bs).map (fun e => e.tx.offset) =
      RecordChain.offsets 0 ((as ++ e :: bs).map fun e => e.tx.serialize)) :
    e.tx.offset = (as.map fun e => e.tx.serialize).flatten.length := by
  rw [List.map_append, List.map_append, RecordChain.offsets_append] at h
  have h' := (List.append_inj h (by simp)).2
  simp only [List.map_cons, RecordChain.offsets, List.cons.injEq,
    Nat.zero_add] at h'
  exact h'.1

end Offsets

/-- What holds of the journal in all runs. -/
structure Inv (ino : Uuid) (s : JournalObject) : Prop where
  owner : ∀ e ∈ s.entries, e.tx.sIno = ino
  offsets : (s.entries.map fun e => e.tx.offset) =
    RecordChain.offsets 0 s.records
  content : ∃ n, FileIs s.pool .JOURNAL (uuidToString ino)
    (s.entries.map stored).flatten n
  range : s.records.flatten.length ≤ offEnd

section Steps

variable {ino : Uuid} {s s' : JournalObject}

theorem step_commit
    {tx tx' : Transaction} {p : Pool} (hopen : s.crashed = false)
    (howner : tx.sIno = ino)
    (hrun : tx.commit.run Pool.handle s.pool = (.ok tx', p)) :
    step ino s (.commit tx) = some { s with
      pool := p, entries := s.entries ++ [⟨tx', false⟩] } := by
  simp [step, hopen, howner, hrun]

theorem step_checkpoint
    {i : Nat} {e : Entry} {p : Pool} (hopen : s.crashed = false)
    (he : s.entries[i]? = some e)
    (hrun : e.tx.checkpoint.run Pool.handle s.pool = (.ok (), p)) :
    step ino s (.checkpoint i) = some { s with
      pool := p, entries := s.entries.set i ⟨e.tx, true⟩ } := by
  simp [step, hopen, he, hrun]

theorem inv_new
    {p : Pool} (hp : FileIs p .JOURNAL (uuidToString ino) [] 0) :
    Inv ino (new p) where
  owner := by simp [new]
  offsets := rfl
  content := ⟨0, hp⟩
  range := Nat.zero_le _

theorem Inv.commit
    (hi : Inv ino s) {tx : Transaction}
    (hr : InRange s (.commit tx))
    (hstep : step ino s (.commit tx) = some s') : Inv ino s' := by
  obtain ⟨n, hf⟩ := hi.content
  simp only [step] at hstep
  split at hstep
  · cases hstep
  · rename_i hok
    obtain ⟨-, rfl⟩ : s.crashed ≠ true ∧ tx.sIno = ino := by simpa using hok
    have hlen := flatten_stored_length s.entries
    have hr' : s.records.flatten.length + tx.serialize.length ≤ offEnd := hr
    cases hnew : tx.committed with
    | true =>
        obtain ⟨e, hrun⟩ := run_commit_of_committed s.pool hnew
        rw [hrun] at hstep
        cases hstep
        exact { hi with }
    | false =>
        obtain ⟨p', n', hrun, hf', -⟩ := run_commit hf hnew
          (by rw [hlen]; exact hr')
        rw [hrun] at hstep
        cases hstep
        refine ⟨?_, ?_, ⟨n', ?_⟩, ?_⟩
        · intro e he
          rcases List.mem_append.mp he with he | he
          · exact hi.owner e he
          · rw [List.mem_singleton.mp he]
        · simp only [records, List.map_append, List.map_cons, List.map_nil,
            RecordChain.offsets_append]
          rw [hi.offsets, hlen]
          simp [RecordChain.offsets, records]
        · simpa [stored] using hf'
        · simpa [records] using hr'

theorem Inv.checkpoint
    (hi : Inv ino s) {i : Nat}
    (hstep : step ino s (.checkpoint i) = some s') : Inv ino s' := by
  obtain ⟨n, hf⟩ := hi.content
  simp only [step] at hstep
  split at hstep
  · cases hstep
  obtain ⟨e, he, hstep⟩ := Option.bind_eq_some_iff.mp hstep
  -- the entries before and behind the one that is checkpointed
  obtain ⟨hlt, hget⟩ := List.getElem?_eq_some_iff.mp he
  have hsplit : s.entries = s.entries.take i ++ e :: s.entries.drop (i + 1) := by
    rw [← hget, ← List.drop_eq_getElem_cons hlt, List.take_append_drop]
  have hset : ∀ e', s.entries.set i e' =
      s.entries.take i ++ e' :: s.entries.drop (i + 1) := by
    intro e'
    rw [List.set_eq_take_append_cons_drop, if_pos hlt]
  generalize s.entries.take i = as at hsplit hset
  generalize s.entries.drop (i + 1) = bs at hsplit hset
  have howner : e.tx.sIno = ino := hi.owner e (by simp [hsplit])
  have hoff := hi.offsets
  rw [records, hsplit] at hoff
  have hoff := offset_of_split hoff
  have hlen := flatten_stored_length s.entries
  have hpos := length_serialize_pos e.tx
  have hrange : (s.entries.map stored).flatten.length ≤ offEnd := by
    rw [hlen]
    exact hi.range
  subst howner
  have hinside : e.tx.offset < (s.entries.map stored).flatten.length := by
    rw [hlen, hsplit, hoff]
    simp
    omega
  rcases run_checkpoint hf hinside hrange with
    ⟨p', n', hrun, hf'⟩ | ⟨p', hf', ⟨x, hrun⟩ | ⟨x, hrun⟩⟩
  · rw [hrun] at hstep
    cases hstep
    have hrecords : ({ s with pool := p', entries := s.entries.set i ⟨e.tx, true⟩ } :
        JournalObject).records = s.records := by
      rw [records, records, hset, hsplit]
      simp
    refine ⟨?_, ?_, ⟨n', ?_⟩, ?_⟩
    · intro e' he'
      rw [hset] at he'
      rcases List.mem_append.mp he' with he' | he'
      · exact hi.owner e' (by simp [hsplit, he'])
      · rcases List.mem_cons.mp he' with rfl | he'
        · rfl
        · exact hi.owner e' (by simp [hsplit, he'])
    · rw [hrecords, ← hi.offsets, hset, hsplit]
      simp
    · have hclear : overwrite (stored e) 0 [0] = stored ⟨e.tx, true⟩ := by
        unfold stored
        cases e.checkpointed with
        | false => rfl
        | true =>
            simp only [if_true]
            apply List.ext_getElem?
            intro k
            rw [getElem?_overwrite_of_le (Nat.zero_le _),
              getElem?_overwrite_of_le (Nat.zero_le _)]
            split <;> rfl
      have hover : overwrite (s.entries.map stored).flatten e.tx.offset [0] =
          ((s.entries.set i ⟨e.tx, true⟩).map stored).flatten := by
        rw [hset, hsplit, hoff, ← flatten_stored_length as]
        simp only [List.map_append, List.map_cons, List.flatten_append,
          List.flatten_cons]
        rw [← hclear]
        have hfirst : 0 + ([0] : Bytes).length ≤ (stored e).length := by
          simp only [length_stored, List.length_singleton]
          omega
        exact overwrite_append_inside _ _ hfirst
      rw [← hover]
      exact hf'
    · rw [hrecords]
      exact hi.range
  · rw [hrun] at hstep
    cases hstep
    exact ⟨hi.owner, hi.offsets, ⟨n, hf'⟩, hi.range⟩
  · rw [hrun] at hstep
    cases hstep
    exact ⟨hi.owner, hi.offsets, ⟨n, hf'⟩, hi.range⟩

theorem inv_step (ino : Uuid) :
    (step ino).InvariantUnder InRange (Inv ino) := by
  intro s a s' hi hr hstep
  cases a with
  | commit tx => exact hi.commit hr hstep
  | checkpoint i => exact hi.checkpoint hstep

end Steps

section Layout

theorem marked_take (e : Entry) (rest : Bytes) :
    (marked e ++ rest).take 4 = leBytes 4 e.tx.serialize.length := by
  have hlen := length_serialize_pos e.tx
  have hsize : (marked e ++ rest).take 4 = e.tx.serialize.take 4 := by
    apply List.ext_getElem?
    intro k
    by_cases hk : k < 4
    · rw [List.getElem?_take, List.getElem?_take, if_pos hk, if_pos hk,
        List.getElem?_append_left (by simp; omega),
        marked_other e (by omega)]
    · rw [List.getElem?_take, List.getElem?_take, if_neg hk, if_neg hk]
  rw [hsize, serialize, List.take_left' (by simp)]
  congr 1
  simp
  omega

/-- The size is read back from a laid out record as long as it is an `int`. -/
theorem recordSize_marked (e : Entry) (rest : Bytes) :
    recordSize (marked e ++ rest) = some (marked e).length ↔
      e.tx.serialize.length < 2 ^ 31 := by
  rw [recordSize, marked_take, length_marked]
  constructor
  · intro h
    have hint := Int.mem_toNat?.mp h
    have hlt := Buffer.int32_lt (length_leBytes 4 e.tx.serialize.length)
    omega
  · intro h
    exact Int.mem_toNat?.mpr (Buffer.int32_leBytes h)

variable {ino : Uuid} {s : JournalObject}

theorem marked_ne_nil : ∀ r ∈ s.entries.map marked, r ≠ [] := by
  intro r hr
  obtain ⟨e, he, rfl⟩ := List.mem_map.mp hr
  have := length_serialize_pos e.tx
  exact List.ne_nil_of_length_pos (by simp; omega)

theorem Inv.laidOut
    (hi : Inv ino s) (hopen : ∀ e ∈ s.entries, e.checkpointed = false)
    (hsize : ∀ e ∈ s.entries, e.tx.serialize.length < 2 ^ 31) :
    LaidOut ino s := by
  obtain ⟨n, hf⟩ := hi.content
  have hstored : s.entries.map stored = s.entries.map marked := by
    apply List.map_congr_left
    intro e he
    simp [stored, marked, hopen e he]
  have hrecords : s.records = s.entries.map marked := by
    apply List.map_congr_left
    intro e he
    simp [marked, hopen e he]
  refine ⟨n, hstored ▸ hf, ?_⟩
  rw [hi.offsets, hrecords]
  refine RecordChain.walk_flatten ?_ marked_ne_nil [] (by simp)
  intro r hr rest
  obtain ⟨e, he, rfl⟩ := List.mem_map.mp hr
  exact (recordSize_marked e rest).mpr (hsize e he)

theorem Inv.of_laidOut
    (hi : Inv ino s) (h : LaidOut ino s) :
    ∀ e ∈ s.entries, e.checkpointed = false ∧
      e.tx.serialize.length < 2 ^ 31 := by
  obtain ⟨n, hf⟩ := hi.content
  obtain ⟨n', hf', hwalk⟩ := h
  have hblocks := RecordChain.eq_of_flatten_eq (by simp)
    (hf.content_unique hf' objSize_pos)
  have hoffs : RecordChain.offsets 0 s.records =
      RecordChain.offsets 0 (s.entries.map marked) :=
    RecordChain.offsets_congr (by simp) 0 s.entries
  rw [hi.offsets, hoffs] at hwalk
  have hsizes := RecordChain.size_of_walk marked_ne_nil [] hwalk
  intro e he
  constructor
  · cases hc : e.checkpointed with
    | false => rfl
    | true => exact absurd (hblocks e he) (stored_ne_marked hc)
  · obtain ⟨rest, hrest⟩ := hsizes _ (List.mem_map_of_mem he)
    exact (recordSize_marked e rest).mp hrest

end Layout

/-- **Layout of the journal object.** Starting from no journal object, in every
state of every run the object is laid out if and only if no transaction has been
checkpointed and the size of every record is an `int`. -/
theorem journal_laid_out_iff
    (ino : Uuid) {p : Pool} (hp : FileIs p .JOURNAL (uuidToString ino) [] 0)
    {as : List Act} {s : JournalObject}
    (hr : (step ino).Steps InRange (new p) as)
    (hrun : (step ino).runFrom (new p) as = some s) :
    LaidOut ino s ↔ ∀ e ∈ s.entries, e.checkpointed = false ∧
      e.tx.serialize.length < 2 ^ 31 := by
  have hi : Inv ino s := (inv_step ino).runFrom (inv_new hp) hr hrun
  constructor
  · exact hi.of_laidOut
  · intro h
    exact hi.laidOut (fun e he => (h e he).1) fun e he => (h e he).2

section Examples

theorem fileIs_empty (category : ObjCategory) (key : Key) :
    FileIs Pool.empty category key [] 0 :=
  Striped.empty objSize

/-- A directory that has been removed. -/
def removedDir : Transaction :=
  ((Transaction.new ⟨List.replicate 16 7, Uuid.size_sevens⟩).rmself).2

theorem removedDir_length : 0 + removedDir.serialize.length ≤ offEnd := by
  have hlen : 0 + removedDir.serialize.length = 14 := by decide
  rw [hlen]
  simp [offEnd, offMax, objSize]

theorem removedDir_commit :
    ∃ p n, step removedDir.sIno (new Pool.empty) (.commit removedDir) =
        some ⟨p, [⟨{ removedDir with committed := true }, false⟩], false⟩ ∧
      FileIs p .JOURNAL (uuidToString removedDir.sIno) removedDir.serialize n ∧
      SameElsewhere .JOURNAL (uuidToString removedDir.sIno) Pool.empty p := by
  obtain ⟨p, n, hrun, hf, hs⟩ := @run_commit _ [] 0 removedDir
    (fileIs_empty _ _) rfl removedDir_length
  exact ⟨p, n, step_commit rfl rfl hrun, hf, hs⟩

/-- Nothing has changed in the directory before that. -/
def unchangedDir : Transaction := .new removedDir.sIno

/-- Two commits. -/
theorem journal_laid_out_commit :
    ∃ s, (step removedDir.sIno).runFrom (new Pool.empty)
        [.commit unchangedDir, .commit removedDir] = some s ∧
      s.entries.length = 2 ∧ LaidOut removedDir.sIno s := by
  have hlen : unchangedDir.serialize.length = 14 := by decide
  have hlen' : removedDir.serialize.length = 14 := by decide
  have hend₁ : 0 + unchangedDir.serialize.length ≤ offEnd := le_offEnd (by omega)
  have hend : unchangedDir.serialize.length + removedDir.serialize.length ≤ offEnd :=
    le_offEnd (by omega)
  obtain ⟨p₁, n₁, hrun₁, hf₁, -⟩ := @run_commit _ [] 0 unchangedDir
    (fileIs_empty _ _) rfl hend₁
  rw [List.nil_append] at hf₁
  obtain ⟨p₂, n₂, hrun₂, -⟩ := @run_commit _ _ _ removedDir hf₁ rfl hend
  have hstep₁ : step removedDir.sIno (new Pool.empty) (.commit unchangedDir) =
      some ⟨p₁, [⟨{ unchangedDir with committed := true }, false⟩], false⟩ :=
    step_commit rfl rfl hrun₁
  have hstep₂ := step_commit (s := ⟨p₁, [⟨{ unchangedDir with committed := true },
    false⟩], false⟩) rfl rfl hrun₂
  have hrun := (Stepper.runFrom_cons _).mpr ⟨_, hstep₁,
    (Stepper.runFrom_cons _).mpr ⟨_, hstep₂, Stepper.runFrom_nil _ _⟩⟩
  have hr : (step removedDir.sIno).Steps InRange (new Pool.empty)
      [.commit unchangedDir, .commit removedDir] := by
    refine .cons hend₁ hstep₁ (.cons ?_ hstep₂ trivial)
    change (unchangedDir.serialize ++ []).length + _ ≤ offEnd
    rw [List.append_nil]
    exact hend
  refine ⟨_, hrun, rfl, (journal_laid_out_iff removedDir.sIno (fileIs_empty _ _)
    hr hrun).mpr ?_⟩
  intro e he
  rcases List.mem_cons.mp he with rfl | he
  · decide
  · rw [List.mem_singleton.mp he]
    decide

/-- The checkpoint of the removed directory. -/
theorem journal_not_laid_out_checkpoint :
    ∃ s, (step removedDir.sIno).runFrom (new Pool.empty)
        [.commit removedDir, .checkpoint 0] = some s ∧
      ¬ LaidOut removedDir.sIno s := by
  obtain ⟨p, n, hstep, hf, hs⟩ := removedDir_commit
  have hempty : ∀ category, category ≠ ObjCategory.JOURNAL →
      FileIs p category (uuidToString removedDir.sIno) [] 0 :=
    fun category h => hs.fileIs (by simp [h]) (fileIs_empty _ _)
  obtain ⟨p₁, hrun₁, -, hs₁⟩ :=
    RadosIo.run_remove (hempty .INODE (by decide)) (Nat.zero_le _)
  obtain ⟨p₂, hrun₂, -, hs₂⟩ := RadosIo.run_remove
    (hs₁.fileIs (by decide) (hempty .DENTRY (by decide))) (Nat.zero_le _)
  have hf₂ := hs₂.fileIs (by decide) (hs₁.fileIs (by decide) hf)
  have hend : 0 + ([0] : Bytes).length ≤ offEnd :=
    Nat.le_trans (by decide) removedDir_length
  obtain ⟨p₃, n₃, hrun₃, hf₃, -, -⟩ := RadosIo.run_write hf₂ hend
  have hcheckpoint : ({ removedDir with committed := true } :
      Transaction).checkpoint.run Pool.handle p = (.ok (), p₃) :=
    run_checkpoint_of_sync (run_sync_of_deleted rfl hrun₁ hrun₂) hrun₃
  refine ⟨_, (Stepper.runFrom_cons _).mpr ⟨_, hstep, (Stepper.runFrom_cons _).mpr
    ⟨_, step_checkpoint rfl rfl hcheckpoint, Stepper.runFrom_nil _ _⟩⟩, ?_⟩
  rintro ⟨n', hf', -⟩
  have heq := hf₃.content_unique hf' objSize_pos
  simp only [List.set_cons_zero, List.map_cons, List.map_nil,
    List.flatten_cons, List.flatten_nil, List.append_nil] at heq
  exact stored_ne_marked (e := ⟨{ removedDir with committed := true }, true⟩)
    rfl heq

end Examples

end JournalObject

end Nmfs
