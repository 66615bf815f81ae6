import Nmfs.Meta.Buffers
import Nmfs.Journal.Transaction

/-!
# Journal records

A committed transaction is one record of the journal object:

* 4 bytes: the size of the record;
* 1 byte: 1 until the transaction is checkpointed;
* the inode of the directory, behind its size, or the size -1;
* the entries, each behind a byte 0 or 1, and the byte -1;
* the inodes of the files that have not been deleted, each behind its size, and
  the size -1.

`serialize` leaves out the status of the directory and the files that have been
deleted.  `deserialize` takes the targets of symbolic links from their INODE
objects, and skips `sizeof(inode)` bytes for the inode of the directory,
whatever its encoding has taken.
-/

namespace Nmfs

namespace Transaction

open Bytes Buffer

section Encoding

/-- An inode behind its size. -/
def sizedInode (i : Inode) : Bytes :=
  leBytes 4 i.serialize.length ++ i.serialize

def serializeSelf (sInode : Option Inode) : Bytes :=
  match sInode with
  | some s => sizedInode s
  | none => endMark

def serializeDentry (d : (_ : Name) × (Bool × Uuid)) : Bytes :=
  (if d.2.1 then 1 else 0) ::
    (leBytes 4 d.1.length ++ (d.1 ++ d.2.2.data))

def serializeFInode (f : (_ : Uuid) × Option Inode) : Bytes :=
  match f.2 with
  | some i => sizedInode i
  | none => []

/-- Everything behind the size and the valid byte. -/
def sections (tx : Transaction) : Bytes :=
  serializeSelf tx.sInode ++
    (tx.dentries.entries.flatMap serializeDentry ++ (255 ::
      (tx.fInodes.entries.flatMap serializeFInode ++ endMark)))

def serialize (tx : Transaction) : Bytes :=
  leBytes 4 (5 + tx.sections.length) ++ (1 :: tx.sections)

end Encoding

section Decoding

def duplicatedKey : Exn :=
  .logicError "transaction::deserialize() failed (a duplicated key exists)"

/-- The loop over the entries, from `index` on.  `left` bounds its iterations;
each one moves on by more than a byte. -/
def readDentries (raw : Bytes) :
    (left index : Nat) → TxDentries → IoProg (Nat × TxDentries)
  | 0, _, _ => .fault .divergence
  | left + 1, index, dentries => do
    let entryStat ← bytesAt raw index 1
    if entryStat = [255] then
      Prog.ret (index + 1, dentries)
    else do
      let dentrySize ← int32At raw (index + 1)
      let name ← stringAt raw (index + 5) dentrySize
      let data ← bytesAt raw (index + 5 + name.length) 16
      if dentries.lookup name = none then
        readDentries raw left (index + 5 + name.length + 16)
          (dentries.insert name (entryStat ≠ [0], ⟨resize data 16, Uuid.size_resize data⟩))
      else Prog.throw duplicatedKey

/-- The loop over the files.  The index moves by the size in the record, which
may even be negative; `left` bounds the iterations, since an inode that is met
again is a duplicated key. -/
def readFInodes (raw : Bytes) : (left index : Nat) → FInodes → IoProg FInodes
  | 0, _, _ => .fault .divergence
  | left + 1, index, fInodes => do
    let fInodeSize ← int32At raw index
    if fInodeSize = -1 then Prog.ret fInodes
    else do
      let i ← Inode.deserialize (raw.drop (index + 4))
      if fInodes.lookup i.core.ino = none then
        if (index : Int) + 4 + fInodeSize < 0 then
          Prog.fault .undefinedBehaviour
        else
          readFInodes raw left ((index : Int) + 4 + fInodeSize).toNat
            (fInodes.insert i.core.ino (some i))
      else Prog.throw duplicatedKey

/-- The inode of the directory, and the index behind it. -/
def readSelf (raw : Bytes) (tx : Transaction) : IoProg (Nat × Transaction) := do
  let sInodeSize ← int32At raw 5
  if sInodeSize = -1 then Prog.ret (9, tx)
  else do
    let s ← Inode.deserialize (raw.drop 9)
    Prog.ret (9 + sizeofInode, { tx with sInode := some s })

/-- The part of `deserialize` behind the valid byte. -/
def readSections (raw : Bytes) (tx : Transaction) :
    IoProg (Int × Transaction) := do
  let (index, tx) ← readSelf raw tx
  let (index, dentries) ← readDentries raw (raw.length + 1) index tx.dentries
  let fInodes ← readFInodes raw (raw.length + 1) index tx.fInodes
  Prog.ret (0, { tx with dentries := dentries, fInodes := fInodes })

def deserialize (tx : Transaction) (raw : Bytes) :
    IoProg (Int × Transaction) := do
  let valid ← bytesAt raw 4 1
  if valid = [0] then Prog.ret (-1, tx) else readSections raw tx

end Decoding

/-- The record is decoded to what it was made from. -/
def RoundTrips {σ : Type} (L : Librados σ) (tx : Transaction) (s : σ) : Prop :=
  ∃ tx' s', (deserialize (.new tx.sIno) tx.serialize).run L.call s =
      (.ok (0, tx'), s') ∧
    Option.Rel Inode.Same tx.sInode tx'.sInode ∧
    (∀ name, tx'.dentries.lookup name = tx.dentries.lookup name) ∧
    (∀ ino, Option.Rel Inode.Same (tx.fInodes.lookup ino).join
      (tx'.fInodes.lookup ino).join) ∧
    tx'.status = tx.status

section Sections

variable {raw b c : Bytes} {index n : Nat}

theorem length_serializeDentry (d : (_ : Name) × (Bool × Uuid)) :
    (serializeDentry d).length = 21 + d.1.length := by
  simp [serializeDentry, d.2.2.size]
  omega

/-- The entries are read back, in whatever order they were written. -/
theorem readDentries_serialize
    (l : List ((_ : Name) × (Bool × Uuid))) {left : Nat} {rest : Bytes}
    {dentries : TxDentries} (hleft : (l.flatMap serializeDentry).length < left)
    (hdrop : raw.drop index = l.flatMap serializeDentry ++ (255 :: rest))
    (hkeys : l.NodupKeys) (hnew : ∀ d ∈ l, dentries.lookup d.1 = none)
    (hsize : ∀ d ∈ l, d.1.length < 2 ^ 31) :
    ∃ dentries', readDentries raw left index dentries =
        .ret (index + (l.flatMap serializeDentry).length + 1, dentries') ∧
      ∀ name, dentries'.lookup name =
        (l.dlookup name).or (dentries.lookup name) := by
  induction l generalizing left index dentries with
  | nil =>
      obtain ⟨left, rfl⟩ := Nat.exists_eq_succ_of_ne_zero (Nat.ne_zero_of_lt hleft)
      refine ⟨dentries, ?_, by simp⟩
      have hmark := bytesAt_of_drop (b := [255]) (c := rest) (n := 1)
        (by simpa using hdrop) (by simp) rfl
      rw [readDentries, hmark, Prog.ret_bind, if_pos rfl]
      simp
  | cons d l ih =>
      obtain ⟨left, rfl⟩ := Nat.exists_eq_succ_of_ne_zero (Nat.ne_zero_of_lt hleft)
      obtain ⟨name, alive, ino⟩ := d
      rw [List.nodupKeys_cons] at hkeys
      have hnone : dentries.lookup name = none :=
        hnew ⟨name, alive, ino⟩ List.mem_cons_self
      -- the five parts of the entry, one behind the other
      have h₀ : raw.drop index = [if alive then 1 else 0] ++
          (leBytes 4 name.length ++ (name ++ (ino.data ++
            (l.flatMap serializeDentry ++ (255 :: rest))))) := by
        simpa [serializeDentry] using hdrop
      have h₁ := drop_add_of_drop h₀ (n := 1) rfl
      have h₂ : raw.drop (index + 5) = name ++ (ino.data ++
          (l.flatMap serializeDentry ++ (255 :: rest))) := by
        have h := drop_add_of_drop h₁ (n := 4) (by simp)
        exact h
      have h₃ := drop_add_of_drop h₂ (n := name.length) rfl
      have h₄ := drop_add_of_drop h₃ (n := 16) ino.size
      have hstat : ([if alive then 1 else 0] : Bytes) ≠ [255] := by
        cases alive <;> decide
      have hnew' : ∀ d ∈ l,
          (dentries.insert name (alive, ino)).lookup d.1 = none := by
        intro d hd
        have hne : d.1 ≠ name := by
          rintro rfl
          exact hkeys.1 (show d.1 ∈ l.keys from List.mem_keys_of_mem hd)
        rw [AList.lookup_insert_ne hne]
        exact hnew d (List.mem_cons_of_mem _ hd)
      have hleft' : (l.flatMap serializeDentry).length < left := by
        rw [List.flatMap_cons, List.length_append,
          length_serializeDentry] at hleft
        omega
      obtain ⟨dentries', hread, hlookup⟩ := ih hleft' h₄ hkeys.2 hnew'
        fun d hd => hsize d (List.mem_cons_of_mem _ hd)
      refine ⟨dentries', ?_, ?_⟩
      · have hino : (⟨resize ino.data 16, by simp⟩ : Uuid) = ino :=
          Uuid.ext_data (by simp [resize, ino.size, List.take_of_length_le])
        have halive : (decide (([if alive then 1 else 0] : Bytes) ≠ [0])) =
            alive := by
          cases alive <;> rfl
        rw [readDentries, bytesAt_of_drop (n := 1) h₀ (by simp) rfl,
          Prog.ret_bind, if_neg hstat,
          int32At_of_drop h₁ (hsize _ List.mem_cons_self), Prog.ret_bind,
          stringAt_of_drop h₂ (by simp), Prog.ret_bind,
          bytesAt_of_drop h₃ (by simp) ino.size, Prog.ret_bind, if_pos hnone,
          hino, halive, hread]
        simp only [List.flatMap_cons, List.length_append,
          length_serializeDentry]
        congr 2
        omega
      · intro name'
        rw [hlookup]
        by_cases hn : name' = name
        · subst hn
          rw [List.dlookup_cons_eq, AList.lookup_insert,
            List.dlookup_eq_none.mpr hkeys.1]
          rfl
        · rw [List.dlookup_cons_ne _ _ hn, AList.lookup_insert_ne hn]

/-- A recorded file: its core is in the record, its link is not. -/
theorem readFInodes_sizedInode
    {i : Inode} {left : Nat} (fInodes : FInodes)
    (hdrop : raw.drop index = sizedInode i ++ c)
    (hsize : i.serialize.length < 2 ^ 31) :
    readFInodes raw (left + 1) index fInodes =
      (Inode.withLink i.core >>= fun j =>
        if fInodes.lookup j.core.ino = none then
          readFInodes raw left (index + 4 + i.serialize.length)
            (fInodes.insert j.core.ino (some j))
        else Prog.throw duplicatedKey) := by
  rw [sizedInode, List.append_assoc] at hdrop
  have hnext : ((index : Int) + 4 + (i.serialize.length : Nat)).toNat =
      index + 4 + i.serialize.length := by
    omega
  rw [readFInodes, int32At_of_drop hdrop hsize, Prog.ret_bind,
    if_neg (by omega), drop_add_of_drop hdrop (n := 4) (by simp),
    Inode.deserialize_serialize]
  simp only [hnext]
  congr 1

theorem readFInodes_endMark
    {left : Nat} (fInodes : FInodes) (hdrop : raw.drop index = endMark ++ c) :
    readFInodes raw (left + 1) index fInodes = .ret fInodes := by
  rw [readFInodes, int32At_endMark hdrop, Prog.ret_bind, if_pos rfl]

/-- The files are read back, if their links are stored. -/
theorem run_readFInodes_serialize
    {p : Pool} (l : List ((_ : Uuid) × Option Inode)) {left : Nat}
    {fInodes : FInodes} (hleft : (l.flatMap serializeFInode).length < left)
    (hdrop : raw.drop index = l.flatMap serializeFInode ++ endMark)
    (hkeys : l.NodupKeys) (hnew : ∀ f ∈ l, fInodes.lookup f.1 = none)
    (hino : ∀ f ∈ l, ∀ i, f.2 = some i → i.core.ino = f.1)
    (hsize : ∀ f ∈ l, ∀ i, f.2 = some i → i.serialize.length < 2 ^ 31)
    (hlink : ∀ f ∈ l, ∀ i, f.2 = some i → i.LinkStored p) :
    ∃ fInodes', (readFInodes raw left index fInodes).run Pool.handle p =
        (.ok fInodes', p) ∧
      (∀ ino i, l.dlookup ino = some (some i) →
        ∃ j, fInodes'.lookup ino = some (some j) ∧ i.Same j) ∧
      ∀ ino, (l.dlookup ino).join = none →
        fInodes'.lookup ino = fInodes.lookup ino := by
  induction l generalizing left index fInodes with
  | nil =>
      obtain ⟨left, rfl⟩ := Nat.exists_eq_succ_of_ne_zero (Nat.ne_zero_of_lt hleft)
      refine ⟨fInodes, ?_, by simp, fun _ _ => rfl⟩
      rw [readFInodes_endMark (c := []) fInodes (by simpa using hdrop)]
      rfl
  | cons f l ih =>
      obtain ⟨ino, fi⟩ := f
      rw [List.nodupKeys_cons] at hkeys
      have hmem : ∀ f ∈ l, f ∈ (⟨ino, fi⟩ :: l : List ((_ : Uuid) × Option Inode)) :=
        fun f hf => List.mem_cons_of_mem _ hf
      cases fi with
      | none =>
          -- a deleted file is not in the record
          obtain ⟨fInodes', hrun, hsome, hnone⟩ := ih
            (by simpa [serializeFInode] using hleft) (by simpa [serializeFInode] using hdrop)
            hkeys.2 (fun f hf => hnew f (hmem f hf))
            (fun f hf => hino f (hmem f hf)) (fun f hf => hsize f (hmem f hf))
            (fun f hf => hlink f (hmem f hf))
          refine ⟨fInodes', hrun, ?_, ?_⟩
          · intro ino' i hi
            by_cases hne : ino' = ino
            · subst hne
              simp at hi
            · rw [List.dlookup_cons_ne _ _ hne] at hi
              exact hsome ino' i hi
          · intro ino' hi
            by_cases hne : ino' = ino
            · subst hne
              apply hnone
              rw [List.dlookup_eq_none.mpr hkeys.1]
              rfl
            · rw [List.dlookup_cons_ne _ _ hne] at hi
              exact hnone ino' hi
      | some i =>
          obtain ⟨left, rfl⟩ :=
            Nat.exists_eq_succ_of_ne_zero (Nat.ne_zero_of_lt hleft)
          have hleft' : (l.flatMap serializeFInode).length < left := by
            simp only [List.flatMap_cons, List.length_append, serializeFInode,
              sizedInode, length_leBytes] at hleft
            omega
          obtain rfl : i.core.ino = ino := hino _ List.mem_cons_self i rfl
          have hlen := hsize _ List.mem_cons_self i rfl
          have hdrop' : raw.drop index = sizedInode i ++
              (l.flatMap serializeFInode ++ endMark) := by
            simpa [serializeFInode] using hdrop
          obtain ⟨j, p', hj, hsame⟩ := (Inode.run_withLink_iff p i).mpr
            (hlink _ List.mem_cons_self i rfl)
          obtain ⟨hp, hcore⟩ := Inode.run_withLink i.core p
          rw [hj] at hp
          simp only at hp
          subst hp
          have hjcore : j.core = i.core := hcore j _ hj
          have hrest : raw.drop (index + 4 + i.serialize.length) =
              l.flatMap serializeFInode ++ endMark := by
            have hlen' : (sizedInode i).length = 4 + i.serialize.length := by
              simp [sizedInode]
            rw [Nat.add_assoc]
            exact drop_add_of_drop hdrop' hlen'
          have hnew' : ∀ f ∈ l,
              (fInodes.insert j.core.ino (some j)).lookup f.1 = none := by
            intro f hf
            have hne : f.1 ≠ j.core.ino := by
              intro heq
              rw [hjcore] at heq
              exact hkeys.1 (heq ▸ (show f.1 ∈ l.keys from
                List.mem_keys_of_mem hf))
            rw [AList.lookup_insert_ne hne]
            exact hnew f (hmem f hf)
          obtain ⟨fInodes', hrun, hsome, hnone⟩ := ih
            hleft' hrest hkeys.2 hnew'
            (fun f hf => hino f (hmem f hf)) (fun f hf => hsize f (hmem f hf))
            (fun f hf => hlink f (hmem f hf))
          refine ⟨fInodes', ?_, ?_, ?_⟩
          · rw [readFInodes_sizedInode fInodes hdrop' hlen,
              Prog.run_bind_ok _ hj, if_pos, hrun]
            rw [hjcore]
            exact hnew _ List.mem_cons_self
          · intro ino' i' hi
            by_cases hne : ino' = i.core.ino
            · subst hne
              rw [List.dlookup_cons_eq] at hi
              cases hi
              refine ⟨j, ?_, hsame⟩
              rw [hnone _ (by rw [List.dlookup_eq_none.mpr hkeys.1]; rfl),
                hjcore, AList.lookup_insert]
            · rw [List.dlookup_cons_ne _ _ hne] at hi
              exact hsome ino' i' hi
          · intro ino' hi
            have hne : ino' ≠ i.core.ino := by
              rintro rfl
              simp at hi
            rw [List.dlookup_cons_ne _ _ hne] at hi
            rw [hnone ino' hi, hjcore, AList.lookup_insert_ne hne]

/-- Files are added to what has been read, never replaced. -/
theorem run_readFInodes_grows
    {p p' : Pool} {left : Nat} {fInodes fInodes' : FInodes}
    (hrun : (readFInodes raw left index fInodes).run Pool.handle p =
      (.ok fInodes', p')) {ino : Uuid} {x : Option Inode}
    (hx : fInodes.lookup ino = some x) : fInodes'.lookup ino = some x := by
  induction left generalizing index fInodes p with
  | zero => simp [readFInodes] at hrun
  | succ left ih =>
      rw [readFInodes] at hrun
      obtain ⟨size, p₁, -, hrun⟩ := Prog.run_bind_eq_ok _ hrun
      split at hrun
      · cases hrun
        exact hx
      · obtain ⟨i, p₂, -, hrun⟩ := Prog.run_bind_eq_ok _ hrun
        split at hrun
        · rename_i hnone
          split at hrun
          · cases hrun
          · refine ih hrun ?_
            have hne : ino ≠ i.core.ino := by
              rintro rfl
              rw [hnone] at hx
              cases hx
            rw [AList.lookup_insert_ne hne]
            exact hx
        · cases hrun

/-- If the files are read at all, every one of them has been found. -/
theorem run_readFInodes_links
    {p p' : Pool} (l : List ((_ : Uuid) × Option Inode)) {left : Nat}
    {fInodes fInodes' : FInodes}
    (hdrop : raw.drop index = l.flatMap serializeFInode ++ endMark)
    (hsize : ∀ f ∈ l, ∀ i, f.2 = some i → i.serialize.length < 2 ^ 31)
    (hrun : (readFInodes raw left index fInodes).run Pool.handle p =
      (.ok fInodes', p')) :
    ∀ f ∈ l, ∀ i, f.2 = some i → ∃ j,
      (Inode.withLink i.core).run Pool.handle p = (.ok j, p) ∧
      fInodes'.lookup i.core.ino = some (some j) := by
  induction l generalizing left index fInodes with
  | nil => simp
  | cons f l ih =>
      obtain ⟨ino, fi⟩ := f
      have hmem : ∀ f ∈ l, f ∈ (⟨ino, fi⟩ :: l : List ((_ : Uuid) × Option Inode)) :=
        fun f hf => List.mem_cons_of_mem _ hf
      have hrest := fun f hf => hsize f (hmem f hf)
      intro f hf i hi
      cases fi with
      | none =>
          rcases List.mem_cons.mp hf with rfl | hf
          · cases hi
          · exact ih (by simpa [serializeFInode] using hdrop) hrest hrun f hf i hi
      | some i₀ =>
          have hlen := hsize _ List.mem_cons_self i₀ rfl
          have hdrop' : raw.drop index = sizedInode i₀ ++
              (l.flatMap serializeFInode ++ endMark) := by
            simpa [serializeFInode] using hdrop
          have hnext : raw.drop (index + 4 + i₀.serialize.length) =
              l.flatMap serializeFInode ++ endMark := by
            have hlen' : (sizedInode i₀).length = 4 + i₀.serialize.length := by
              simp [sizedInode]
            rw [Nat.add_assoc]
            exact drop_add_of_drop hdrop' hlen'
          cases left with
          | zero => simp [readFInodes] at hrun
          | succ left =>
              rw [readFInodes_sizedInode fInodes hdrop' hlen] at hrun
              obtain ⟨j, p₁, hj, hloop⟩ := Prog.run_bind_eq_ok _ hrun
              obtain ⟨hp, hcore⟩ := Inode.run_withLink i₀.core p
              rw [hj] at hp
              simp only at hp
              subst hp
              have hjcore := hcore j _ hj
              split at hloop
              · rcases List.mem_cons.mp hf with rfl | hf
                · cases hi
                  refine ⟨j, hj, run_readFInodes_grows hloop ?_⟩
                  rw [hjcore, AList.lookup_insert]
                · exact ih hnext hrest hloop f hf i hi
              · cases hloop

/-- The bytes that the entries of a transaction take. -/
def dentriesSize (dentries : TxDentries) : Nat :=
  (dentries.entries.flatMap serializeDentry).length

/-- The loop over the entries consumes the bytes of the entries that it
finds, wherever it starts. -/
theorem run_readDentries_size
    {p p' : Pool} {left index' : Nat} {dentries dentries' : TxDentries}
    (hrun : (readDentries raw left index dentries).run Pool.handle p =
      (.ok (index', dentries'), p')) :
    index' + dentriesSize dentries = index + 1 + dentriesSize dentries' := by
  induction left generalizing index dentries p with
  | zero => simp [readDentries] at hrun
  | succ left ih =>
      rw [readDentries] at hrun
      obtain ⟨stat, p₁, -, hrun⟩ := Prog.run_bind_eq_ok _ hrun
      split at hrun
      · cases hrun
        rfl
      · obtain ⟨size, p₂, -, hrun⟩ := Prog.run_bind_eq_ok _ hrun
        obtain ⟨name, p₃, -, hrun⟩ := Prog.run_bind_eq_ok _ hrun
        obtain ⟨data, p₄, -, hrun⟩ := Prog.run_bind_eq_ok _ hrun
        split at hrun
        · rename_i hnone
          have hsize := ih hrun
          rw [dentriesSize, AList.entries_insert_of_notMem
            (AList.lookup_eq_none.mp hnone), List.flatMap_cons,
            List.length_append, length_serializeDentry] at hsize
          simp only [dentriesSize] at hsize ⊢
          omega
        · cases hrun

/-- The size depends on the entries only, not on their order. -/
theorem dentriesSize_congr
    {dentries dentries' : TxDentries}
    (h : ∀ name, dentries'.lookup name = dentries.lookup name) :
    dentriesSize dentries' = dentriesSize dentries := by
  have hperm : dentries'.entries.Perm dentries.entries := by
    refine List.lookup_ext dentries'.nodupKeys dentries.nodupKeys ?_
    intro name x
    rw [show dentries'.entries.dlookup name = dentries.entries.dlookup name
      from h name]
  exact (hperm.flatMap_right serializeDentry).length_eq

end Sections

/-- The names and inodes are small enough for their sizes to be signed 32-bit
numbers. -/
structure Fits (tx : Transaction) : Prop where
  names : ∀ d ∈ tx.dentries.entries, d.1.length < 2 ^ 31
  files : ∀ f ∈ tx.fInodes.entries, ∀ i, f.2 = some i →
    i.serialize.length < 2 ^ 31

/-- Every recorded symbolic link has its target in the meta pool. -/
def LinksStored (tx : Transaction) (p : Pool) : Prop :=
  ∀ ino i, tx.fInodes.lookup ino = some (some i) → i.LinkStored p

section RoundTrip

variable {tx : Transaction} {p : Pool} {σ : Type} {L : Librados σ} {s : σ}

theorem drop_serialize (tx : Transaction) :
    tx.serialize.drop 4 = 1 :: tx.sections := by
  rw [serialize, List.drop_left' (by simp)]

theorem drop_sections (tx : Transaction) :
    tx.serialize.drop 5 = tx.sections := by
  have h := drop_add_of_drop (b := [1]) (n := 1) (drop_serialize tx) rfl
  exact h

theorem length_serialize (tx : Transaction) :
    tx.serialize.length = 5 + tx.sections.length := by
  simp [serialize]
  omega

/-- A record is valid when it is written. -/
theorem deserialize_serialize (tx₀ : Transaction) :
    deserialize tx₀ tx.serialize = readSections tx.serialize tx₀ := by
  have hvalid : bytesAt tx.serialize 4 1 = .ret [1] :=
    bytesAt_of_drop (b := [1]) (drop_serialize tx) (by simp) rfl
  rw [deserialize, hvalid, Prog.ret_bind, if_neg (by decide)]

/-- Without the inode of the directory, the entries begin behind the mark. -/
theorem readSelf_none (h : tx.sInode = none) (tx₀ : Transaction) :
    readSelf tx.serialize tx₀ = .ret (9, tx₀) ∧
      tx.serialize.drop 9 =
        tx.dentries.entries.flatMap serializeDentry ++ (255 ::
          (tx.fInodes.entries.flatMap serializeFInode ++ endMark)) := by
  have hself : tx.serialize.drop 5 = endMark ++
      (tx.dentries.entries.flatMap serializeDentry ++ (255 ::
        (tx.fInodes.entries.flatMap serializeFInode ++ endMark))) := by
    rw [drop_sections, sections, h]
    rfl
  constructor
  · rw [readSelf, int32At_endMark hself, Prog.ret_bind, if_pos rfl]
  · exact drop_add_of_drop hself (n := 4) rfl

/-- The record is read back, if nothing of the transaction is missing in it. -/
theorem roundTrips_of_stored
    (hfits : tx.Fits) (hsound : tx.Sound) (hself : tx.sInode = none)
    (hstatus : tx.status = .S_UNCHANGED) (hlinks : tx.LinksStored (L.objects s)) :
    RoundTrips L tx s := by
  obtain ⟨hread, hdrop⟩ := readSelf_none hself (.new tx.sIno)
  have hlen := congrArg List.length hdrop
  simp only [List.length_drop, List.length_append, List.length_cons] at hlen
  have hfile : ∀ f ∈ tx.fInodes.entries, ∀ i, f.2 = some i →
      tx.fInodes.lookup f.1 = some (some i) := by
    rintro ⟨ino, fi⟩ hf i rfl
    exact AList.mem_lookup_iff.mpr hf
  obtain ⟨dentries, hdentries, hnames⟩ := readDentries_serialize
    tx.dentries.entries
    (show (tx.dentries.entries.flatMap serializeDentry).length <
      tx.serialize.length + 1 by omega) hdrop tx.dentries.nodupKeys
    (show ∀ d ∈ tx.dentries.entries, (∅ : TxDentries).lookup d.1 = none
      from fun _ _ => AList.lookup_empty _) hfits.names
  have hdrop' := drop_add_of_drop hdrop rfl
  have hdrop'' := drop_add_of_drop (b := [255]) (n := 1) hdrop' rfl
  obtain ⟨fInodes, hfiles, hsome, hnone⟩ := run_readFInodes_serialize
    tx.fInodes.entries
    (show (tx.fInodes.entries.flatMap serializeFInode).length <
      tx.serialize.length + 1 by omega) hdrop'' tx.fInodes.nodupKeys
    (show ∀ f ∈ tx.fInodes.entries, (∅ : FInodes).lookup f.1 = none
      from fun _ _ => AList.lookup_empty _)
    (fun f hf i hi => hsound.files f.1 i (hfile f hf i hi)) hfits.files
    (fun f hf i hi => hlinks f.1 i (hfile f hf i hi))
  have hdec : (deserialize (.new tx.sIno) tx.serialize).run Pool.handle (L.objects s) =
      (.ok (0, { Transaction.new tx.sIno with
        dentries := dentries, fInodes := fInodes }), L.objects s) := by
    rw [deserialize_serialize, readSections, hread, Prog.ret_bind]
    simp only [Transaction.new] at hdentries ⊢
    rw [hdentries, Prog.ret_bind]
    exact Prog.run_bind_ok _ hfiles
  obtain ⟨s', hrun, -⟩ := L.run_of_objects hdec
  refine ⟨_, s', hrun, ?_, ?_, ?_, ?_⟩
  · rw [hself]
    exact .none
  · intro name
    rw [hnames, AList.lookup_empty, Option.or_none]
    rfl
  · intro ino
    cases hi : (tx.fInodes.lookup ino).join with
    | none =>
        have hnew : (∅ : FInodes).lookup ino = none := AList.lookup_empty _
        rw [hnone ino hi, hnew]
        exact .none
    | some i =>
        obtain ⟨j, hj, hsame⟩ := hsome ino i (Option.join_eq_some_iff.mp hi)
        rw [hj]
        exact .some hsame
  · exact hstatus.symm

/-- The decoder gets through all sections if the record comes back. -/
theorem RoundTrips.decoded
    (h : RoundTrips L tx s) :
    ∃ index tx₀ p₀ index' dentries p₁ fInodes p₂,
      (readSelf tx.serialize (.new tx.sIno)).run Pool.handle (L.objects s) =
        (.ok (index, tx₀), p₀) ∧
      (readDentries tx.serialize (tx.serialize.length + 1) index
        tx₀.dentries).run Pool.handle p₀ = (.ok (index', dentries), p₁) ∧
      (readFInodes tx.serialize (tx.serialize.length + 1) index'
        tx₀.fInodes).run Pool.handle p₁ = (.ok fInodes, p₂) ∧
      tx.status = tx₀.status ∧
      (∀ name, dentries.lookup name = tx.dentries.lookup name) ∧
      ∀ ino, Option.Rel Inode.Same (tx.fInodes.lookup ino).join
        (fInodes.lookup ino).join := by
  obtain ⟨tx', s', hdec, -, hnames, hfiles, hstatus⟩ := h
  have hrun := L.run_objects hdec
  rw [deserialize_serialize, readSections] at hrun
  obtain ⟨⟨index, tx₀⟩, p₀, hself, hrun⟩ := Prog.run_bind_eq_ok _ hrun
  obtain ⟨⟨index', dentries⟩, p₁, hdentries, hrun⟩ := Prog.run_bind_eq_ok _ hrun
  obtain ⟨fInodes, p₂, hfInodes, hrun⟩ := Prog.run_bind_eq_ok _ hrun
  cases hrun
  exact ⟨index, tx₀, p₀, index', dentries, p₁, fInodes, _, hself, hdentries,
    hfInodes, hstatus.symm, hnames, hfiles⟩

/-- The status is not in the record. -/
theorem RoundTrips.status (h : RoundTrips L tx s) : tx.status = .S_UNCHANGED := by
  obtain ⟨index, tx₀, p₀, _, _, _, _, _, hself, -, -, hstatus, -, -⟩ := h.decoded
  rw [hstatus]
  rw [readSelf] at hself
  obtain ⟨size, p₁, -, hself⟩ := Prog.run_bind_eq_ok _ hself
  split at hself
  · cases hself
    rfl
  · obtain ⟨s, p₂, -, hself⟩ := Prog.run_bind_eq_ok _ hself
    cases hself
    rfl

/-- Nor are the targets of links. -/
theorem RoundTrips.linksStored
    (h : RoundTrips L tx s) (hfits : tx.Fits) (hsound : tx.Sound)
    (hself : tx.sInode = none) : tx.LinksStored (L.objects s) := by
  obtain ⟨hread, hdrop⟩ := readSelf_none hself (.new tx.sIno)
  obtain ⟨index, tx₀, p₀, index', dentries, p₁, fInodes, p₂, hrun, hdentries,
    hfInodes, -, hnames, hfiles⟩ := h.decoded
  rw [hread] at hrun
  cases hrun
  have hlen := congrArg List.length hdrop
  simp only [List.length_drop, List.length_append, List.length_cons] at hlen
  obtain ⟨dentries', hloop, -⟩ := readDentries_serialize
    tx.dentries.entries
    (show (tx.dentries.entries.flatMap serializeDentry).length <
      tx.serialize.length + 1 by omega) hdrop tx.dentries.nodupKeys
    (show ∀ d ∈ tx.dentries.entries, (∅ : TxDentries).lookup d.1 = none
      from fun _ _ => AList.lookup_empty _) hfits.names
  simp only [Transaction.new] at hdentries
  rw [hloop] at hdentries
  cases hdentries
  have hdrop'' := drop_add_of_drop (b := [255]) (n := 1)
    (drop_add_of_drop hdrop rfl) rfl
  have hfound := run_readFInodes_links tx.fInodes.entries hdrop'' hfits.files
    hfInodes
  intro ino i hi
  have hmem := AList.mem_lookup_iff.mp hi
  obtain rfl : i.core.ino = ino := hsound.files ino i hi
  obtain ⟨j, hj, hlookup⟩ := hfound _ hmem i rfl
  have hrel := hfiles i.core.ino
  rw [hi, hlookup] at hrel
  cases hrel with
  | some hsame => exact (Inode.run_withLink_iff _ i).mp ⟨j, _, hj, hsame⟩

/-- The decoder skips the inode of the directory by the wrong size, and runs
out of the record. -/
theorem RoundTrips.sInode
    (h : RoundTrips L tx s) (hsound : tx.Sound)
    (hnone : ∀ ino, (tx.fInodes.lookup ino).join = none) :
    tx.sInode = none := by
  cases hself : tx.sInode with
  | none => rfl
  | some s =>
      exfalso
      have hdir := hsound.self s hself
      have hfiles : tx.fInodes.entries.flatMap serializeFInode = [] := by
        rw [List.flatMap_eq_nil_iff]
        rintro ⟨ino, fi⟩ hf
        have hlookup := AList.mem_lookup_iff.mpr hf
        have hi := hnone ino
        rw [hlookup] at hi
        cases hi
        rfl
      have hsize : s.serialize.length = regInodeSize := by
        rw [Inode.length_serialize, hdir.2]
        rfl
      have hsections : tx.serialize.drop 5 = leBytes 4 regInodeSize ++
          (s.serialize ++ (tx.dentries.entries.flatMap serializeDentry ++
            (255 :: endMark))) := by
        rw [drop_sections, sections, hself, hfiles, serializeSelf, sizedInode,
          hsize]
        simp
      have hlen := congrArg List.length hsections
      simp only [List.length_drop, List.length_append, List.length_cons,
        length_leBytes, hsize, endMark, List.length_replicate] at hlen
      obtain ⟨index, tx₀, p₀, index', dentries, p₁, fInodes, p₂, hrun,
        hdentries, hfInodes, -, hnames, -⟩ := h.decoded
      -- the loop over the entries starts at the wrong index
      have hindex : index = 9 + sizeofInode ∧ tx₀.dentries = ∅ := by
        rw [readSelf, int32At_of_drop hsections (by decide), Prog.ret_bind,
          if_neg (by decide)] at hrun
        obtain ⟨s', p', -, hrun⟩ := Prog.run_bind_eq_ok _ hrun
        cases hrun
        exact ⟨rfl, rfl⟩
      have hconsumed := run_readDentries_size hdentries
      rw [hindex.1, hindex.2, dentriesSize_congr hnames] at hconsumed
      -- and the loop over the files begins behind the end
      rw [readFInodes] at hfInodes
      obtain ⟨size, p', hint, -⟩ := Prog.run_bind_eq_ok _ hfInodes
      obtain ⟨bs, p'', hbytes, -⟩ := Prog.run_bind_eq_ok _ hint
      have hle := le_of_run_bytesAt hbytes
      simp only [dentriesSize, AList.empty_entries, List.flatMap_nil,
        List.length_nil, sizeofInode, regInodeSize] at hconsumed hlen
      omega

end RoundTrip

/-- Nothing of the transaction is missing in its record or misread there: the
inode of the directory is not recorded, its status has not changed, and the
meta pool has the targets of the recorded links. -/
def Recorded (tx : Transaction) (p : Pool) : Prop :=
  tx.sInode = none ∧ tx.status = .S_UNCHANGED ∧ tx.LinksStored p

/-- **Decoding undoes encoding** for the transactions that are recorded
completely; and for no others, except that the wrong skip over the inode of the
directory cannot be excluded to hit on something when files are recorded behind
it. -/
theorem record_round_trips_when
    {σ : Type} (L : Librados σ) (tx : Transaction) (hreach : tx.Reachable)
    (hfits : tx.Fits) (s : σ) :
    (tx.Recorded (L.objects s) → RoundTrips L tx s) ∧
      (RoundTrips L tx s →
        tx.sInode = none ∨ (∀ ino, (tx.fInodes.lookup ino).join = none) →
        tx.Recorded (L.objects s)) := by
  have hsound := hreach.sound
  constructor
  · rintro ⟨hself, hstatus, hlinks⟩
    exact roundTrips_of_stored hfits hsound hself hstatus hlinks
  · intro h hcase
    have hself : tx.sInode = none := by
      rcases hcase with hself | hnone
      · exact hself
      · exact h.sInode hsound hnone
    exact ⟨hself, h.status, h.linksStored hfits hsound hself⟩

section Examples

/-- A regular file. -/
def someFile : Inode :=
  .new .root 1000 1000 (sIFREG ||| 0o644) ⟨List.replicate 16 7, by simp⟩
    ⟨1700000000, 5⟩

/-- The root directory. -/
def rootDir : Inode :=
  .new .nil 0 0 (sIFDIR ||| 0o755) .root ⟨1700000000, 0⟩

/-- A transaction with a changed file. -/
theorem record_round_trips_chreg :
    RoundTrips Pool.librados ((Transaction.new .root).chreg someFile).2 Pool.empty := by
  have hlookup : ∀ ino i, ((Transaction.new .root).chreg someFile).2.fInodes.lookup
      ino = some (some i) → i = someFile.copy := by
    intro ino i hi
    by_cases hne : ino = someFile.core.ino
    · subst hne
      simp only [chreg, Transaction.new, Bool.false_eq_true, if_false,
        setFInode_lookup, Option.some.injEq] at hi
      exact hi.symm
    · simp only [chreg, Transaction.new, Bool.false_eq_true, if_false,
        setFInode_lookup_ne _ _ _ hne] at hi
      cases hi
  refine (record_round_trips_when Pool.librados _ (.apply (.chreg someFile) (.new .root)
    (by simp [TxOp.selfInode?]))
    ⟨by simp [TxOp.apply, chreg, Transaction.new, setFInode], ?_⟩ Pool.empty).1 ⟨rfl, rfl, ?_⟩
  · rintro ⟨ino, fi⟩ hf i rfl
    rw [hlookup ino i (AList.mem_lookup_iff.mpr hf), Inode.length_serialize]
    decide
  · intro ino i hi hlnk
    rw [hlookup ino i hi] at hlnk
    exact absurd hlnk (by decide)

/-- A directory is made in the root: the record cannot be decoded. -/
theorem record_lost_mkdir :
    ((Transaction.new .root).mkdir rootDir [97]
      ⟨List.replicate 16 7, by simp⟩).2.Reachable ∧
    ∀ p, ¬ RoundTrips Pool.librados ((Transaction.new .root).mkdir rootDir [97]
      ⟨List.replicate 16 7, by simp⟩).2 p := by
  have hreach : ((Transaction.new .root).mkdir rootDir [97]
      ⟨List.replicate 16 7, by simp⟩).2.Reachable := by
    refine .apply (.mkdir rootDir [97] ⟨List.replicate 16 7, by simp⟩)
      (.new .root) ?_
    rintro s hs
    cases hs
    exact ⟨by decide, rfl⟩
  refine ⟨hreach, ?_⟩
  intro p h
  have hself := h.sInode hreach.sound (fun ino => rfl)
  cases hself

end Examples

end Transaction

end Nmfs
