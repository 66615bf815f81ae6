import Nmfs.Lib.Faults
import Nmfs.Rados.FlatStore
import Nmfs.Journal.Record
import Mathlib.Data.Finset.Card

/-!
# What has to lie in a record

`deserialize` follows sizes and marks that it takes from the record, and checks
none of them.  It goes wrong unless everything up to the end mark lies in the
record, or up to something that it refuses: an entry with a negative size, an
entry or an inode that it has met before, a link without a target.

The files may lead back to where they have been, but not for ever, since an
inode that is met again is refused.
-/

namespace Nmfs

namespace Buffer

open Bytes

variable {raw : Bytes} {index n : Nat} {p : Pool} {α : Type}

/-- The signed integer at `index`. -/
def sizeAt (raw : Bytes) (index : Nat) : Int := int32 (slice raw index 4)

theorem safe_bytesAt_iff {k : Bytes → IoProg α} :
    Prog.Safe Pool.handle (bytesAt raw index n >>= k) p ↔
      index + n ≤ raw.length ∧ Prog.Safe Pool.handle (k (slice raw index n)) p := by
  unfold bytesAt
  split
  · rename_i hin
    exact (and_iff_right hin).symm
  · rename_i hout
    exact ⟨fun h => absurd h (Prog.not_safe_fault _), fun h => absurd h.1 hout⟩

theorem safe_int32At_iff {k : Int → IoProg α} :
    Prog.Safe Pool.handle (int32At raw index >>= k) p ↔
      index + 4 ≤ raw.length ∧ Prog.Safe Pool.handle (k (sizeAt raw index)) p := by
  unfold int32At
  rw [Prog.bind_assoc', safe_bytesAt_iff]
  exact Iff.rfl

theorem safe_stringAt_iff {size : Int} {k : Bytes → IoProg α} :
    Prog.Safe Pool.handle (stringAt raw index size >>= k) p ↔
      0 ≤ size → index + size.toNat ≤ raw.length ∧
        Prog.Safe Pool.handle (k (slice raw index size.toNat)) p := by
  unfold stringAt
  split
  · rename_i hneg
    exact ⟨fun _ hpos => absurd hneg (not_lt.mpr hpos),
      fun _ => Prog.safe_throw _⟩
  · rename_i hpos
    rw [safe_bytesAt_iff, forall_prop_of_true (not_lt.mp hpos)]

end Buffer

theorem Represents.safe_read
    {p : Pool} {f : FlatStore} (hp : Represents p f) (category : ObjCategory) (key : Key)
    {len offset : Nat} (hend : offset + len ≤ offEnd) :
    Prog.Safe Pool.handle (RadosIo.read category key len offset) p := by
  obtain ⟨n, hf, -⟩ := hp.file category key
  unfold Prog.Safe
  rw [RadosIo.run_read hf (Nat.lt_of_le_of_lt hend offEnd_lt_offMax)
    (.inl hend), RadosIo.readOutcome]
  split <;> rintro _ ⟨⟩

namespace Transaction

open Bytes Buffer

/-- From `index` on, the entries lie in the record: up to the mark, behind which
`next` holds, or up to one that is refused.  The names in `known` have been
read. -/
inductive EntriesIn (raw : Bytes) (next : Nat → Prop) : Nat → List Name → Prop
  | mark {index : Nat} {known : List Name} (hmark : slice raw index 1 = [255])
      (hnext : next (index + 1)) : EntriesIn raw next index known
  | negative {index : Nat} {known : List Name}
      (hstat : slice raw index 1 ≠ [255]) (hin : index + 5 ≤ raw.length)
      (hsize : sizeAt raw (index + 1) < 0) : EntriesIn raw next index known
  | again {index n : Nat} {known : List Name}
      (hstat : slice raw index 1 ≠ [255]) (hsize : sizeAt raw (index + 1) = n)
      (hin : index + 5 + n + 16 ≤ raw.length)
      (hknown : slice raw (index + 5) n ∈ known) : EntriesIn raw next index known
  | entry {index n : Nat} {known : List Name}
      (hstat : slice raw index 1 ≠ [255]) (hsize : sizeAt raw (index + 1) = n)
      (hin : index + 5 + n + 16 ≤ raw.length)
      (hrest : EntriesIn raw next (index + 5 + n + 16)
        (slice raw (index + 5) n :: known)) : EntriesIn raw next index known

/-- The inode in the record is taken over: if it is a link, its target is
found. -/
def Taken (p : Pool) (raw : Bytes) (index : Nat) (i : Inode) : Prop :=
  (Inode.withLink (Core.ofBytes (raw.drop index))).run Pool.handle p = (.ok i, p)

/-- From `index` on, the files lie in the record: up to the mark, or up to one
that is refused.  Those in `known` have been read. -/
inductive FilesIn (p : Pool) (raw : Bytes) : Nat → List Uuid → Prop
  | mark {index : Nat} {known : List Uuid} (hin : index + 4 ≤ raw.length)
      (hmark : sizeAt raw index = -1) : FilesIn p raw index known
  | lost {index : Nat} {known : List Uuid}
      (hin : index + 4 + regInodeSize ≤ raw.length)
      (hlost : ∀ i, ¬ Taken p raw (index + 4) i) : FilesIn p raw index known
  | again {index : Nat} {known : List Uuid} {i : Inode}
      (hin : index + 4 + regInodeSize ≤ raw.length)
      (htaken : Taken p raw (index + 4) i) (hknown : i.core.ino ∈ known) :
      FilesIn p raw index known
  | file {index next : Nat} {known : List Uuid} {i : Inode}
      (hin : index + 4 + regInodeSize ≤ raw.length)
      (htaken : Taken p raw (index + 4) i)
      (hsize : index + 4 + sizeAt raw index = next)
      (hrest : FilesIn p raw next (i.core.ino :: known)) :
      FilesIn p raw index known

/-- Everything that `deserialize` looks at behind the valid byte lies in the
record. -/
structure SectionsIn (p : Pool) (raw : Bytes) : Prop where
  size : 9 ≤ raw.length
  noSelf : sizeAt raw 5 = -1 → EntriesIn raw (FilesIn p raw · []) 9 []
  self : sizeAt raw 5 ≠ -1 → 9 + regInodeSize ≤ raw.length ∧
    ∀ s, Taken p raw 9 s →
      EntriesIn raw (FilesIn p raw · []) (9 + sizeofInode) []

section Entries

variable {raw : Bytes} {p : Pool} {α : Type} {index n : Nat}

theorem lt_of_mark (hmark : slice raw index 1 = [255]) : index + 1 ≤ raw.length := by
  have hlen := congrArg List.length hmark
  rw [length_slice, List.length_singleton] at hlen
  omega

theorem EntriesIn.lt {next : Nat → Prop} {known : List Name}
    (h : EntriesIn raw next index known) : index < raw.length := by
  cases h with
  | mark hmark => exact lt_of_mark hmark
  | negative _ hin | again _ _ hin | entry _ _ hin => omega

/-- The loop over the entries, whatever comes behind it. -/
theorem readDentries_safe_iff
    {left : Nat} {known : List Name} {dentries : TxDentries}
    {k : Nat × TxDentries → IoProg α} {next : Nat → Prop}
    (hk : ∀ i d, Prog.Safe Pool.handle (k (i, d)) p ↔ next i)
    (hknown : ∀ name, name ∈ known ↔ name ∈ dentries)
    (hleft : raw.length < left + index) :
    Prog.Safe Pool.handle (readDentries raw left index dentries >>= k) p ↔
      EntriesIn raw next index known := by
  induction left generalizing index dentries known with
  | zero =>
      constructor
      · intro h
        exact absurd h (Prog.not_safe_fault _)
      · intro h
        have hlt := h.lt
        omega
  | succ left ih =>
      rw [readDentries, Prog.bind_assoc', safe_bytesAt_iff]
      by_cases hmark : slice raw index 1 = [255]
      · rw [if_pos hmark, Prog.ret_bind, hk]
        constructor
        · rintro ⟨-, hnext⟩
          exact .mark hmark hnext
        · intro h
          cases h with
          | mark _ hnext => exact ⟨lt_of_mark hmark, hnext⟩
          | negative hstat | again hstat | entry hstat => exact absurd hmark hstat
      · rw [if_neg hmark, Prog.bind_assoc', safe_int32At_iff, Prog.bind_assoc',
          safe_stringAt_iff]
        have hname : ∀ size, (slice raw (index + 5) size).length =
            min size (raw.length - (index + 5)) := fun size => length_slice ..
        constructor
        · rintro ⟨-, hin, hstring⟩
          rcases lt_or_ge (sizeAt raw (index + 1)) 0 with hneg | hpos
          · exact .negative hmark hin hneg
          · obtain ⟨n, hsize⟩ := Int.eq_ofNat_of_zero_le hpos
            obtain ⟨hin', hdata⟩ := hstring hpos
            rw [hsize, Int.toNat_natCast] at hin' hdata
            rw [Prog.bind_assoc', safe_bytesAt_iff, hname,
              Nat.min_eq_left (by omega)] at hdata
            obtain ⟨hin'', hrest⟩ := hdata
            split at hrest
            · rename_i hnew
              exact .entry hmark hsize hin'' ((ih (by simp [hknown]) (by omega)).mp
                hrest)
            · rename_i hold
              refine .again hmark hsize hin'' ((hknown _).mpr ?_)
              exact not_imp_comm.mp AList.lookup_eq_none.mpr hold
        · intro h
          have hin : index + 5 ≤ raw.length := by
            cases h with
            | mark hstat => exact absurd hstat hmark
            | negative _ hin => exact hin
            | again _ _ hin | entry _ _ hin => omega
          refine ⟨by omega, hin, ?_⟩
          intro hpos
          cases h with
          | mark hstat => exact absurd hstat hmark
          | negative _ _ hneg => omega
          | @again _ n _ _ hsize hin' hmem =>
              rw [hsize, Int.toNat_natCast, Prog.bind_assoc', safe_bytesAt_iff,
                hname, Nat.min_eq_left (by omega)]
              refine ⟨by omega, hin', ?_⟩
              rw [if_neg fun hnone => AList.lookup_eq_none.mp hnone
                ((hknown _).mp hmem)]
              exact Prog.safe_throw _
          | @entry _ n _ _ hsize hin' hrest =>
              rw [hsize, Int.toNat_natCast, Prog.bind_assoc', safe_bytesAt_iff,
                hname, Nat.min_eq_left (by omega)]
              refine ⟨by omega, hin', ?_⟩
              split
              · exact (ih (by simp [hknown]) (by omega)).mpr hrest
              · exact Prog.safe_throw _

end Entries

section Files

variable {raw : Bytes} {p : Pool} {f : FlatStore} {α : Type} {index : Nat}

theorem safe_withLink (hp : Represents p f) (c : Core) :
    Prog.Safe Pool.handle (Inode.withLink c) p := by
  have hlen := c.linkTargetLen.toNat_lt
  unfold Inode.withLink
  split
  · refine Prog.safe_bind_iff.mpr ⟨hp.safe_read _ _ (le_offEnd ?_), ?_⟩
    · unfold regInodeSize
      omega
    · exact fun _ _ _ => Prog.safe_ret _
  · exact Prog.safe_ret _

/-- The inode in the record, and what is done with it. -/
theorem inode_safe_iff
    (hp : Represents p f) {k : Inode → IoProg α} :
    Prog.Safe Pool.handle (Inode.deserialize (raw.drop index) >>= k) p ↔
      index + regInodeSize ≤ raw.length ∧
        ∀ i, Taken p raw index i → Prog.Safe Pool.handle (k i) p := by
  unfold Inode.deserialize
  rw [List.length_drop]
  split
  · rename_i hout
    constructor
    · intro h
      exact absurd h (Prog.not_safe_fault _)
    · rintro ⟨hin, -⟩
      omega
  · rename_i hin
    have hpool := (Inode.run_withLink (Core.ofBytes (raw.drop index)) p).1
    rw [Prog.safe_bind_iff, and_iff_right (safe_withLink hp _),
      and_iff_right (show index + regInodeSize ≤ raw.length by
        unfold regInodeSize at hin ⊢
        omega)]
    constructor
    · intro h i hi
      exact h i p hi
    · intro h i p' hi
      rw [hi] at hpool
      cases hpool
      exact h i hi

/-- What has been read is refused, and `left` is more than what has not been. -/
structure Visited (p : Pool) (raw : Bytes) (fInodes : FInodes) (left : Nat)
    (visited : Finset Nat) : Prop where
  lt : ∀ v ∈ visited, v < raw.length
  refused : ∀ v ∈ visited, ∀ i, Taken p raw (v + 4) i → i.core.ino ∈ fInodes
  left : raw.length < left + visited.card

theorem Visited.pos
    {fInodes : FInodes} {left : Nat} {visited : Finset Nat}
    (h : Visited p raw fInodes left visited) : 0 < left := by
  have hsub : visited ⊆ Finset.range raw.length :=
    fun v hv => Finset.mem_range.mpr (h.lt v hv)
  have hcard := Finset.card_le_card hsub
  rw [Finset.card_range] at hcard
  have hleft := h.left
  omega

/-- One more file has been read, at an index where none has been read before. -/
theorem Visited.insert
    {fInodes : FInodes} {left : Nat} {visited : Finset Nat} {i : Inode}
    (h : Visited p raw fInodes (left + 1) visited)
    (hin : index < raw.length) (htaken : Taken p raw (index + 4) i)
    (hnew : i.core.ino ∉ fInodes) :
    Visited p raw (fInodes.insert i.core.ino (some i)) left
      (insert index visited) := by
  have hnot : index ∉ visited := fun hmem => hnew (h.refused index hmem i htaken)
  refine ⟨?_, ?_, ?_⟩
  · intro v hv
    rcases Finset.mem_insert.mp hv with rfl | hv
    · exact hin
    · exact h.lt v hv
  · intro v hv j hj
    rw [AList.mem_insert]
    rcases Finset.mem_insert.mp hv with rfl | hv
    · rw [Taken, htaken] at hj
      cases hj
      exact .inl rfl
    · exact .inr (h.refused v hv j hj)
  · rw [Finset.card_insert_of_notMem hnot]
    have hleft := h.left
    omega

/-- The loop over the files. -/
theorem readFInodes_safe_iff
    (hp : Represents p f) {left : Nat} {known : List Uuid} {fInodes : FInodes}
    {visited : Finset Nat} (hknown : ∀ ino, ino ∈ known ↔ ino ∈ fInodes)
    (hvisited : Visited p raw fInodes left visited) :
    Prog.Safe Pool.handle (readFInodes raw left index fInodes) p ↔
      FilesIn p raw index known := by
  induction left generalizing index fInodes known visited with
  | zero => exact absurd hvisited.pos (Nat.lt_irrefl 0)
  | succ left ih =>
      rw [readFInodes, safe_int32At_iff]
      by_cases hmark : sizeAt raw index = -1
      · rw [if_pos hmark]
        constructor
        · rintro ⟨hin, -⟩
          exact .mark hin hmark
        · intro h
          refine ⟨?_, Prog.safe_ret _⟩
          cases h with
          | mark hin => exact hin
          | lost hin | again hin | file hin =>
              unfold regInodeSize at hin
              omega
      · rw [if_neg hmark, inode_safe_iff hp]
        constructor
        · rintro ⟨-, hin, hnext⟩
          by_cases hlost : ∀ i, ¬ Taken p raw (index + 4) i
          · exact .lost hin hlost
          · push Not at hlost
            obtain ⟨i, htaken⟩ := hlost
            by_cases hmem : i.core.ino ∈ fInodes
            · exact .again hin htaken ((hknown _).mpr hmem)
            · have hrest := hnext i htaken
              rw [if_pos (AList.lookup_eq_none.mpr hmem)] at hrest
              split at hrest
              · exact absurd hrest (Prog.not_safe_fault _)
              · rename_i hpos
                obtain ⟨next, hsize⟩ := Int.eq_ofNat_of_zero_le (not_lt.mp hpos)
                rw [hsize, Int.toNat_natCast] at hrest
                exact .file hin htaken hsize ((ih (by simp [hknown])
                  (hvisited.insert (by omega) htaken hmem)).mp hrest)
        · intro h
          have hin : index + 4 + regInodeSize ≤ raw.length := by
            cases h with
            | mark _ hstop => exact absurd hstop hmark
            | lost hin | again hin | file hin => exact hin
          refine ⟨by omega, hin, ?_⟩
          intro i htaken
          split
          · rename_i hnew
            have hmem := AList.lookup_eq_none.mp hnew
            cases h with
            | mark _ hstop => exact absurd hstop hmark
            | lost _ hlost => exact absurd htaken (hlost i)
            | again _ htaken' hmem' =>
                rw [Taken, htaken] at htaken'
                cases htaken'
                exact absurd ((hknown _).mp hmem') hmem
            | file _ htaken' hsize hrest =>
                rw [Taken, htaken] at htaken'
                cases htaken'
                rw [if_neg (by omega), hsize, Int.toNat_natCast]
                exact (ih (by simp [hknown])
                  (hvisited.insert (by omega) htaken hmem)).mpr hrest
          · exact Prog.safe_throw _

end Files

section Sections

variable {raw : Bytes} {p : Pool} {f : FlatStore}

/-- The entries and the files. -/
theorem readLists_safe_iff
    (hp : Represents p f) (index : Nat) (tx : Transaction)
    (hdentries : tx.dentries = ∅) (hfInodes : tx.fInodes = ∅) :
    Prog.Safe Pool.handle (do
        let (index, dentries) ← readDentries raw (raw.length + 1) index tx.dentries
        let fInodes ← readFInodes raw (raw.length + 1) index tx.fInodes
        (Prog.ret (0, { tx with dentries := dentries, fInodes := fInodes }) :
          IoProg (Int × Transaction))) p ↔
      EntriesIn raw (FilesIn p raw · []) index [] := by
  refine readDentries_safe_iff ?_ (by simp [hdentries]) (by omega)
  intro index' dentries
  have hvisited : Visited p raw tx.fInodes (raw.length + 1) ∅ :=
    ⟨by simp, by simp, by simp⟩
  have hnone : ∀ ino, ino ∈ ([] : List Uuid) ↔ ino ∈ tx.fInodes := by
    simp [hfInodes]
  rw [Prog.safe_bind_iff, readFInodes_safe_iff hp hnone hvisited]
  exact and_iff_left fun _ _ _ => Prog.safe_ret _

/-- What `deserialize` needs. -/
theorem deserialize_safe_iff
    (hp : Represents p f) (ino : Uuid) :
    Prog.Safe Pool.handle (deserialize (.new ino) raw) p ↔
      5 ≤ raw.length ∧ (slice raw 4 1 = [0] ∨ SectionsIn p raw) := by
  unfold deserialize
  rw [safe_bytesAt_iff]
  refine and_congr_right fun _ => ?_
  by_cases hvalid : slice raw 4 1 = [0]
  · rw [if_pos hvalid]
    exact ⟨fun _ => .inl hvalid, fun _ => Prog.safe_ret _⟩
  · rw [if_neg hvalid, or_iff_right hvalid]
    unfold readSections readSelf
    rw [Prog.bind_assoc', safe_int32At_iff]
    by_cases hself : sizeAt raw 5 = -1
    · rw [if_pos hself, Prog.ret_bind]
      constructor
      · rintro ⟨hsize, hrest⟩
        exact ⟨hsize, fun _ => (readLists_safe_iff hp 9 (.new ino) rfl rfl).mp hrest,
          fun hne => absurd hself hne⟩
      · rintro ⟨hsize, hrest, -⟩
        exact ⟨hsize, (readLists_safe_iff hp 9 (.new ino) rfl rfl).mpr (hrest hself)⟩
    · rw [if_neg hself, Prog.bind_assoc', inode_safe_iff hp]
      constructor
      · rintro ⟨hsize, hin, hrest⟩
        refine ⟨hsize, fun heq => absurd heq hself, fun _ => ⟨hin, ?_⟩⟩
        intro s hs
        exact (readLists_safe_iff hp _ { Transaction.new ino with sInode := some s }
          rfl rfl).mp (hrest s hs)
      · rintro ⟨hsize, -, hrest⟩
        refine ⟨hsize, (hrest hself).1, ?_⟩
        intro s hs
        exact (readLists_safe_iff hp _ { Transaction.new ino with sInode := some s }
          rfl rfl).mpr ((hrest hself).2 s hs)

end Sections

section Decoded

variable {raw : Bytes} {p p' : Pool}

theorem readOnly_bytesAt (raw : Bytes) (index n : Nat) :
    Prog.ReadOnly Pool.handle (bytesAt raw index n) := by
  unfold bytesAt
  split
  · exact Prog.readOnly_ret _
  · exact Prog.readOnly_fault _

theorem readOnly_int32At (raw : Bytes) (index : Nat) :
    Prog.ReadOnly Pool.handle (int32At raw index) :=
  (readOnly_bytesAt raw index 4).bind fun _ => Prog.readOnly_ret _

theorem readOnly_stringAt (raw : Bytes) (index : Nat) (size : Int) :
    Prog.ReadOnly Pool.handle (stringAt raw index size) := by
  unfold stringAt
  split
  · exact Prog.readOnly_throw _
  · exact readOnly_bytesAt _ _ _

theorem readOnly_inode (value : Bytes) :
    Prog.ReadOnly Pool.handle (Inode.deserialize value) := by
  unfold Inode.deserialize
  split
  · exact Prog.readOnly_fault _
  · exact fun p => (Inode.run_withLink _ p).1

theorem readOnly_readDentries (left index : Nat) (dentries : TxDentries) :
    Prog.ReadOnly Pool.handle (readDentries raw left index dentries) := by
  induction left generalizing index dentries with
  | zero => exact Prog.readOnly_fault _
  | succ left ih =>
      refine (readOnly_bytesAt _ _ _).bind fun stat => ?_
      split
      · exact Prog.readOnly_ret _
      · refine (readOnly_int32At _ _).bind fun size =>
          (readOnly_stringAt _ _ _).bind fun name =>
            (readOnly_bytesAt _ _ _).bind fun data => ?_
        split
        · exact ih _ _
        · exact Prog.readOnly_throw _

theorem readOnly_readFInodes (left index : Nat) (fInodes : FInodes) :
    Prog.ReadOnly Pool.handle (readFInodes raw left index fInodes) := by
  induction left generalizing index fInodes with
  | zero => exact Prog.readOnly_fault _
  | succ left ih =>
      refine (readOnly_int32At _ _).bind fun size => ?_
      split
      · exact Prog.readOnly_ret _
      · refine (readOnly_inode _).bind fun i => ?_
        split
        · split
          · exact Prog.readOnly_fault _
          · exact ih _ _
        · exact Prog.readOnly_throw _

theorem readOnly_readSelf (tx : Transaction) :
    Prog.ReadOnly Pool.handle (readSelf raw tx) := by
  refine (readOnly_int32At _ _).bind fun size => ?_
  split
  · exact Prog.readOnly_ret _
  · exact (readOnly_inode _).bind fun _ => Prog.readOnly_ret _

theorem readOnly_deserialize (tx : Transaction) :
    Prog.ReadOnly Pool.handle (deserialize tx raw) := by
  refine (readOnly_bytesAt _ _ _).bind fun valid => ?_
  split
  · exact Prog.readOnly_ret _
  · exact (readOnly_readSelf tx).bind fun _ =>
      (readOnly_readDentries _ _ _).bind fun _ =>
        (readOnly_readFInodes _ _ _).bind fun _ => Prog.readOnly_ret _

theorem run_readDentries_le
    {left index index' : Nat} {dentries dentries' : TxDentries}
    (hrun : (readDentries raw left index dentries).run Pool.handle p =
      (.ok (index', dentries'), p')) : index' ≤ raw.length := by
  induction left generalizing index dentries p with
  | zero => cases hrun
  | succ left ih =>
      rw [readDentries] at hrun
      obtain ⟨stat, p₁, hstat, hrun⟩ := Prog.run_bind_eq_ok _ hrun
      split at hrun
      · cases hrun
        exact le_of_run_bytesAt hstat
      · obtain ⟨size, p₂, -, hrun⟩ := Prog.run_bind_eq_ok _ hrun
        obtain ⟨name, p₃, -, hrun⟩ := Prog.run_bind_eq_ok _ hrun
        obtain ⟨data, p₄, -, hrun⟩ := Prog.run_bind_eq_ok _ hrun
        split at hrun
        · exact ih hrun
        · cases hrun

/-- A record of a directory that has been decoded. -/
structure Decoded (ino : Uuid) (raw : Bytes) (tx : Transaction) : Prop where
  sIno : tx.sIno = ino
  status : tx.status = .S_UNCHANGED
  size : dentriesSize tx.dentries ≤ raw.length

theorem decoded
    {ino : Uuid} {tx : Transaction}
    (hrun : (deserialize (.new ino) raw).run Pool.handle p = (.ok (0, tx), p')) :
    Decoded ino raw tx := by
  unfold deserialize at hrun
  obtain ⟨valid, p₁, -, hrun⟩ := Prog.run_bind_eq_ok _ hrun
  split at hrun
  · cases hrun
  · unfold readSections at hrun
    obtain ⟨⟨index, tx₁⟩, p₂, hself, hrun⟩ := Prog.run_bind_eq_ok _ hrun
    obtain ⟨⟨index', dentries⟩, p₃, hdentries, hrun⟩ := Prog.run_bind_eq_ok _ hrun
    obtain ⟨fInodes, p₄, -, hrun⟩ := Prog.run_bind_eq_ok _ hrun
    cases hrun
    have hle := run_readDentries_le hdentries
    have hsize := run_readDentries_size hdentries
    have hkept : tx₁.sIno = ino ∧ tx₁.status = .S_UNCHANGED ∧
        dentriesSize tx₁.dentries = 0 := by
      unfold readSelf at hself
      obtain ⟨size, p₅, -, hself⟩ := Prog.run_bind_eq_ok _ hself
      split at hself
      · cases hself
        exact ⟨rfl, rfl, rfl⟩
      · obtain ⟨s, p₆, -, hself⟩ := Prog.run_bind_eq_ok _ hself
        cases hself
        exact ⟨rfl, rfl, rfl⟩
    obtain ⟨hino, hstatus, hempty⟩ := hkept
    refine ⟨hino, hstatus, ?_⟩
    dsimp only at hle hsize ⊢
    omega

end Decoded

end Transaction

end Nmfs
