import Nmfs.Journal.Layout
import Nmfs.Journal.RecordBounds
import Nmfs.Meta.DentryObject
import Nmfs.Meta.InodeObject
import Mathlib.Data.List.Flatten

/-!
# What `sync` needs of the DENTRY object

The replay of a record reads the DENTRY object of the directory.  Its decoder
follows lengths without checking them, too: `sync` goes wrong unless the
children lie in the first `OBJ_SIZE` bytes, or those before one with a length
below -1.  It never goes wrong in what it writes.
-/

namespace Nmfs

open Bytes Buffer

namespace Dentry

/-- From `index` on, `left` children lie in the buffer, or those before one with
a negative length, other than -1. -/
inductive ChildrenIn (raw : Bytes) : Nat → Nat → Prop
  | done {index : Nat} : ChildrenIn raw 0 index
  | negative {left index : Nat} (hin : index + 4 ≤ raw.length)
      (hsize : sizeAt raw index < -1) : ChildrenIn raw (left + 1) index
  | child {left index n : Nat} (hsize : sizeAt raw index = n)
      (hin : index + 4 + n + 16 ≤ raw.length)
      (hrest : ChildrenIn raw left (index + 4 + n + 16)) :
      ChildrenIn raw (left + 1) index

/-- If there is a DENTRY object, then its children lie in what is read of it. -/
def ObjectIn (p : Pool) (ino : Uuid) : Prop :=
  ∀ bl, (RadosIo.read .DENTRY (uuidToString ino) objSize 0).run Pool.handle p =
      (.ok bl, p) →
    ChildrenIn (resize bl objSize) (leNat (slice (resize bl objSize) 0 8)) 8

/-- The bytes that the children take. -/
def childrenSize (l : ChildList) : Nat := (l.entries.flatMap serializeChild).length

section Children

variable {raw : Bytes} {p : Pool} {index : Nat}

theorem readChildren_safe_iff {left : Nat} {l : ChildList} :
    Prog.Safe Pool.handle (readChildren raw left index l) p ↔
      ChildrenIn raw left index := by
  induction left generalizing index l with
  | zero => exact ⟨fun _ => .done, fun _ => Prog.safe_ret _⟩
  | succ left ih =>
      rw [readChildren, safe_int32At_iff]
      rcases lt_or_ge (sizeAt raw index) 0 with hneg | hpos
      · rw [if_pos hneg]
        by_cases hone : sizeAt raw index = -1
        · rw [if_pos hone]
          constructor
          · rintro ⟨-, h⟩
            exact absurd h (Prog.not_safe_fault _)
          · intro h
            cases h with
            | negative _ hsize | child hsize => omega
        · rw [if_neg hone]
          constructor
          · rintro ⟨hin, -⟩
            exact .negative hin (by omega)
          · intro h
            cases h with
            | negative hin => exact ⟨hin, Prog.safe_throw _⟩
            | child hsize => omega
      · obtain ⟨n, hsize⟩ := Int.eq_ofNat_of_zero_le hpos
        rw [if_neg (not_lt.mpr hpos), hsize, Int.toNat_natCast, safe_bytesAt_iff,
          safe_bytesAt_iff, ih]
        constructor
        · rintro ⟨-, -, hin, hrest⟩
          exact .child hsize hin hrest
        · intro h
          cases h with
          | negative _ hneg => omega
          | @child _ _ m hsize' hin hrest =>
              obtain rfl : m = n := by omega
              exact ⟨by omega, by omega, hin, hrest⟩

theorem childrenSize_insert (l : ChildList) (name : Name) (ino : Uuid) :
    childrenSize (l.insert name ino) ≤ childrenSize l + 20 + name.length := by
  have hle := ((List.kerase_sublist name l.entries).flatMap
    serializeChild).length_le
  unfold childrenSize
  rw [AList.entries_insert, List.flatMap_cons, List.length_append,
    length_serializeChild]
  dsimp only
  omega

theorem childrenSize_erase (l : ChildList) (name : Name) :
    childrenSize (l.erase name) ≤ childrenSize l :=
  ((List.kerase_sublist name l.entries).flatMap serializeChild).length_le

theorem length_of_run_bytesAt
    {n : Nat} {b : Bytes} {p' : Pool}
    (hrun : (bytesAt raw index n).run Pool.handle p = (.ok b, p')) :
    p' = p ∧ b.length ≤ n := by
  unfold bytesAt at hrun
  split at hrun
  · cases hrun
    rw [length_slice]
    exact ⟨rfl, Nat.min_le_left ..⟩
  · cases hrun

theorem run_readChildren_snd
    (raw : Bytes) (left index : Nat) (l : ChildList) (p : Pool) :
    ((readChildren raw left index l).run Pool.handle p).2 = p :=
  (Transaction.only_readChildren (P := fun _ => False) raw left index l).run
    (R := fun p p' => p' = p) (fun _ => rfl) (fun _ _ _ h h' => h'.trans h)
    (fun _ _ h => h.elim) p

/-- What is decoded takes no more than what it is decoded from. -/
theorem run_readChildren_size
    {left : Nat} {l l' : ChildList} {p' : Pool}
    (hrun : (readChildren raw left index l).run Pool.handle p = (.ok l', p'))
    (hin : index ≤ raw.length) :
    childrenSize l' + index ≤ childrenSize l + raw.length := by
  induction left generalizing index l p with
  | zero =>
      cases hrun
      omega
  | succ left ih =>
      rw [readChildren] at hrun
      obtain ⟨size, p₁, -, hrun⟩ := Prog.run_bind_eq_ok _ hrun
      split at hrun
      · split at hrun <;> cases hrun
      · obtain ⟨name, p₂, hname, hrun⟩ := Prog.run_bind_eq_ok _ hrun
        obtain ⟨data, p₃, hdata, hrun⟩ := Prog.run_bind_eq_ok _ hrun
        obtain ⟨-, hlen⟩ := length_of_run_bytesAt hname
        have hend := le_of_run_bytesAt hdata
        have hrest := ih hrun hend
        have htake := (List.takeWhile_sublist (l := name) (· ≠ 0)).length_le
        split at hrest
        · have hinsert := childrenSize_insert l (name.takeWhile (· ≠ 0))
            ⟨resize data 16, by simp⟩
          omega
        · omega

end Children

section Objects

variable {p : Pool} {f : FlatStore}

theorem deserialize_safe_iff (d : Dentry) (bl : Bytes) :
    Prog.Safe Pool.handle (deserialize d (resize bl objSize)) p ↔
      ChildrenIn (resize bl objSize) (leNat (slice (resize bl objSize) 0 8)) 8 := by
  have hin : 0 + 8 ≤ (resize bl objSize).length := by
    rw [length_resize, objSize]
    omega
  unfold deserialize
  rw [safe_bytesAt_iff, and_iff_right hin, Prog.safe_bind_iff,
    readChildren_safe_iff]
  exact and_iff_left fun _ _ _ => Prog.safe_ret _

/-- The constructor `dentry(ino)`. -/
theorem load_safe_iff
    (hp : Represents p f) (ino : Uuid) :
    Prog.Safe Pool.handle (load ino false) p ↔ ObjectIn p ino := by
  have hend : 0 + objSize ≤ offEnd := le_offEnd (by rw [objSize]; omega)
  have hpool := RadosIo.run_read_snd .DENTRY (uuidToString ino) objSize 0 p
  unfold load
  rw [if_neg (by simp), Prog.safe_tryCatch_iff, Prog.safe_bind_iff,
    and_iff_right (hp.safe_read _ _ hend)]
  · simp only [deserialize_safe_iff]
    constructor
    · intro h bl hbl
      exact h bl p hbl
    · intro h bl p' hbl
      rw [hbl] at hpool
      cases hpool
      exact h bl hbl
  · rintro (_ | _ | _ | _ | _) s <;> exact Prog.safe_throw _

theorem run_load_size
    {ino : Uuid} {d : Dentry} {p' : Pool}
    (hrun : (load ino false).run Pool.handle p = (.ok d, p')) :
    p' = p ∧ d.thisIno = ino ∧ childrenSize d.childList ≤ objSize := by
  unfold load at hrun
  rw [if_neg (by simp), Prog.run_tryCatch] at hrun
  split at hrun
  · rename_i e p₁ heq
    cases e <;> cases hrun
  · obtain ⟨bl, p₁, hbl, hdec⟩ := Prog.run_bind_eq_ok _ hrun
    unfold deserialize at hdec
    obtain ⟨childNum, p₂, hnum, hdec⟩ := Prog.run_bind_eq_ok _ hdec
    obtain ⟨l, p₃, hread, hdec⟩ := Prog.run_bind_eq_ok _ hdec
    cases hdec
    have hp₁ := RadosIo.run_read_snd .DENTRY (uuidToString ino) objSize 0 p
    rw [hbl] at hp₁
    obtain ⟨hp₂, -⟩ := length_of_run_bytesAt hnum
    have hp₃ := run_readChildren_snd (resize bl objSize) (leNat childNum) 8 ∅ p₂
    rw [hread] at hp₃
    have hsize := run_readChildren_size hread (le_of_run_bytesAt hnum)
    rw [length_resize] at hsize
    refine ⟨hp₃.trans (hp₂.trans hp₁), rfl, ?_⟩
    exact Nat.le_of_add_le_add_right (hsize.trans (by simp [childrenSize]))

/-- The children that have been cut off are looked at. -/
theorem le_of_childrenIn
    {raw rest : Bytes} {l : List ((_ : Name) × Uuid)} {index : Nat}
    (hdrop : raw.drop index =
      (l.flatMap serializeChild ++ rest).take (raw.length - index))
    (hnames : ∀ it ∈ l, it.1.length < 2 ^ 31) (hindex : index ≤ raw.length)
    (h : ChildrenIn raw l.length index) :
    index + (l.flatMap serializeChild).length ≤ raw.length := by
  induction l generalizing index with
  | nil => exact hindex
  | cons it l ih =>
      obtain ⟨name, ino⟩ := it
      have hname := hnames _ List.mem_cons_self
      rw [List.flatMap_cons, List.append_assoc] at hdrop
      have hfour : ∀ hin : index + 4 ≤ raw.length, sizeAt raw index = name.length := by
        intro hin
        have hfront : raw.drop index = leBytes 4 name.length ++ ((name ++ ino.data ++
            (l.flatMap serializeChild ++ rest)).take (raw.length - index - 4)) := by
          rw [hdrop, serializeChild]
          simp only [List.append_assoc, List.take_append, length_leBytes]
          rw [List.take_of_length_le (by rw [length_leBytes]; omega)]
        have hint := int32At_of_drop hfront hname
        unfold int32At at hint
        rw [bytesAt, if_pos hin] at hint
        injection hint
      cases h with
      | negative hin hneg =>
          have hpos := hfour hin
          omega
      | @child _ _ n hsize hin hrest =>
          obtain rfl : n = name.length := by
            have hsame := hfour (by omega)
            omega
          have hlen := length_serializeChild ⟨name, ino⟩
          dsimp only at hlen
          have hnext : raw.drop (index + 4 + name.length + 16) =
              (l.flatMap serializeChild ++ rest).take
                (raw.length - (index + 4 + name.length + 16)) := by
            have hmore := congrArg (List.drop (4 + name.length + 16)) hdrop
            rw [List.drop_drop, List.drop_take, List.drop_left' (by omega)] at hmore
            convert hmore using 2 <;> omega
          have hrest' := ih hnext (fun it hit => hnames it (List.mem_cons_of_mem _ hit))
            hin hrest
          rw [List.flatMap_cons, List.length_append, hlen]
          omega

/-- A directory that does not fit is not read within its object. -/
theorem rawSize_le_of_objectIn
    {ino : Uuid} {d : Dentry} {c : Bytes} (hp : Represents p f)
    (hobj : f .DENTRY (uuidToString ino) = some (overwrite c 0 d.serialize))
    (hcount : d.childList.entries.length < 2 ^ 64)
    (hnames : ∀ it ∈ d.childList.entries, it.1.length < 2 ^ 31)
    (h : ObjectIn p ino) : d.rawSize ≤ objSize := by
  by_contra hlarge
  have hlen := d.length_serialize
  have hcontent : f.content .DENTRY (uuidToString ino) =
      d.serialize ++ c.drop d.serialize.length := by
    rw [FlatStore.content, hobj, Option.getD_some, overwrite_zero]
  have hread := hp.run_read_first .DENTRY (uuidToString ino)
  rw [if_pos (by rw [hobj]; rfl), hcontent] at hread
  have hin := h _ hread
  have hfull : (slice (d.serialize ++ c.drop d.serialize.length) 0 objSize).length =
      objSize := by
    rw [length_slice, List.length_append]
    omega
  rw [resize_of_le hfull.ge, List.take_of_length_le hfull.le] at hin
  generalize hraw : slice (d.serialize ++ c.drop d.serialize.length) 0 objSize = raw
    at hin hfull
  rw [slice, List.drop_zero, serialize, List.append_assoc] at hraw
  have height : (8 : Nat) ≤ objSize := by
    rw [objSize]
    omega
  have hcount' : slice raw 0 8 = leBytes 8 d.childList.entries.length := by
    rw [slice, List.drop_zero, ← hraw, List.take_take, Nat.min_eq_left height,
      List.take_left' (length_leBytes _ _)]
  have hdrop : raw.drop 8 = (d.childList.entries.flatMap serializeChild ++
      c.drop d.serialize.length).take (raw.length - 8) := by
    rw [hfull, ← hraw, List.drop_take, List.drop_left' (length_leBytes _ _), serialize]
  rw [hcount', leNat_leBytes_of_lt (by omega)] at hin
  have hle := le_of_childrenIn hdrop hnames (by omega) hin
  rw [serialize, List.length_append, length_leBytes] at hlen
  omega

end Objects

end Dentry

namespace Transaction

section Writes

variable {p : Pool} {f : FlatStore}

/-- The program returns, in a store again. -/
def Succeeds (q : IoProg Unit) (p : Pool) : Prop :=
  ∃ p' f', q.run Pool.handle p = (.ok (), p') ∧ Represents p' f'

theorem inodeSync_succeeds (hp : Represents p f) (i : Inode) :
    Succeeds i.sync p := by
  obtain ⟨p', hrun, hp'⟩ := Inode.run_sync hp i
  exact ⟨p', _, hrun, hp'⟩

theorem syncSelf_succeeds (hp : Represents p f) (s : Option Inode) :
    Succeeds (syncSelf s) p := by
  cases s with
  | none => exact ⟨p, f, rfl, hp⟩
  | some s => exact inodeSync_succeeds hp s

theorem syncFInodes_succeeds
    (hp : Represents p f) (l : List ((_ : Uuid) × Option Inode)) :
    Succeeds (syncFInodes l) p := by
  induction l generalizing p f with
  | nil => exact ⟨p, f, rfl, hp⟩
  | cons it l ih =>
      obtain ⟨ino, fi⟩ := it
      cases fi with
      | none => exact ih hp
      | some i =>
          obtain ⟨p₁, f₁, hrun, hp₁⟩ := inodeSync_succeeds hp i
          obtain ⟨p₂, f₂, hrest, hp₂⟩ := ih hp₁
          exact ⟨p₂, f₂, by rw [syncFInodes, Prog.run_bind_ok _ hrun, hrest], hp₂⟩

/-- Nothing is longer than the entries of the directory and of the record. -/
theorem syncDentries_size (changes : TxDentries) (d : Dentry) :
    Dentry.childrenSize (syncDentries changes d).childList ≤
      Dentry.childrenSize d.childList + dentriesSize changes := by
  unfold syncDentries dentriesSize
  induction changes.entries generalizing d with
  | nil => exact Nat.le_refl _
  | cons it l ih =>
      rw [List.foldl_cons, List.flatMap_cons, List.length_append,
        length_serializeDentry]
      refine (ih _).trans ?_
      split
      · have hle := Dentry.childrenSize_insert d.childList it.1 it.2.2
        unfold Dentry.addChild
        dsimp only
        omega
      · have hle := Dentry.childrenSize_erase d.childList it.1
        unfold Dentry.deleteChild
        dsimp only
        omega

theorem dentrySync_succeeds
    (hp : Represents p f) {d : Dentry}
    (hsize : Dentry.childrenSize d.childList ≤ 2 ^ 32) : Succeeds d.sync p := by
  have hend : 0 + d.serialize.length ≤ offEnd := by
    refine le_offEnd ?_
    unfold Dentry.childrenSize at hsize
    rw [Dentry.serialize, List.length_append, length_leBytes]
    omega
  obtain ⟨p', hrun, hp'⟩ := hp.run_write .DENTRY (uuidToString d.thisIno) hend
  refine ⟨p', _, ?_, hp'⟩
  rw [Dentry.sync, Prog.run_bind_ok _ hrun]
  rfl

theorem notIn_syncSelf (s : Option Inode) : (syncSelf s).Only (NotIn .DENTRY) := by
  cases s with
  | none => trivial
  | some s =>
      exact ((RadosIo.only_write .INODE _ _ _).mono
        (OnFile.notIn (by decide))).bind fun _ => trivial

/-- The inode of the directory is not in its DENTRY object. -/
theorem objectIn_syncSelf
    (hp : Represents p f) (s : Option Inode) (ino : Uuid) :
    Dentry.ObjectIn ((syncSelf s).run Pool.handle p).2 ino ↔
      Dentry.ObjectIn p ino := by
  obtain ⟨n, hf, -⟩ := hp.file .DENTRY (uuidToString ino)
  have hf' := fileIs_of_only_notIn (notIn_syncSelf s) hf
  have hend : 0 + objSize ≤ offEnd := le_offEnd (by rw [objSize]; omega)
  have hmax := Nat.lt_of_le_of_lt hend offEnd_lt_offMax
  unfold Dentry.ObjectIn
  rw [RadosIo.run_read hf hmax (.inl hend), RadosIo.run_read hf' hmax (.inl hend)]
  simp only [Prod.mk.injEq, and_true]

theorem Succeeds.safe {q : IoProg Unit} (h : Succeeds q p) :
    Prog.Safe Pool.handle q p := by
  obtain ⟨p', f', hrun, -⟩ := h
  exact Prog.safe_of_ok hrun

/-- What comes behind the reading of the DENTRY object. -/
theorem syncRest_succeeds
    (hp : Represents p f) {tx : Transaction} {d : Dentry}
    (hsize : dentriesSize tx.dentries ≤ 2 ^ 31)
    (hd : Dentry.childrenSize d.childList ≤ objSize) :
    Succeeds (do
      let _ ← (syncDentries tx.dentries d).sync
      syncFInodes tx.fInodes.entries) p := by
  have hle := syncDentries_size tx.dentries d
  rw [objSize] at hd
  obtain ⟨p₁, f₁, hrun, hp₁⟩ := dentrySync_succeeds hp
    (d := syncDentries tx.dentries d) (by omega)
  obtain ⟨p₂, f₂, hrest, hp₂⟩ := syncFInodes_succeeds hp₁ tx.fInodes.entries
  exact ⟨p₂, f₂, by rw [Prog.run_bind_ok _ hrun, hrest], hp₂⟩

variable {tx : Transaction}

/-- What the replay of a record needs.  If it returns, it leaves a store. -/
theorem sync_safe_iff
    (hp : Represents p f) (hstatus : tx.status = .S_UNCHANGED)
    (hsize : dentriesSize tx.dentries ≤ 2 ^ 31) :
    (Prog.Safe Pool.handle tx.sync p ↔ Dentry.ObjectIn p tx.sIno) ∧
      ∀ p', tx.sync.run Pool.handle p = (.ok (), p') →
        ∃ f', Represents p' f' := by
  obtain ⟨p₁, f₁, hself, hp₁⟩ := syncSelf_succeeds hp tx.sInode
  have hobject := objectIn_syncSelf hp tx.sInode tx.sIno
  rw [hself] at hobject
  have hload : decide (tx.status = .S_CREATED) = false := by
    rw [hstatus]
    rfl
  unfold sync
  rw [if_neg (by rw [hstatus]; nofun), hload, Prog.safe_bind_of_ok hself,
    Prog.run_bind_ok _ hself]
  constructor
  · rw [Prog.safe_bind_iff, Dentry.load_safe_iff hp₁, hobject]
    refine and_iff_left ?_
    intro d p₂ hd
    obtain ⟨rfl, -, hsize'⟩ := Dentry.run_load_size hd
    exact (syncRest_succeeds hp₁ hsize hsize').safe
  · intro p' hrun
    obtain ⟨d, p₂, hd, hrest⟩ := Prog.run_bind_eq_ok _ hrun
    obtain ⟨rfl, -, hsize'⟩ := Dentry.run_load_size hd
    obtain ⟨p₃, f₃, hrest', hp₃⟩ := syncRest_succeeds hp₁ hsize hsize'
    rw [hrest'] at hrest
    cases hrest
    exact ⟨f₃, hp₃⟩

end Writes

end Transaction

end Nmfs
