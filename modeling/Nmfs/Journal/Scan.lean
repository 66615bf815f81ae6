import Nmfs.Journal.Objects
import Nmfs.Journal.RecordBounds
import Nmfs.Journal.SyncBounds

/-!
# The scan of a JOURNAL object

`check` reads the JOURNAL object of a directory into a buffer of `OBJ_SIZE`
bytes and replays one record after the other.  The size in front of a record is
not compared with anything: neither with the bytes that have been read, nor with
what `deserialize` looks at in any case.

`check_safe_iff` says which objects are scanned safely: those where every record
that the scan comes to is complete, up to one that is refused.  The buffer is
filled once.  So what lies behind its size is never looked at, and a longer object
is replayed as a whole only as far as this: one of the records must be refused.
-/

namespace Nmfs

open Bytes Buffer

namespace Journal

/-- `journal_table::delete_entry` -/
def deleteEntry (j : Journal) (ino : Uuid) : Journal where
  map := j.map.erase ino
  log := j.log
  owner := j.owner_erase ino

def notImplemented : Exn :=
  .runtimeError "journal::check() failed (not implemented yet)"

/-- The loop of `check`, over the first `objSize` bytes of `value`; `left` bounds
its iterations, since a record has a size byte at least. -/
def scan (selfIno : Uuid) (value : Bytes) (objSize : Nat) :
    (left index : Nat) → IoProg Unit
  | 0, _ => .fault .divergence
  | left + 1, index =>
    if index < objSize then do
      let txSize ← int32At value index
      if txSize < 0 then
        -- the vector is made from a range that ends before it begins
        Prog.fault .undefinedBehaviour
      else do
        let raw ← bytesAt value index txSize.toNat
        let (ret, tx) ← Transaction.deserialize (.new selfIno) raw
        if ret = 0 then do
          let _ ← tx.sync
          scan selfIno value objSize left (index + txSize.toNat)
        else Prog.throw notImplemented
    else .ret ()

/-- `check` with the bytes that have been read in a buffer. -/
def checkIn (buffer : Bytes → Bytes) (selfIno : Uuid) : IoProg Unit := do
  let bl ← RadosIo.read .JOURNAL (uuidToString selfIno) objSize 0
  scan selfIno (buffer bl) bl.length (bl.length + 1) 0

/-- What `check` does to the journal table, and in the store. -/
def check (j : Journal) (selfIno : Uuid) : Journal × IoProg Unit :=
  (j.deleteEntry selfIno, checkIn (fun bl => resize bl objSize) selfIno)

/-- The record is decoded. -/
def Decodes (ino : Uuid) (p : Pool) (raw : Bytes) (tx : Transaction) : Prop :=
  (Transaction.deserialize (.new ino) raw).run Pool.handle p = (.ok (0, tx), p)

/-- The record is decoded and its changes are made. -/
def Replayed (ino : Uuid) (p : Pool) (raw : Bytes) (p' : Pool) : Prop :=
  ∃ tx, Decodes ino p raw tx ∧ tx.sync.run Pool.handle p = (.ok (), p')

/-- All records, with nothing between or behind them, are replayed in order. -/
inductive Replays (ino : Uuid) : Pool → Bytes → Pool → Prop
  | done (p : Pool) : Replays ino p [] p
  | record {p p₁ p' : Pool} {raw rest : Bytes}
      (hsize : sizeAt raw 0 = raw.length) (hrecord : Replayed ino p raw p₁)
      (hrest : Replays ino p₁ rest p') : Replays ino p (raw ++ rest) p'

/-- Every record that the scan comes to is complete: it has the size that it says,
and is invalid, or everything that is looked at lies in it.  A record that is
decoded finds a DENTRY object in the same state. -/
inductive RecordsIn (ino : Uuid) : Pool → Bytes → Prop
  | done {p : Pool} : RecordsIn ino p []
  | invalid {p : Pool} {raw rest : Bytes} (hsize : sizeAt raw 0 = raw.length)
      (hin : 5 ≤ raw.length) (hvalid : slice raw 4 1 = [0]) :
      RecordsIn ino p (raw ++ rest)
  | record {p : Pool} {raw rest : Bytes} (hsize : sizeAt raw 0 = raw.length)
      (hin : Transaction.SectionsIn p raw)
      (hobject : ∀ tx, Decodes ino p raw tx → Dentry.ObjectIn p ino)
      (hrest : ∀ p', Replayed ino p raw p' → RecordsIn ino p' rest) :
      RecordsIn ino p (raw ++ rest)

/-- A record is refused, or its changes cannot be made, when those before it have
been replayed. -/
inductive Stops (ino : Uuid) : Pool → Bytes → Prop
  | here {p : Pool} {raw rest : Bytes} (hsize : sizeAt raw 0 = raw.length)
      (hin : 5 ≤ raw.length) (hstop : ∀ p', ¬ Replayed ino p raw p') :
      Stops ino p (raw ++ rest)
  | later {p p₁ : Pool} {raw rest : Bytes} (hsize : sizeAt raw 0 = raw.length)
      (hrecord : Replayed ino p raw p₁) (hrest : Stops ino p₁ rest) :
      Stops ino p (raw ++ rest)

/-- `check` looks at no byte that it has not read from the object, whose content
is `c`: nothing goes wrong even if the buffer ends with these.  And it throws, or
has read the whole object and replayed all of its records. -/
structure ScansSafely {σ : Type} (L : Librados σ) (j : Journal) (ino : Uuid) (s : σ)
    (c : Bytes) : Prop where
  within : Prog.Safe L.call (checkIn id ino) s
  outcome : (∃ e s', (j.check ino).2.run L.call s = (.throws e, s')) ∨
    ∃ s₁ s', (RadosIo.read .JOURNAL (uuidToString ino) objSize 0).run
        L.call s = (.ok c, s₁) ∧
      (j.check ino).2.run L.call s = (.ok (), s') ∧
      Replays ino (L.objects s) c (L.objects s')

section Buffers

variable {bl pad : Bytes} {index n : Nat}

theorem bytesAt_append (hin : index + n ≤ bl.length) :
    bytesAt (bl ++ pad) index n = bytesAt bl index n := by
  unfold bytesAt
  rw [if_pos hin, if_pos (by rw [List.length_append]; omega)]
  unfold slice
  rw [List.drop_append_of_le_length (by omega),
    List.take_append_of_le_length (by rw [List.length_drop]; omega)]

theorem int32At_of_le {raw : Bytes} (hin : index + 4 ≤ raw.length) :
    int32At raw index = .ret (sizeAt raw index) := by
  unfold int32At bytesAt
  rw [if_pos hin]
  rfl

theorem bytesAt_of_le {raw : Bytes} (hin : index + n ≤ raw.length) :
    bytesAt raw index n = .ret (slice raw index n) := by
  unfold bytesAt
  rw [if_pos hin]

theorem run_bytesAt
    {raw b : Bytes} {p p' : Pool}
    (hrun : (bytesAt raw index n).run Pool.handle p = (.ok b, p')) :
    b = slice raw index n ∧ p' = p ∧ index + n ≤ raw.length := by
  have hin := le_of_run_bytesAt hrun
  rw [bytesAt_of_le hin] at hrun
  cases hrun
  exact ⟨rfl, rfl, hin⟩

theorem run_int32At
    {raw : Bytes} {size : Int} {p p' : Pool}
    (hrun : (int32At raw index).run Pool.handle p = (.ok size, p')) :
    size = sizeAt raw index ∧ p' = p ∧ index + 4 ≤ raw.length := by
  obtain ⟨b, p₁, hb, hsize⟩ := Prog.run_bind_eq_ok _ hrun
  obtain ⟨rfl, rfl, hin⟩ := run_bytesAt hb
  cases hsize
  exact ⟨rfl, rfl, hin⟩

theorem int32At_append (hin : index + 4 ≤ bl.length) :
    int32At (bl ++ pad) index = int32At bl index := by
  unfold int32At
  rw [bytesAt_append hin]

/-- What lies behind the bytes that have been read does not matter, as long as
the scan stays within them. -/
theorem run_scan_append
    {ino : Uuid} {size left : Nat} {p : Pool}
    (hsafe : Prog.Safe Pool.handle (scan ino bl size left index) p) :
    (scan ino (bl ++ pad) size left index).run Pool.handle p =
      (scan ino bl size left index).run Pool.handle p := by
  induction left generalizing index p with
  | zero => rfl
  | succ left ih =>
      rw [scan] at hsafe
      rw [scan, scan]
      split at hsafe
      · rename_i hlt
        obtain ⟨hin, hsafe⟩ := safe_int32At_iff.mp hsafe
        rw [if_pos hlt, if_pos hlt, int32At_append hin, int32At_of_le hin,
          Prog.ret_bind, Prog.ret_bind]
        split at hsafe
        · exact absurd hsafe (Prog.not_safe_fault _)
        · rename_i hpos
          obtain ⟨hin', hsafe⟩ := safe_bytesAt_iff.mp hsafe
          rw [if_neg hpos, if_neg hpos, bytesAt_append hin', bytesAt_of_le hin',
            Prog.ret_bind, Prog.ret_bind]
          refine Prog.run_bind_congr ?_
          rintro ⟨ret, tx⟩ p₁ hdec
          have hnext := (Prog.safe_bind_iff.mp hsafe).2 (ret, tx) p₁ hdec
          dsimp only at hnext ⊢
          split at hnext
          · rename_i hret
            rw [if_pos hret, if_pos hret]
            refine Prog.run_bind_congr ?_
            intro _ p₂ hsync
            exact ih ((Prog.safe_bind_iff.mp hnext).2 _ p₂ hsync)
          · rename_i hret
            rw [if_neg hret, if_neg hret]
      · rename_i hge
        rw [if_neg hge, if_neg hge]

end Buffers

section Scan

variable {ino : Uuid} {p : Pool} {f : FlatStore} {bl : Bytes} {index left : Nat}

/-- A record is cut off at the front. -/
theorem drop_eq_record {n : Nat} :
    bl.drop index = slice bl index n ++ bl.drop (index + n) := by
  unfold slice
  rw [← List.drop_drop, List.take_append_drop]

theorem sizeAt_slice {n : Nat} (hn : 4 ≤ n) :
    sizeAt (slice bl index n) 0 = sizeAt bl index := by
  unfold sizeAt
  rw [slice_slice bl (by omega), Nat.add_zero]

/-- The record at the front of what is left. -/
theorem slice_of_drop
    {raw rest : Bytes} (h : bl.drop index = raw ++ rest) :
    slice bl index raw.length = raw ∧ bl.drop (index + raw.length) = rest := by
  unfold slice
  rw [← List.drop_drop, h]
  exact ⟨List.take_left, List.drop_left⟩

theorem Replayed.represents
    {raw : Bytes} {p' : Pool} (hp : Represents p f) (hlen : raw.length ≤ 2 ^ 31)
    (h : Replayed ino p raw p') : ∃ f', Represents p' f' := by
  obtain ⟨tx, hdec, hsync⟩ := h
  have hdecoded := Transaction.decoded hdec
  exact (Transaction.sync_safe_iff hp hdecoded.status
    (hdecoded.size.trans hlen)).2 p' hsync

/-- What one iteration does with a record. -/
theorem record_safe_iff
    {raw : Bytes} {next : IoProg Unit} (hp : Represents p f)
    (hlen : raw.length ≤ 2 ^ 31) :
    Prog.Safe Pool.handle (do
        let (ret, tx) ← Transaction.deserialize (.new ino) raw
        if ret = 0 then do
          let _ ← tx.sync
          next
        else Prog.throw notImplemented) p ↔
      5 ≤ raw.length ∧ (slice raw 4 1 = [0] ∨ Transaction.SectionsIn p raw) ∧
        (∀ tx, Decodes ino p raw tx → Dentry.ObjectIn p ino) ∧
        ∀ p', Replayed ino p raw p' → Prog.Safe Pool.handle next p' := by
  have hsync : ∀ tx, Decodes ino p raw tx →
      (Prog.Safe Pool.handle tx.sync p ↔ Dentry.ObjectIn p ino) := by
    intro tx hdec
    have hdecoded := Transaction.decoded hdec
    rw [(Transaction.sync_safe_iff hp hdecoded.status
      (hdecoded.size.trans hlen)).1, hdecoded.sIno]
  rw [Prog.safe_bind_iff, Transaction.deserialize_safe_iff hp, and_assoc]
  refine and_congr_right fun _ => and_congr_right fun _ => ?_
  constructor
  · intro h
    have hdone : ∀ tx, Decodes ino p raw tx → Prog.Safe Pool.handle (do
        let _ ← tx.sync
        next) p := by
      intro tx hdec
      have hbranch := h (0, tx) p hdec
      dsimp only at hbranch
      rwa [if_pos rfl] at hbranch
    constructor
    · intro tx hdec
      exact (hsync tx hdec).mp (Prog.safe_bind_iff.mp (hdone tx hdec)).1
    · rintro p' ⟨tx, hdec, hrun⟩
      exact (Prog.safe_bind_iff.mp (hdone tx hdec)).2 () p' hrun
  · rintro ⟨hobject, hnext⟩ ⟨ret, tx⟩ p₁ hdec
    cases (Transaction.readOnly_deserialize _).eq hdec
    dsimp only
    split
    · rename_i hret
      subst hret
      refine Prog.safe_bind_iff.mpr ⟨(hsync tx hdec).mpr (hobject tx hdec), ?_⟩
      exact fun _ p' hrun => hnext p' ⟨tx, hdec, hrun⟩
    · exact Prog.safe_throw _

/-- An invalid record is not decoded. -/
theorem not_decodes
    {raw : Bytes} {tx : Transaction} (hin : 5 ≤ raw.length)
    (hvalid : slice raw 4 1 = [0]) : ¬ Decodes ino p raw tx := by
  intro hdec
  unfold Decodes Transaction.deserialize at hdec
  rw [bytesAt_of_le hin, Prog.ret_bind, if_pos hvalid] at hdec
  cases hdec

/-- The first record, if anything is left. -/
theorem RecordsIn.first
    {b : Bytes} (h : RecordsIn ino p b) (hne : b ≠ []) :
    ∃ raw rest, b = raw ++ rest ∧ sizeAt raw 0 = raw.length ∧ 5 ≤ raw.length ∧
      (slice raw 4 1 = [0] ∨ Transaction.SectionsIn p raw) ∧
      (∀ tx, Decodes ino p raw tx → Dentry.ObjectIn p ino) ∧
      ∀ p', Replayed ino p raw p' → RecordsIn ino p' rest := by
  cases h with
  | done => exact absurd rfl hne
  | @invalid _ raw rest hsize hin hvalid =>
      refine ⟨raw, rest, rfl, hsize, hin, .inl hvalid, ?_, ?_⟩
      · exact fun tx hdec => absurd hdec (not_decodes hin hvalid)
      · rintro p' ⟨tx, hdec, -⟩
        exact absurd hdec (not_decodes hin hvalid)
  | @record _ raw rest hsize hin hobject hrest =>
      have hnine := hin.size
      exact ⟨raw, rest, rfl, hsize, by omega, .inr hin, hobject, hrest⟩

/-- The loop, from `index` on. -/
theorem scan_safe_iff
    (hp : Represents p f) (hbl : bl.length ≤ 2 ^ 31) (hindex : index ≤ bl.length)
    (hleft : bl.length < left + index) :
    Prog.Safe Pool.handle (scan ino bl bl.length left index) p ↔
      RecordsIn ino p (bl.drop index) := by
  induction left generalizing index p f with
  | zero => omega
  | succ left ih =>
      rw [scan]
      rcases hindex.eq_or_lt with rfl | hlt
      · rw [if_neg (Nat.lt_irrefl _), List.drop_length]
        exact ⟨fun _ => .done, fun _ => Prog.safe_ret _⟩
      · rw [if_pos hlt, safe_int32At_iff]
        constructor
        · rintro ⟨hin, h⟩
          split at h
          · exact absurd h (Prog.not_safe_fault _)
          · rename_i hpos
            obtain ⟨n, hn⟩ := Int.eq_ofNat_of_zero_le (not_lt.mp hpos)
            rw [hn, Int.toNat_natCast] at h
            obtain ⟨hin', h⟩ := safe_bytesAt_iff.mp h
            have hlen : (slice bl index n).length = n := by
              rw [length_slice, Nat.min_eq_left (by omega)]
            obtain ⟨hfive, hparts, hobject, hnext⟩ :=
              (record_safe_iff hp (by omega)).mp h
            have hsize : sizeAt (slice bl index n) 0 =
                (slice bl index n).length := by
              rw [hlen] at hfive ⊢
              rw [sizeAt_slice (by omega), hn]
            rw [drop_eq_record (n := n)]
            rcases hparts with hvalid | hsections
            · exact .invalid hsize hfive hvalid
            · refine .record hsize hsections hobject ?_
              intro p' hreplayed
              obtain ⟨f', hp'⟩ := hreplayed.represents hp (by omega)
              exact (ih hp' (by omega) (by omega)).mp (hnext p' hreplayed)
        · intro h
          obtain ⟨raw, rest, hdrop, hsize, hfive, hparts, hobject, hrest⟩ :=
            h.first (by
              rw [ne_eq, List.drop_eq_nil_iff]
              omega)
          obtain ⟨hraw, hback⟩ := slice_of_drop hdrop
          have hlen := congrArg List.length hdrop
          rw [List.length_drop, List.length_append] at hlen
          have hn : sizeAt bl index = raw.length := by
            rw [← hsize, ← sizeAt_slice (n := raw.length) (by omega), hraw]
          refine ⟨by omega, ?_⟩
          rw [hn, if_neg (by omega), Int.toNat_natCast, safe_bytesAt_iff, hraw]
          refine ⟨by omega, (record_safe_iff hp (by omega)).mpr
            ⟨hfive, hparts, hobject, ?_⟩⟩
          intro p' hreplayed
          obtain ⟨f', hp'⟩ := hreplayed.represents hp (by omega)
          refine (ih hp' (by omega) (by omega)).mpr ?_
          rw [hback]
          exact hrest p' hreplayed

theorem le_of_decodes
    {raw : Bytes} {tx : Transaction} (hdec : Decodes ino p raw tx) :
    5 ≤ raw.length := by
  obtain ⟨valid, p₁, hvalid, -⟩ := Prog.run_bind_eq_ok _ hdec
  exact le_of_run_bytesAt hvalid

/-- If the loop returns, it has replayed everything. -/
theorem replays_of_scan
    {p' : Pool} (hindex : index ≤ bl.length)
    (hrun : (scan ino bl bl.length left index).run Pool.handle p = (.ok (), p')) :
    Replays ino p (bl.drop index) p' := by
  induction left generalizing index p with
  | zero => cases hrun
  | succ left ih =>
      rw [scan] at hrun
      rcases hindex.eq_or_lt with rfl | hlt
      · rw [if_neg (Nat.lt_irrefl _)] at hrun
        cases hrun
        rw [List.drop_length]
        exact .done p'
      · rw [if_pos hlt] at hrun
        obtain ⟨txSize, p₁, hint, hbody⟩ := Prog.run_bind_eq_ok _ hrun
        obtain ⟨rfl, rfl, hin⟩ := run_int32At hint
        split at hbody
        · cases hbody
        · rename_i hpos
          obtain ⟨n, hn⟩ := Int.eq_ofNat_of_zero_le (not_lt.mp hpos)
          rw [hn, Int.toNat_natCast] at hbody
          obtain ⟨raw, p₂, hraw, hrecord⟩ := Prog.run_bind_eq_ok _ hbody
          obtain ⟨rfl, rfl, hin'⟩ := run_bytesAt hraw
          obtain ⟨⟨ret, tx⟩, p₃, hdec, hnext⟩ := Prog.run_bind_eq_ok _ hrecord
          obtain rfl := (Transaction.readOnly_deserialize _).eq hdec
          dsimp only at hnext
          split at hnext
          · rename_i hret
            subst hret
            obtain ⟨_, p₄, hsync, hrest⟩ := Prog.run_bind_eq_ok _ hnext
            have hlen : (slice bl index n).length = n := by
              rw [length_slice, Nat.min_eq_left (by omega)]
            have hfive := le_of_decodes hdec
            rw [drop_eq_record (n := n)]
            refine .record ?_ ⟨tx, hdec, hsync⟩ (ih (by omega) hrest)
            rw [hlen] at hfive ⊢
            rw [sizeAt_slice (by omega), hn]
          · cases hnext

theorem Replayed.le_length
    {raw : Bytes} {p' : Pool} (h : Replayed ino p raw p') : 5 ≤ raw.length := by
  obtain ⟨tx, hdec, -⟩ := h
  exact le_of_decodes hdec

/-- If everything can be replayed, the loop returns. -/
theorem scan_of_replays
    {b : Bytes} {p' : Pool} (h : Replays ino p b p') (hdrop : bl.drop index = b)
    (hindex : index ≤ bl.length) (hleft : bl.length < left + index) :
    (scan ino bl bl.length left index).run Pool.handle p = (.ok (), p') := by
  induction h generalizing index left with
  | done p =>
      rw [List.drop_eq_nil_iff] at hdrop
      cases left with
      | zero => omega
      | succ left =>
          rw [scan, if_neg (by omega)]
          rfl
  | @record p p₁ p' raw rest hsize hrecord hrest ih =>
      have hfive := hrecord.le_length
      obtain ⟨hraw, hback⟩ := slice_of_drop hdrop
      have hlen := congrArg List.length hdrop
      rw [List.length_drop, List.length_append] at hlen
      have hn : sizeAt bl index = raw.length := by
        rw [← hsize, ← sizeAt_slice (n := raw.length) (by omega), hraw]
      obtain ⟨tx, hdec, hsync⟩ := hrecord
      cases left with
      | zero => omega
      | succ left =>
          rw [scan, if_pos (by omega), int32At_of_le (by omega), Prog.ret_bind, hn,
            if_neg (by omega), Int.toNat_natCast, bytesAt_of_le (by omega),
            Prog.ret_bind, hraw, Prog.run_bind_ok _ hdec]
          dsimp only
          rw [if_pos rfl, Prog.run_bind_ok _ hsync]
          exact ih hback (by omega) (by omega)

theorem sizeAt_append {raw rest : Bytes} (hin : 4 ≤ raw.length) :
    sizeAt (raw ++ rest) 0 = sizeAt raw 0 := by
  unfold sizeAt slice
  rw [List.drop_zero, List.drop_zero, List.take_append_of_le_length hin]

/-- The records are those that the sizes say. -/
theorem record_unique
    {raw rest raw' rest' : Bytes} (heq : raw ++ rest = raw' ++ rest')
    (hsize : sizeAt raw 0 = raw.length) (hin : 4 ≤ raw.length)
    (hsize' : sizeAt raw' 0 = raw'.length) (hin' : 4 ≤ raw'.length) :
    raw = raw' ∧ rest = rest' := by
  have hlen : raw.length = raw'.length := by
    have hsizes : sizeAt raw 0 = sizeAt raw' 0 := by
      rw [← sizeAt_append hin, heq, sizeAt_append hin']
    omega
  exact List.append_inj heq hlen

theorem Replayed.unique
    {raw : Bytes} {p₁ p₂ : Pool} (h : Replayed ino p raw p₁)
    (h' : Replayed ino p raw p₂) : p₁ = p₂ := by
  obtain ⟨tx, hdec, hsync⟩ := h
  obtain ⟨tx', hdec', hsync'⟩ := h'
  unfold Decodes at hdec hdec'
  rw [hdec] at hdec'
  cases hdec'
  rw [hsync] at hsync'
  cases hsync'
  rfl

theorem Stops.not_replays
    {b : Bytes} (h : Stops ino p b) (p' : Pool) : ¬ Replays ino p b p' := by
  intro hreplays
  induction h with
  | @here p raw rest hsize hin hstop =>
      generalize hb : raw ++ rest = b at hreplays
      cases hreplays with
      | done =>
          rw [List.append_eq_nil_iff] at hb
          rw [hb.1] at hin
          exact absurd hin (by decide)
      | @record _ p₁ _ raw' rest' hsize' hrecord hrest =>
          obtain ⟨rfl, rfl⟩ := record_unique hb hsize (by omega) hsize'
            (Nat.le_of_succ_le hrecord.le_length)
          exact hstop p₁ hrecord
  | @later p p₁ raw rest hsize hrecord hrest ih =>
      generalize hb : raw ++ rest = b at hreplays
      have hin := hrecord.le_length
      cases hreplays with
      | done =>
          rw [List.append_eq_nil_iff] at hb
          rw [hb.1] at hin
          exact absurd hin (by decide)
      | @record _ p₂ _ raw' rest' hsize' hrecord' hrest' =>
          obtain ⟨rfl, rfl⟩ := record_unique hb hsize (by omega) hsize'
            (Nat.le_of_succ_le hrecord'.le_length)
          obtain rfl := hrecord.unique hrecord'
          exact ih hrest'

/-- Complete records are all replayed, unless one stops the scan. -/
theorem RecordsIn.replays_or_stops
    {b : Bytes} (h : RecordsIn ino p b) :
    (∃ p', Replays ino p b p') ∨ Stops ino p b := by
  induction h with
  | @done p => exact .inl ⟨p, .done p⟩
  | @invalid p raw rest hsize hin hvalid =>
      refine .inr (.here hsize hin ?_)
      rintro p' ⟨tx, hdec, -⟩
      exact not_decodes hin hvalid hdec
  | @record p raw rest hsize hin hobject hrest ih =>
      by_cases hrecord : ∃ p₁, Replayed ino p raw p₁
      · obtain ⟨p₁, hp₁⟩ := hrecord
        rcases ih p₁ hp₁ with ⟨p', hreplays⟩ | hstops
        · exact .inl ⟨p', .record hsize hp₁ hreplays⟩
        · exact .inr (.later hsize hp₁ hstops)
      · have hnine := hin.size
        exact .inr (.here hsize (by omega) fun p' hp' => hrecord ⟨p', hp'⟩)

end Scan

section Check

variable {ino : Uuid} {p : Pool} {f : FlatStore}

/-- The buffer has room for what is read. -/
theorem read_length
    {bl : Bytes} (hp : Represents p f)
    (hread : (RadosIo.read .JOURNAL (uuidToString ino) objSize 0).run
      Pool.handle p = (.ok bl, p)) : bl.length ≤ objSize := by
  rw [hp.run_read_first] at hread
  split at hread
  · cases hread
    rw [length_slice]
    exact Nat.min_le_left ..
  · cases hread

/-- What is read of an object that fits into the buffer is all of it. -/
theorem read_whole
    {bl : Bytes} (hp : Represents p f)
    (hread : (RadosIo.read .JOURNAL (uuidToString ino) objSize 0).run
      Pool.handle p = (.ok bl, p))
    (hlen : (f.content .JOURNAL (uuidToString ino)).length ≤ objSize) :
    bl = f.content .JOURNAL (uuidToString ino) := by
  rw [hp.run_read_first] at hread
  split at hread
  · cases hread
    rw [slice, List.drop_zero, List.take_of_length_le hlen]
  · cases hread

/-- The loop, over what has been read. -/
theorem scan_read_safe_iff
    {bl : Bytes} (hp : Represents p f)
    (hread : (RadosIo.read .JOURNAL (uuidToString ino) objSize 0).run
      Pool.handle p = (.ok bl, p)) :
    Prog.Safe Pool.handle (scan ino bl bl.length (bl.length + 1) 0) p ↔
      RecordsIn ino p bl := by
  have hlen := read_length hp hread
  rw [objSize] at hlen
  exact scan_safe_iff hp (by omega) (Nat.zero_le _) (by omega)

/-- The rest of the buffer does not matter to complete records. -/
theorem run_check
    {bl : Bytes} (hp : Represents p f) (j : Journal)
    (hread : (RadosIo.read .JOURNAL (uuidToString ino) objSize 0).run
      Pool.handle p = (.ok bl, p)) (hrecords : RecordsIn ino p bl) :
    (j.check ino).2.run Pool.handle p =
      (scan ino bl bl.length (bl.length + 1) 0).run Pool.handle p := by
  unfold check checkIn
  rw [Prog.run_bind_ok _ hread]
  dsimp only
  rw [resize_of_ge (read_length hp hread)]
  exact run_scan_append ((scan_read_safe_iff hp hread).mpr hrecords)

/-- **Safety of the scan.** `check` reads nothing but what it has read from the
object, ends, and replays all records of the object or throws, exactly if every
record that it comes to is complete, and the object fits into the buffer or one of
the records stops the scan. -/
theorem check_safe_iff
    {σ : Type} (L : Librados σ) {s : σ} (hs : Represents (L.objects s) f) (j : Journal)
    (ino : Uuid) :
    ScansSafely L j ino s (f.content .JOURNAL (uuidToString ino)) ↔
      ∀ bl s₁, (RadosIo.read .JOURNAL (uuidToString ino) objSize 0).run
          L.call s = (.ok bl, s₁) → RecordsIn ino (L.objects s) bl ∧
        ((f.content .JOURNAL (uuidToString ino)).length ≤ objSize ∨
          Stops ino (L.objects s) bl) := by
  have hend : 0 + objSize ≤ offEnd := le_offEnd (by rw [objSize]; omega)
  have hread := hs.safe_read .JOURNAL (uuidToString ino) hend
  have hpool := RadosIo.run_read_snd .JOURNAL (uuidToString ino) objSize 0 (L.objects s)
  -- the read leaves the objects alone
  have hsame : ∀ {o s₁}, (RadosIo.read .JOURNAL (uuidToString ino) objSize 0).run
      L.call s = (o, s₁) → (RadosIo.read .JOURNAL (uuidToString ino) objSize 0).run
        Pool.handle (L.objects s) = (o, L.objects s) := by
    intro o s₁ hrun
    have hobjects := L.run_objects hrun
    rw [hobjects] at hpool
    rwa [show L.objects s₁ = L.objects s from hpool] at hobjects
  constructor
  · rintro ⟨hwithin, houtcome⟩ bl s₁ hrun
    have hbl := hsame hrun
    have hrecords := (scan_read_safe_iff hs hbl).mp
      ((Prog.safe_bind_iff.mp (L.safe_iff.mp hwithin)).2 bl _ hbl)
    refine ⟨hrecords, ?_⟩
    rcases houtcome with ⟨e, s', hthrows⟩ | ⟨s₂, s', hall, -⟩
    · -- records that are all replayed would not throw
      rcases hrecords.replays_or_stops with ⟨p₁, hreplays⟩ | hstops
      · have hok := scan_of_replays hreplays List.drop_zero (Nat.zero_le _)
          (Nat.lt_succ_self bl.length)
        have hthrown := L.run_objects hthrows
        rw [run_check hs j hbl hrecords, hok] at hthrown
        cases (Prod.mk.inj hthrown).1
      · exact .inr hstops
    · exact .inl (read_length hs (hsame hall))
  · intro h
    have hwithin : Prog.Safe Pool.handle (checkIn id ino) (L.objects s) := by
      refine Prog.safe_bind_iff.mpr ⟨hread, ?_⟩
      intro bl p' hbl
      obtain ⟨s₁, hrun, rfl⟩ := L.run_of_objects hbl
      rw [hbl] at hpool
      rw [show L.objects s₁ = L.objects s from hpool] at hbl ⊢
      exact (scan_read_safe_iff hs hbl).mpr (h bl s₁ hrun).1
    refine ⟨L.safe_iff.mpr hwithin, ?_⟩
    rcases hread.cases with ⟨bl, p', hbl⟩ | ⟨e, p', he⟩
    · obtain ⟨s₁, hrun₁, rfl⟩ := L.run_of_objects hbl
      obtain ⟨hrecords, hwhole⟩ := h bl s₁ hrun₁
      have hread₁ := hsame hrun₁
      have hrun := run_check hs j hread₁ hrecords
      rcases ((scan_read_safe_iff hs hread₁).mpr hrecords).cases with
        ⟨⟨⟩, p', hok⟩ | ⟨e, p', he⟩
      · obtain ⟨s', hcheck, rfl⟩ := L.run_of_objects (hrun.trans hok)
        have hreplays : Replays ino (L.objects s) bl (L.objects s') :=
          replays_of_scan (Nat.zero_le _) hok
        rcases hwhole with hlen | hstops
        · have hall := read_whole hs hread₁ hlen
          rw [← hall]
          exact .inr ⟨s₁, s', hrun₁, hcheck, hreplays⟩
        · exact absurd hreplays (hstops.not_replays _)
      · obtain ⟨s', hcheck, -⟩ := L.run_of_objects (hrun.trans he)
        exact .inl ⟨e, s', hcheck⟩
    · have hthrows : (j.check ino).2.run Pool.handle (L.objects s) = (.throws e, p') := by
        unfold check checkIn
        rw [Prog.run_bind_throws _ he]
      obtain ⟨s', hcheck, -⟩ := L.run_of_objects hthrows
      exact .inl ⟨e, s', hcheck⟩

end Check

section Examples

/-- A journal of the root is put into a store. -/
theorem exists_journal
    {p : Pool} {f : FlatStore} (hp : Represents p f) {b : Bytes} (hne : b ≠ [])
    (hlen : b.length ≤ 100) :
    ∃ p' f', Represents p' f' ∧
      (f .JOURNAL (uuidToString .root) = none →
        f'.content .JOURNAL (uuidToString .root) = b ∧
          (RadosIo.read .JOURNAL (uuidToString .root) objSize 0).run Pool.handle p' =
            (.ok b, p')) ∧
      ∀ category key, category ≠ .JOURNAL → f' category key = f category key := by
  have hend : 0 + b.length ≤ offEnd := le_offEnd (by omega)
  obtain ⟨p', -, hp'⟩ := hp.run_write .JOURNAL (uuidToString .root) hend
  refine ⟨p', _, hp', ?_, ?_⟩
  · intro hnone
    have hcontent : (f.write .JOURNAL (uuidToString .root) b 0).content .JOURNAL
        (uuidToString .root) = b := by
      rw [FlatStore.content_write, FlatStore.content, hnone, Option.getD_none,
        overwrite_zero, List.drop_nil, List.append_nil]
    have hfirst : slice b 0 objSize = b := by
      rw [slice, List.drop_zero, List.take_of_length_le]
      rw [objSize]
      omega
    refine ⟨hcontent, ?_⟩
    rw [hp'.run_read_first, hcontent, FlatStore.write_self hne, Option.isSome_some,
      if_pos rfl, hfirst]
  · exact fun category key hnot => FlatStore.write_of_ne (fun heq => hnot heq.1) _ _

/-- The record of a transaction without changes. -/
def emptyRecord : Bytes :=
  [14, 0, 0, 0, 1, 255, 255, 255, 255, 255, 255, 255, 255, 255]

/-- The root directory has no entries. -/
def EmptyRoot (p : Pool) : Prop :=
  ∃ (f : FlatStore) (m : MetaStore), Represents p f ∧ m.StoredIn ∅ {.root} f ∧
    m.dentries .root = some ∅

/-- The entries of the root are written again. -/
theorem replayed_emptyRecord
    {p : Pool} (h : EmptyRoot p) :
    ∃ p', Replayed .root p emptyRecord p' ∧ EmptyRoot p' := by
  obtain ⟨f, m, hp, hm, hl⟩ := h
  have hload : m.loadDentry .root false = .ok ⟨.root, ∅⟩ := by
    simp [MetaStore.loadDentry, hl]
  have hsync : m.sync (.new .root) = .ok (m.setDentry .root (some ∅)) := by
    have hcall : m.execCall (.loadDentry .root false ∅) =
        .ok (m.setDentry .root (some ∅)) := by
      simp only [MetaStore.execCall, MetaStore.perform, hload]
      rfl
    have hcalls : (Transaction.new .root).syncCalls = [.loadDentry .root false ∅] := rfl
    rw [MetaStore.sync, hcalls, MetaStore.execCalls, hcall]
    rfl
  have hexact : (Transaction.new .root).Exact := by
    constructor
    · rintro s ⟨⟩
    · rintro ino i ⟨⟩
  obtain ⟨p', f', hrun, hp', hm', -⟩ := MetaStore.reaches_sync hp hm
    hexact (Set.mem_singleton _) hsync (by
      intro l hl'
      rw [show (Transaction.new .root).sIno = .root from rfl,
        MetaStore.setDentry_self] at hl'
      cases hl'
      exact Dentry.storable_empty .root)
  exact ⟨p', ⟨_, rfl, hrun⟩, f', _, hp', hm', MetaStore.setDentry_self ..⟩

theorem recordsIn_emptyRecord
    {p : Pool} (h : EmptyRoot p) {rest : Bytes}
    (hrest : ∀ p', EmptyRoot p' → RecordsIn .root p' rest) :
    RecordsIn .root p (emptyRecord ++ rest) := by
  obtain ⟨p₁, hreplayed, hp₁⟩ := replayed_emptyRecord h
  refine .record (by decide) ⟨by decide, ?_, ?_⟩ ?_ ?_
  · intro _
    exact .mark (by decide) (.mark (by decide) (by decide))
  · exact fun hself => absurd (by decide) hself
  · intro tx _
    obtain ⟨f, m, hp, hm, hl⟩ := h
    have hload : m.loadDentry .root false = .ok ⟨.root, ∅⟩ := by
      simp [MetaStore.loadDentry, hl]
    obtain ⟨d, hrun, -⟩ := MetaStore.run_load_stored hp hm rfl hload
    exact (Dentry.load_safe_iff hp .root).mp (Prog.safe_of_ok hrun)
  · intro p' hp'
    rw [← hreplayed.unique hp']
    exact hrest p₁ hp₁

/-- A journal with two records, which are replayed. -/
theorem check_safe_empty :
    ∃ (p p' : Pool) (f : FlatStore),
      f.content .JOURNAL (uuidToString .root) = emptyRecord ++ emptyRecord ∧
      ScansSafely Pool.librados .new .root p (f.content .JOURNAL (uuidToString .root)) ∧
      (Journal.new.check .root).2.run Pool.handle p = (.ok (), p') := by
  obtain ⟨p₀, f₀, -, hp₀, hm₁, hout⟩ := MetaStore.reaches_syncDentry Represents.empty
    (MetaStore.storedIn_empty ∅ {.root}) (Dentry.storable_empty .root) fun _ => rfl
  obtain ⟨p, f, hp, hjournal, hother⟩ := exists_journal hp₀
    (b := emptyRecord ++ emptyRecord) (by decide) (by decide)
  obtain ⟨hcontent, hread⟩ := hjournal (hout .JOURNAL _ nofun nofun)
  have hroot : EmptyRoot p :=
    ⟨f, _, hp, hm₁.congr (fun _ _ => hother _ _ nofun) (fun _ _ => hother _ _ nofun),
      MetaStore.setDentry_self ..⟩
  have hrecords : RecordsIn .root p (emptyRecord ++ emptyRecord) := by
    refine recordsIn_emptyRecord hroot fun p₁ hp₁ => ?_
    rw [← List.append_nil emptyRecord]
    exact recordsIn_emptyRecord hp₁ fun _ _ => .done
  have hsafe : ScansSafely Pool.librados .new .root p
      (f.content .JOURNAL (uuidToString .root)) := by
    refine (check_safe_iff Pool.librados hp .new .root).mpr fun bl p₁ hbl => ?_
    obtain ⟨rfl, rfl⟩ : emptyRecord ++ emptyRecord = bl ∧ p = p₁ := by
      simpa using hread.symm.trans hbl
    refine ⟨hrecords, .inl ?_⟩
    rw [hcontent, objSize]
    decide
  -- neither of the records stops the scan
  obtain ⟨p₁, hfirst, hp₁⟩ := replayed_emptyRecord hroot
  obtain ⟨p₂, hsecond, -⟩ := replayed_emptyRecord hp₁
  have hboth : Replays .root p (emptyRecord ++ (emptyRecord ++ [])) p₂ :=
    .record (by decide) hfirst (.record (by decide) hsecond (.done p₂))
  refine ⟨p, p₂, f, hcontent, hsafe, (run_check hp .new hread hrecords).trans ?_⟩
  exact scan_of_replays hboth rfl (Nat.zero_le _) (by decide)

/-- The same record after its checkpoint, which clears the byte at the offset. -/
def checkpointedRecord : Bytes :=
  [0, 0, 0, 0, 1, 255, 255, 255, 255, 255, 255, 255, 255, 255]

theorem check_unsafe_checkpointed :
    ∃ (p : Pool) (f : FlatStore), Represents p f ∧
      f.content .JOURNAL (uuidToString .root) = checkpointedRecord ∧
      ¬ ScansSafely Pool.librados .new .root p (f.content .JOURNAL (uuidToString .root)) := by
  obtain ⟨p, f, hp, hjournal, -⟩ := exists_journal Represents.empty
    (b := checkpointedRecord) (by decide) (by decide)
  obtain ⟨hcontent, hread⟩ := hjournal rfl
  refine ⟨p, f, hp, hcontent, ?_⟩
  rintro ⟨hwithin, -⟩
  have hscan := (Prog.safe_bind_iff.mp hwithin).2 checkpointedRecord p hread
  have hrecords := (scan_safe_iff hp (by decide) (by decide) (by decide)).mp hscan
  obtain ⟨raw, rest, heq, hsize, hfive, -⟩ := hrecords.first (by decide)
  have hzero : sizeAt raw 0 = 0 := by
    have hfront := congrArg (sizeAt · 0) heq
    exact (sizeAt_append (by omega)).symm.trans (hfront.symm.trans (by decide))
  omega

end Examples

end Journal

end Nmfs
