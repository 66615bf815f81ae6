import Nmfs.Meta.Dentry
import Nmfs.Rados.FlatStore
import Mathlib.Data.List.TakeWhile

/-!
# The DENTRY object

`dentry::sync` writes over the DENTRY object and does not truncate it, so that
behind the entries there may be the end of a longer version.  The decoder takes
as many entries as the number at the beginning says, and does not come to what
lies behind them.

The number of bytes is computed from the lengths of the names, apart from the
encoder (`length_serialize`).
-/

namespace Nmfs

namespace Dentry

open Bytes Buffer

def getTotalNameLength (d : Dentry) : Nat :=
  (d.childList.entries.map fun it => it.1.length).sum

/-- `raw_size` in `serialize` and `sync` -/
def rawSize (d : Dentry) : Nat :=
  8 + d.childList.entries.length * 4 + d.getTotalNameLength +
    d.childList.entries.length * 16

/-- The entries fit into one object, and the names are C strings. -/
structure Storable (d : Dentry) : Prop where
  size : d.rawSize ≤ objSize
  names : ∀ it ∈ d.childList.entries, 0 ∉ it.1

/-- Some directories are written, one after the other. -/
def syncAll : List Dentry → IoProg Unit
  | [] => .ret ()
  | d :: ds => do
      d.sync
      syncAll ds

theorem storable_empty (ino : Uuid) : (⟨ino, ∅⟩ : Dentry).Storable :=
  ⟨by simp [rawSize, getTotalNameLength, objSize], by simp⟩

section Encoding

variable {raw rest : Bytes} {index : Nat} {d : Dentry}

@[simp] theorem length_serializeChild (it : (_ : Name) × Uuid) :
    (serializeChild it).length = 20 + it.1.length := by
  simp [serializeChild, it.2.size]
  omega

theorem length_flatMap_serializeChild (l : List ((_ : Name) × Uuid)) :
    (l.flatMap serializeChild).length =
      l.length * 20 + (l.map fun it => it.1.length).sum := by
  induction l with
  | nil => rfl
  | cons it l ih =>
      simp only [List.flatMap_cons, List.length_append, length_serializeChild, ih,
        List.length_cons, List.map_cons, List.sum_cons]
      omega

theorem length_le_sum
    {l : List ((_ : Name) × Uuid)} {it : (_ : Name) × Uuid} (h : it ∈ l) :
    it.1.length ≤ (l.map fun it => it.1.length).sum := by
  induction l with
  | nil => cases h
  | cons it' l ih =>
      rw [List.map_cons, List.sum_cons]
      rcases List.mem_cons.mp h with rfl | h'
      · exact Nat.le_add_right _ _
      · exact Nat.le_trans (ih h') (Nat.le_add_left _ _)

/-- What `sync` writes is what `serialize` has made. -/
theorem length_serialize (d : Dentry) : d.serialize.length = d.rawSize := by
  rw [serialize, List.length_append, length_leBytes,
    length_flatMap_serializeChild, rawSize, getTotalNameLength]
  omega

/-- One entry, at the index of the decoder. -/
theorem readChildren_cons
    {name : Name} {ino : Uuid} (left : Nat) {childList : ChildList}
    (hdrop : raw.drop index = serializeChild ⟨name, ino⟩ ++ rest)
    (hsize : name.length < 2 ^ 31) (hnul : 0 ∉ name)
    (hnew : childList.lookup name = none) :
    readChildren raw (left + 1) index childList =
      readChildren raw left (index + (20 + name.length))
        (childList.insert name ino) := by
  have h₀ : raw.drop index =
      leBytes 4 name.length ++ (name ++ (ino.data ++ rest)) := by
    simpa [serializeChild] using hdrop
  have h₁ := drop_add_of_drop h₀ (n := 4) (by simp)
  have h₂ := drop_add_of_drop h₁ (n := name.length) rfl
  have hname : name.takeWhile (· ≠ 0) = name := by
    rw [List.takeWhile_eq_self_iff]
    intro b hb
    have hne : b ≠ 0 := fun h => hnul (h ▸ hb)
    simpa using hne
  have hino : (⟨resize ino.data 16, by simp⟩ : Uuid) = ino :=
    Uuid.ext_data (by simp [resize, ino.size, List.take_of_length_le])
  have hpos' : 0 < (ino.data ++ rest).length := by
    rw [List.length_append, ino.size]
    omega
  have hpos : 0 < (name ++ (ino.data ++ rest)).length := by
    rw [List.length_append]
    omega
  rw [readChildren, int32At_of_drop h₀ hsize, Prog.ret_bind, if_neg (by omega),
    Int.toNat_natCast, bytesAt_of_drop h₁ hpos rfl, Prog.ret_bind,
    bytesAt_of_drop h₂ hpos' ino.size, Prog.ret_bind, hname]
  dsimp only
  rw [if_pos hnew, hino]
  congr 1
  omega

/-- The entries are read back, whatever lies behind them. -/
theorem readChildren_serialize
    (l : List ((_ : Name) × Uuid)) (childList : ChildList)
    (hdrop : raw.drop index = l.flatMap serializeChild ++ rest)
    (hkeys : l.NodupKeys) (hnew : ∀ it ∈ l, childList.lookup it.1 = none)
    (hsize : ∀ it ∈ l, it.1.length < 2 ^ 31) (hnul : ∀ it ∈ l, 0 ∉ it.1) :
    ∃ childList', readChildren raw l.length index childList = .ret childList' ∧
      ∀ name, childList'.lookup name =
        (l.dlookup name).or (childList.lookup name) := by
  induction l generalizing index childList with
  | nil => exact ⟨childList, rfl, by simp⟩
  | cons it l ih =>
      obtain ⟨name, ino⟩ := it
      rw [List.nodupKeys_cons] at hkeys
      rw [List.flatMap_cons, List.append_assoc] at hdrop
      have hnew' : ∀ it ∈ l, (childList.insert name ino).lookup it.1 = none := by
        intro it hit
        have hne : it.1 ≠ name := by
          rintro rfl
          exact hkeys.1 (show it.1 ∈ l.keys from List.mem_keys_of_mem hit)
        rw [AList.lookup_insert_ne hne]
        exact hnew it (List.mem_cons_of_mem _ hit)
      have hhead := readChildren_cons l.length hdrop
        (hsize _ List.mem_cons_self) (hnul _ List.mem_cons_self)
        (hnew _ List.mem_cons_self)
      have hrest := drop_add_of_drop hdrop
        (length_serializeChild ⟨name, ino⟩)
      obtain ⟨childList', hread, hlookup⟩ := ih _ hrest hkeys.2 hnew'
        (fun it hit => hsize it (List.mem_cons_of_mem _ hit))
        (fun it hit => hnul it (List.mem_cons_of_mem _ hit))
      refine ⟨childList', ?_, ?_⟩
      · rw [List.length_cons, hhead]
        exact hread
      · intro name'
        rw [hlookup]
        by_cases hn : name' = name
        · subst hn
          rw [List.dlookup_cons_eq, AList.lookup_insert,
            List.dlookup_eq_none.mpr hkeys.1]
          rfl
        · rw [List.dlookup_cons_ne _ _ hn, AList.lookup_insert_ne hn]

/-- The decoder takes the entries of the last version. -/
theorem deserialize_serialize
    (hd : d.Storable) (hraw : raw = d.serialize ++ rest) (ino : Uuid) :
    ∃ d', deserialize ⟨ino, ∅⟩ raw = .ret d' ∧ d'.thisIno = ino ∧
      ∀ name, d'.childList.lookup name = d.childList.lookup name := by
  have hsize : d.childList.entries.length < 2 ^ 64 ∧
      ∀ it ∈ d.childList.entries, it.1.length < 2 ^ 31 := by
    have hle := hd.size
    rw [rawSize, objSize] at hle
    refine ⟨by omega, ?_⟩
    intro it hit
    have hlen := length_le_sum hit
    rw [← getTotalNameLength] at hlen
    omega
  have h₀ : raw.drop 0 = leBytes 8 d.childList.entries.length ++
      (d.childList.entries.flatMap serializeChild ++ rest) := by
    rw [hraw, serialize, List.drop_zero, List.append_assoc]
  have h₁ := drop_add_of_drop h₀ (n := 8) (by simp)
  obtain ⟨childList, hread, hlookup⟩ := readChildren_serialize
    d.childList.entries ∅ h₁ d.childList.nodupKeys (by simp)
    hsize.2 hd.names
  refine ⟨⟨ino, childList⟩, ?_, rfl, ?_⟩
  · rw [deserialize, bytesAt_of_drop h₀ (by simp) (by simp), Prog.ret_bind,
      leNat_leBytes_of_lt hsize.1]
    rw [Nat.zero_add] at hread
    rw [hread]
    rfl
  · intro name
    rw [hlookup]
    simp [AList.lookup]

end Encoding

section Objects

variable {p : Pool} {f : FlatStore} (h : Represents p f)

include h

/-- `sync` puts the encoding at the beginning of the object. -/
theorem run_sync {d : Dentry} (hsize : d.rawSize ≤ objSize) :
    ∃ p', d.sync.run Pool.handle p = (.ok (), p') ∧
      Represents p'
        (f.write .DENTRY (uuidToString d.thisIno) d.serialize 0) := by
  have hend : 0 + d.serialize.length ≤ offEnd := by
    rw [length_serialize, offEnd_eq]
    omega
  obtain ⟨p', hrun, h'⟩ := h.run_write .DENTRY (uuidToString d.thisIno) hend
  exact ⟨p', by rw [sync, Prog.run_bind_ok _ hrun, Prog.pure_eq_ret, Prog.run_ret], h'⟩

theorem run_syncAll {ds : List Dentry} (hsize : ∀ d ∈ ds, d.rawSize ≤ objSize) :
    ∃ p' f', (syncAll ds).run Pool.handle p = (.ok (), p') ∧ Represents p' f' := by
  induction ds generalizing p f with
  | nil => exact ⟨p, f, rfl, h⟩
  | cons d ds ih =>
      obtain ⟨p₁, hrun, h₁⟩ := run_sync h (hsize d List.mem_cons_self)
      obtain ⟨p₂, f₂, hrest, h₂⟩ :=
        ih h₁ fun d hd => hsize d (List.mem_cons_of_mem _ hd)
      exact ⟨p₂, f₂, by rw [syncAll, Prog.run_bind_ok _ hrun, hrest], h₂⟩

omit h in
theorem run_syncAll_append (ds : List Dentry) (d : Dentry) (p : Pool) :
    (syncAll (ds ++ [d])).run Pool.handle p =
      match (syncAll ds).run Pool.handle p with
      | (.ok _, p') => d.sync.run Pool.handle p'
      | r => r := by
  induction ds generalizing p with
  | nil =>
      simp only [List.nil_append, syncAll, Prog.run_ret]
      rw [Prog.run_bind]
      rcases d.sync.run Pool.handle p with ⟨o, p'⟩
      cases o <;> rfl
  | cons d' ds ih =>
      simp only [List.cons_append, syncAll, Prog.run_bind]
      rcases d'.sync.run Pool.handle p with ⟨o, p'⟩
      cases o with
      | ok u => exact ih p'
      | throws e | faults x => rfl

/-- `dentry(ino)` decodes the first object of the content. -/
theorem run_load
    {ino : Uuid} {c : Bytes} {d : Dentry}
    (hc : f .DENTRY (uuidToString ino) = some c)
    (hdec : deserialize ⟨ino, ∅⟩ (resize (slice c 0 objSize) objSize) = .ret d) :
    (load ino false).run Pool.handle p = (.ok d, p) := by
  obtain ⟨n, hf, hpos⟩ := h.file .DENTRY (uuidToString ino)
  rw [FlatStore.content, hc, Option.getD_some] at hf
  rw [hc] at hpos
  have hobj := objSize_pos
  have hmax : 0 + objSize < offMax := by
    rw [offMax_eq]
    omega
  have hreach : RadosIo.InReach n 0 (0 + objSize) := by
    left
    rw [offEnd_eq]
    omega
  have hnum : objNum (0 + objSize - 1) < n := by
    rw [objNum_eq, Nat.div_eq_of_lt (by omega)]
    exact hpos.mp rfl
  have hread := RadosIo.run_read hf hmax hreach
  rw [RadosIo.readOutcome, if_pos (.inr hnum), List.nil_append, Nat.sub_zero,
    Nat.zero_add] at hread
  rw [load, if_neg (by simp), Prog.run_tryCatch, Prog.run_bind_ok _ hread, hdec]
  rfl

end Objects

/-- **Saving and loading is lossless.** Whatever has been written to the object
before, `dentry(ino)` finds the names and the inode numbers of the last `sync`,
and no others. -/
theorem sync_load_lossless
    {σ : Type} (L : Librados σ) {s : σ} {f : FlatStore} (hs : Represents (L.objects s) f)
    {ino : Uuid} {ds : List Dentry} {d : Dentry}
    (hds : ∀ d' ∈ ds, d'.thisIno = ino ∧ d'.Storable) (hino : d.thisIno = ino)
    (hd : d.Storable) :
    ∃ s₁ s₂ d', (syncAll (ds ++ [d])).run L.call s = (.ok (), s₁) ∧
      (load ino false).run L.call s₁ = (.ok d', s₂) ∧ L.objects s₂ = L.objects s₁ ∧
      d'.thisIno = ino ∧ ∀ name, d'.childList.lookup name = d.childList.lookup name := by
  obtain ⟨p₁, f₁, hrun₁, h₁⟩ := run_syncAll hs fun d' h => (hds d' h).2.size
  obtain ⟨p₂, hrun₂, h₂⟩ := run_sync h₁ hd.size
  rw [hino] at h₂
  have hlen := d.length_serialize
  have hne : d.serialize ≠ [] := by
    intro hnil
    rw [hnil, List.length_nil, rawSize] at hlen
    omega
  have hc : (f₁.write .DENTRY (uuidToString ino) d.serialize 0) .DENTRY
      (uuidToString ino) =
        some (overwrite (f₁.content .DENTRY (uuidToString ino)) 0 d.serialize) := by
    rw [FlatStore.write, if_neg (fun h => hne h.1), FlatStore.set_self]
  obtain ⟨rest, hrest⟩ := resize_slice_overwrite
    (f₁.content .DENTRY (uuidToString ino)) (hlen.trans_le hd.size)
  obtain ⟨d', hdec, hino', hlookup⟩ := deserialize_serialize hd hrest ino
  have hall : (syncAll (ds ++ [d])).run Pool.handle (L.objects s) = (.ok (), p₂) := by
    rw [run_syncAll_append, hrun₁]
    exact hrun₂
  obtain ⟨s₁, hsync, rfl⟩ := L.run_of_objects hall
  obtain ⟨s₂, hload, hs₂⟩ := L.run_of_objects (run_load h₂ hc hdec)
  exact ⟨s₁, s₂, d', hsync, hload, hs₂, hino', hlookup⟩

section Examples

/-- The file `ab`, and then the file `c`, which is written over it. -/
def firstVersion : Dentry := (⟨.root, ∅⟩ : Dentry).addChild [97, 98] .nil

def secondVersion : Dentry := (⟨.root, ∅⟩ : Dentry).addChild [99] .root

theorem firstVersion_storable : firstVersion.Storable where
  size := by
    have hsize : firstVersion.rawSize = 30 := rfl
    rw [hsize, objSize]
    decide
  names := by decide

theorem secondVersion_storable : secondVersion.Storable where
  size := by
    have hsize : secondVersion.rawSize = 29 := rfl
    rw [hsize, objSize]
    decide
  names := by decide

theorem sync_load_shorter :
    ∃ p₁ p₂ d', (syncAll ([firstVersion] ++ [secondVersion])).run Pool.handle
        Pool.empty = (.ok (), p₁) ∧
      (load .root false).run Pool.handle p₁ = (.ok d', p₂) ∧ p₂ = p₁ ∧
      d'.thisIno = .root ∧
      ∀ name, d'.childList.lookup name = secondVersion.childList.lookup name :=
  sync_load_lossless Pool.librados Represents.empty
    (by simpa using ⟨rfl, firstVersion_storable⟩) rfl secondVersion_storable

end Examples

end Dentry

end Nmfs
