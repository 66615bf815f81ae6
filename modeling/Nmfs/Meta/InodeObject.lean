import Nmfs.Meta.Inode
import Nmfs.Rados.FlatStore

/-!
# The INODE object

`inode::sync` writes the core and the target of a link as one buffer, whose size
comes from `link_target_len`.  `inode::inode(ino)` reads the core, and then goes
back to the object for the target, to the offset behind the core.  What lies in
the object behind both stays there, and is not read.
-/

namespace Nmfs

open Bytes

section Reads

variable {p : Pool} {f : FlatStore}

/-- A range inside the content is read. -/
theorem Represents.run_read_inside
    (h : Represents p f) (category : ObjCategory) (key : Key) {len offset : Nat}
    (hin : offset + len ≤ (f.content category key).length) :
    (RadosIo.read category key len offset).run Pool.handle p =
      (.ok (slice (f.content category key) offset len), p) := by
  obtain ⟨n, hf, -⟩ := h.file category key
  have hend := Nat.le_trans hin (h.bounded category key)
  have hfound : offset + len ≤ offset ∨ objNum (offset + len - 1) < n := by
    rcases Nat.eq_zero_or_pos len with rfl | hpos
    · exact .inl (Nat.le_refl _)
    · right
      have hcovers := Nat.le_trans hin hf.covers
      rw [objNum_eq]
      refine Nat.div_lt_of_lt_mul ?_
      rw [Nat.mul_comm]
      omega
  rw [RadosIo.run_read hf (Nat.lt_of_le_of_lt hend offEnd_lt_offMax) (.inl hend),
    RadosIo.readOutcome, if_pos hfound, List.nil_append, Nat.add_sub_cancel_left]

end Reads

namespace Inode

theorem serialize_copy (i : Inode) : i.copy.serialize = i.serialize := by
  have hcore : i.copy.core = i.core := rfl
  unfold serialize
  rw [hcore]
  by_cases hlink : i.core.isLnk ∧ 0 < i.core.linkTargetLen.toNat
  · have hname : i.copy.linkTargetName = i.linkTargetName := if_pos hlink
    rw [if_pos hlink, if_pos hlink, hname]
  · rw [if_neg hlink, if_neg hlink]

/-- Behind the core of a link lies its target. -/
theorem serialize_link
    {i : Inode} (hlnk : i.core.isLnk = true)
    (htarget : i.linkTarget.length = i.core.linkTargetLen.toNat) :
    i.serialize = i.core.toBytes ++ i.linkTarget := by
  have hname : i.linkTarget = i.linkTargetName.getD [] := by
    rw [linkTarget, if_pos hlnk]
  unfold serialize
  by_cases hlen : 0 < i.core.linkTargetLen.toNat
  · rw [if_pos ⟨hlnk, hlen⟩, ← hname, ← htarget, List.take_length]
  · have hzero : i.core.linkTargetLen.toNat = 0 := Nat.eq_zero_of_not_pos hlen
    have hnil : i.linkTarget = [] :=
      List.length_eq_zero_iff.mp (htarget.trans hzero)
    rw [if_neg fun hboth => hlen hboth.2, hnil, hzero, List.replicate_zero]

section Objects

variable {p : Pool} {f : FlatStore} (h : Represents p f) (i : Inode)

include h

/-- `sync` puts the encoding at the beginning of the object. -/
theorem run_sync :
    ∃ p', i.sync.run Pool.handle p = (.ok (), p') ∧
      Represents p' (f.write .INODE (uuidToString i.core.ino) i.serialize 0) := by
  have hlen := i.core.linkTargetLen.toNat_lt
  have hend : 0 + i.serialize.length ≤ offEnd := by
    refine le_offEnd ?_
    rw [length_serialize, regInodeSize]
    omega
  obtain ⟨p', hrun, h'⟩ := h.run_write .INODE (uuidToString i.core.ino) hend
  exact ⟨p', by rw [sync, Prog.run_bind_ok _ hrun, Prog.pure_eq_ret, Prog.run_ret], h'⟩

/-- The first part of the object holds the inode. -/
def StoredIn (f : FlatStore) (i : Inode) : Prop :=
  ∃ rest, f.content .INODE (uuidToString i.core.ino) = i.serialize ++ rest

omit h in
theorem storedIn_write (f : FlatStore) :
    StoredIn (f.write .INODE (uuidToString i.core.ino) i.serialize 0) i := by
  rw [StoredIn, FlatStore.content_write, overwrite_zero]
  exact ⟨_, rfl⟩

/-- The link comes back with its target. -/
theorem run_withLink_stored
    (hi : StoredIn f i)
    (htarget : i.core.isLnk = true → i.linkTarget.length = i.core.linkTargetLen.toNat) :
    ∃ j, (withLink i.core).run Pool.handle p = (.ok j, p) ∧ i.Same j := by
  have hstored : i.LinkStored p := by
    intro hlnk
    obtain ⟨rest, hrest⟩ := hi
    have hlen := i.length_serialize
    refine ⟨_, h.run_read_inside .INODE (uuidToString i.core.ino) ?_, ?_⟩
    · rw [hrest, List.length_append, hlen]
      exact Nat.le_add_right _ _
    · rw [hrest, serialize_link hlnk (htarget hlnk), List.append_assoc,
        slice_append_right _ (Nat.le_of_eq i.core.length_toBytes),
        i.core.length_toBytes, Nat.sub_self, slice_append_left _ (htarget hlnk),
        ← htarget hlnk, resize_of_le (Nat.le_refl _), List.take_length]
  obtain ⟨j, p', hrun, hsame⟩ := (run_withLink_iff p i).mpr hstored
  have hpool := (run_withLink i.core p).1
  rw [hrun] at hpool
  dsimp only at hpool
  subst hpool
  exact ⟨j, hrun, hsame⟩

/-- `inode(ino)` reads the core, and then what its link needs. -/
theorem run_pull
    (hi : StoredIn f i)
    (htarget : i.core.isLnk = true → i.linkTarget.length = i.core.linkTargetLen.toNat) :
    ∃ j, (pull i.core.ino).run Pool.handle p = (.ok j, p) ∧ i.Same j := by
  obtain ⟨j, hrun, hsame⟩ := run_withLink_stored h i hi htarget
  obtain ⟨rest, hrest⟩ := hi
  have hcontent : 0 + regInodeSize ≤
      (f.content .INODE (uuidToString i.core.ino)).length := by
    rw [hrest, List.length_append, length_serialize]
    omega
  have hread := h.run_read_inside .INODE (uuidToString i.core.ino) hcontent
  have hcore : slice (i.serialize ++ rest) 0 regInodeSize = i.core.toBytes := by
    rw [serialize, List.append_assoc, slice_append_left _ i.core.length_toBytes]
  have hdec : deserialize (resize i.core.toBytes regInodeSize) =
      withLink i.core := by
    rw [resize_of_le (Nat.le_of_eq i.core.length_toBytes.symm), ← i.core.length_toBytes,
      List.take_length, deserialize, if_neg (by rw [i.core.length_toBytes]; omega)]
    have hof := i.core.ofBytes_toBytes []
    rw [List.append_nil] at hof
    rw [hof]
  rw [hrest, hcore] at hread
  refine ⟨j, ?_, hsame⟩
  rw [pull, Prog.run_tryCatch, Prog.run_bind_ok _ hread, hdec, hrun]

end Objects

/-- **Saving and loading is lossless**, whatever has been in the object before,
and a copy is saved like the original. -/
theorem sync_pull_lossless
    {σ : Type} (L : Librados σ) {s : σ} {f : FlatStore} (hs : Represents (L.objects s) f)
    (i : Inode)
    (htarget : i.core.isLnk = true → i.linkTarget.length = i.core.linkTargetLen.toNat) :
    (∃ s₁ s₂ j, i.sync.run L.call s = (.ok (), s₁) ∧
      (pull i.core.ino).run L.call s₁ = (.ok j, s₂) ∧ L.objects s₂ = L.objects s₁ ∧
      j.core = i.core ∧ j.linkTarget = i.linkTarget) ∧
      i.copy.serialize = i.serialize := by
  constructor
  · obtain ⟨p', hsync, hp'⟩ := run_sync hs i
    obtain ⟨j, hpull, hcore, hlink⟩ := run_pull hp' i (storedIn_write i f) htarget
    obtain ⟨s₁, hsync₁, rfl⟩ := L.run_of_objects hsync
    obtain ⟨s₂, hpull₂, hs₂⟩ := L.run_of_objects hpull
    exact ⟨s₁, s₂, j, hsync₁, hpull₂, hs₂, hcore.symm, hlink.symm⟩
  · exact serialize_copy i

/-- A link with the target `ab`. -/
def toAb : Inode := newSymlink .root 0 0 sIFLNK .root ⟨0, 0⟩ [97, 98]

theorem sync_pull_link :
    (∃ p₁ p₂ j, toAb.sync.run Pool.handle Pool.empty = (.ok (), p₁) ∧
      (pull toAb.core.ino).run Pool.handle p₁ = (.ok j, p₂) ∧ p₂ = p₁ ∧
      j.core = toAb.core ∧ j.linkTarget = toAb.linkTarget) ∧
      toAb.copy.serialize = toAb.serialize :=
  sync_pull_lossless Pool.librados Represents.empty toAb (fun _ => rfl)

end Inode

end Nmfs
