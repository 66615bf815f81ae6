import Nmfs.Journal.Pending
import Nmfs.Meta.DentryObject
import Nmfs.Meta.InodeObject

/-!
# The objects behind the meta store

`StoredIn` ties the meta store to the byte strings of the pool: an INODE object
begins with the encoding of an inode, a DENTRY object with that of the entries
in some order, and what is left of longer versions may lie behind both.

What `sync` does to the objects is what it does to the meta store
(`run_sync`), as long as a directory fits into one object.  Only some inode
numbers may be looked at, since others write to the pool too.
-/

namespace Nmfs

open Bytes

namespace FlatStore

/-- Only the INODE and DENTRY objects have changed. -/
def SameOutside (f f' : FlatStore) : Prop :=
  ∀ category key, category ≠ .INODE → category ≠ .DENTRY →
    f' category key = f category key

theorem SameOutside.refl (f : FlatStore) : SameOutside f f := fun _ _ _ _ => rfl

theorem SameOutside.trans
    {f f' f'' : FlatStore} (h : SameOutside f f') (h' : SameOutside f' f'') :
    SameOutside f f'' :=
  fun category key hi hd => (h' category key hi hd).trans (h category key hi hd)

end FlatStore

namespace Inode

variable {i j : Inode}

/-- `link_target_len` is the length of the link's target. -/
def Exact (i : Inode) : Prop :=
  i.core.isLnk = true → i.linkTarget.length = i.core.linkTargetLen.toNat

/-- The same whatever the type is, which `chmod` may change. -/
def Whole (i : Inode) : Prop :=
  (i.linkTargetName.getD []).length = i.core.linkTargetLen.toNat

theorem Whole.exact (h : i.Whole) : i.Exact := by
  intro hlnk
  rw [linkTarget, if_pos hlnk]
  exact h

/-- A copy leaves out an empty target. -/
theorem linkTarget_copy (h : i.Exact) : i.copy.linkTarget = i.linkTarget := by
  unfold linkTarget
  have hcore : i.copy.core = i.core := rfl
  rw [hcore]
  by_cases hlnk : i.core.isLnk = true
  · rw [if_pos hlnk, if_pos hlnk]
    by_cases hlen : 0 < i.core.linkTargetLen.toNat
    · have hname : i.copy.linkTargetName = i.linkTargetName := if_pos ⟨hlnk, hlen⟩
      rw [hname]
    · have hname : i.copy.linkTargetName = none := if_neg fun hboth => hlen hboth.2
      have hzero := (h hlnk).trans (Nat.eq_zero_of_not_pos hlen)
      rw [linkTarget, if_pos hlnk, List.length_eq_zero_iff] at hzero
      rw [hname, hzero]
      rfl
  · rw [if_neg hlnk, if_neg hlnk]

theorem Exact.copy (h : i.Exact) : i.copy.Exact := by
  intro hlnk
  rw [linkTarget_copy h]
  exact h hlnk

/-- What is copied alike is the same. -/
theorem same_of_copy (h : i.copy = j.copy) (hi : i.Exact) (hj : j.Exact) : i.Same j := by
  refine ⟨core_of_copy h, ?_⟩
  rw [← linkTarget_copy hi, ← linkTarget_copy hj, h]

end Inode

namespace Dentry

variable {d d' : Dentry}

/-- Whether the entries fit does not depend on their order. -/
theorem Storable.congr
    (h : d.Storable)
    (hsame : ∀ name, d'.childList.lookup name = d.childList.lookup name) :
    d'.Storable := by
  have hperm : d'.childList.entries.Perm d.childList.entries :=
    List.lookup_ext d'.childList.nodupKeys d.childList.nodupKeys fun name ino => by
      rw [show d'.childList.entries.dlookup name = d.childList.entries.dlookup name
        from hsame name]
  constructor
  · have hsize : d'.rawSize = d.rawSize := by
      rw [rawSize, rawSize, getTotalNameLength, getTotalNameLength, hperm.length_eq,
        (hperm.map _).sum_nat]
    rw [hsize]
    exact h.size
  · intro it hit
    exact h.names it (hperm.mem_iff.mp hit)

theorem serialize_ne_nil (d : Dentry) : d.serialize ≠ [] := by
  intro hnil
  have hlen := d.length_serialize
  rw [hnil, List.length_nil, rawSize] at hlen
  omega

/-- The DENTRY object begins with the entries, in some order. -/
def EntriesIn (f : FlatStore) (ino : Uuid) (l : ChildList) : Prop :=
  ∃ (d : Dentry) (c : Bytes),
    f .DENTRY (uuidToString ino) = some (overwrite c 0 d.serialize) ∧ d.Storable ∧
      ∀ name, d.childList.lookup name = l.lookup name

end Dentry

namespace MetaStore

@[simp] theorem setInode_self (m : MetaStore) (ino : Uuid) (x : Option Inode) :
    (m.setInode ino x).inodes ino = x :=
  Function.update_self ..

theorem setInode_ne (m : MetaStore) {ino ino' : Uuid} (h : ino' ≠ ino) (x : Option Inode) :
    (m.setInode ino x).inodes ino' = m.inodes ino' :=
  Function.update_of_ne h ..

@[simp] theorem setDentry_self (m : MetaStore) (ino : Uuid) (x : Option ChildList) :
    (m.setDentry ino x).dentries ino = x :=
  Function.update_self ..

theorem setDentry_ne
    (m : MetaStore) {ino ino' : Uuid} (h : ino' ≠ ino) (x : Option ChildList) :
    (m.setDentry ino x).dentries ino' = m.dentries ino' :=
  Function.update_of_ne h ..

/-- The objects of some inodes and directories hold what the meta store has. -/
structure StoredIn (m : MetaStore) (inos dirs : Set Uuid) (f : FlatStore) : Prop where
  inode : ∀ ino ∈ inos, ∀ i, m.inodes ino = some i →
    i.core.ino = ino ∧ i.Exact ∧ i.StoredIn f
  noInode : ∀ ino ∈ inos, m.inodes ino = none → f .INODE (uuidToString ino) = none
  entries : ∀ ino ∈ dirs, ∀ l, m.dentries ino = some l → Dentry.EntriesIn f ino l
  noEntries : ∀ ino ∈ dirs, m.dentries ino = none →
    f .DENTRY (uuidToString ino) = none

/-- There is nothing. -/
theorem storedIn_empty (inos dirs : Set Uuid) :
    (⟨fun _ => none, fun _ => none⟩ : MetaStore).StoredIn inos dirs FlatStore.empty :=
  ⟨nofun, fun _ _ _ => rfl, nofun, fun _ _ _ => rfl⟩

section Objects

variable {p : Pool} {f f' : FlatStore} {m : MetaStore} {inos dirs : Set Uuid}

/-- What has not changed still holds it. -/
theorem StoredIn.congr
    (h : m.StoredIn inos dirs f)
    (hinode : ∀ ino ∈ inos, f' .INODE (uuidToString ino) = f .INODE (uuidToString ino))
    (hentries : ∀ ino ∈ dirs,
      f' .DENTRY (uuidToString ino) = f .DENTRY (uuidToString ino)) :
    m.StoredIn inos dirs f' where
  inode ino hino i hi := by
    obtain ⟨howner, hexact, hstored⟩ := h.inode ino hino i hi
    refine ⟨howner, hexact, ?_⟩
    unfold Inode.StoredIn FlatStore.content
    rw [howner, hinode ino hino, ← howner]
    exact hstored
  noInode ino hino hnone := (hinode ino hino).trans (h.noInode ino hino hnone)
  entries ino hino l hl := by
    obtain ⟨d, c, hobj, hd, hlookup⟩ := h.entries ino hino l hl
    exact ⟨d, c, (hentries ino hino).trans hobj, hd, hlookup⟩
  noEntries ino hino hnone := (hentries ino hino).trans (h.noEntries ino hino hnone)

theorem StoredIn.mono
    {inos' dirs' : Set Uuid} (h : m.StoredIn inos dirs f) (hinos : inos' ⊆ inos)
    (hdirs : dirs' ⊆ dirs) : m.StoredIn inos' dirs' f where
  inode ino hino := h.inode ino (hinos hino)
  noInode ino hino := h.noInode ino (hinos hino)
  entries ino hino := h.entries ino (hdirs hino)
  noEntries ino hino := h.noEntries ino (hdirs hino)

/-- An INODE object has been written, or removed. -/
theorem StoredIn.setInode
    (h : m.StoredIn inos dirs f) {ino : Uuid} {x : Option Inode}
    (hx : ∀ i, x = some i → i.core.ino = ino ∧ i.Exact ∧ i.StoredIn f')
    (hnone : x = none → f' .INODE (uuidToString ino) = none)
    (hother : ∀ category key, ¬ (category = .INODE ∧ key = uuidToString ino) →
      f' category key = f category key) :
    (m.setInode ino x).StoredIn inos dirs f' := by
  have hne : ∀ ino', ino' ≠ ino →
      f' .INODE (uuidToString ino') = f .INODE (uuidToString ino') := by
    intro ino' hne
    exact hother _ _ fun heq => hne (uuidToString_inj heq.2)
  refine ⟨?_, ?_, ?_, ?_⟩
  · intro ino' hino' i hi
    rcases eq_or_ne ino' ino with rfl | hino
    · rw [setInode_self] at hi
      exact hx i hi
    · rw [setInode_ne m hino] at hi
      obtain ⟨howner, hexact, hstored⟩ := h.inode ino' hino' i hi
      refine ⟨howner, hexact, ?_⟩
      unfold Inode.StoredIn FlatStore.content
      rw [howner, hne ino' hino, ← howner]
      exact hstored
  · intro ino' hino' hi
    rcases eq_or_ne ino' ino with rfl | hino
    · rw [setInode_self] at hi
      exact hnone hi
    · rw [setInode_ne m hino] at hi
      exact (hne ino' hino).trans (h.noInode ino' hino' hi)
  · intro ino' hino' l hl
    obtain ⟨d, c, hobj, hd, hlookup⟩ := h.entries ino' hino' l hl
    exact ⟨d, c, (hother _ _ (by simp)).trans hobj, hd, hlookup⟩
  · intro ino' hino' hl
    exact (hother _ _ (by simp)).trans (h.noEntries ino' hino' hl)

/-- A DENTRY object has been written, or removed. -/
theorem StoredIn.setDentry
    (h : m.StoredIn inos dirs f) {ino : Uuid} {x : Option ChildList}
    (hx : ∀ l, x = some l → Dentry.EntriesIn f' ino l)
    (hnone : x = none → f' .DENTRY (uuidToString ino) = none)
    (hother : ∀ category key, ¬ (category = .DENTRY ∧ key = uuidToString ino) →
      f' category key = f category key) :
    (m.setDentry ino x).StoredIn inos dirs f' := by
  have hne : ∀ ino', ino' ≠ ino →
      f' .DENTRY (uuidToString ino') = f .DENTRY (uuidToString ino') := by
    intro ino' hne
    exact hother _ _ fun heq => hne (uuidToString_inj heq.2)
  have hinode : ∀ key, f' .INODE key = f .INODE key := fun key => hother _ _ (by simp)
  refine ⟨?_, ?_, ?_, ?_⟩
  · intro ino' hino' i hi
    obtain ⟨howner, hexact, hstored⟩ := h.inode ino' hino' i hi
    refine ⟨howner, hexact, ?_⟩
    unfold Inode.StoredIn FlatStore.content
    rw [hinode]
    exact hstored
  · intro ino' hino' hi
    exact (hinode _).trans (h.noInode ino' hino' hi)
  · intro ino' hino' l hl
    rcases eq_or_ne ino' ino with rfl | hino
    · rw [setDentry_self] at hl
      exact hx l hl
    · rw [setDentry_ne m hino] at hl
      obtain ⟨d, c, hobj, hd, hlookup⟩ := h.entries ino' hino' l hl
      exact ⟨d, c, (hne ino' hino).trans hobj, hd, hlookup⟩
  · intro ino' hino' hl
    rcases eq_or_ne ino' ino with rfl | hino
    · rw [setDentry_self] at hl
      exact hnone hl
    · rw [setDentry_ne m hino] at hl
      exact (hne ino' hino).trans (h.noEntries ino' hino' hl)

/-- The program returns with a pool that holds `m'`, and no other objects have been
touched. -/
def Reaches (inos dirs : Set Uuid) (q : IoProg Unit) (p : Pool) (f : FlatStore)
    (m' : MetaStore) : Prop :=
  ∃ p' f', q.run Pool.handle p = (.ok (), p') ∧ Represents p' f' ∧
    m'.StoredIn inos dirs f' ∧ f.SameOutside f'

/-- One program after the other. -/
theorem Reaches.bind
    {m' m'' : MetaStore} {q q' : IoProg Unit} (h : Reaches inos dirs q p f m')
    (hnext : ∀ p' f', Represents p' f' → m'.StoredIn inos dirs f' →
      Reaches inos dirs q' p' f' m'') :
    Reaches inos dirs (q >>= fun _ => q') p f m'' := by
  obtain ⟨p₁, f₁, hrun, hp₁, hm₁, hout⟩ := h
  obtain ⟨p₂, f₂, hrun', hp₂, hm₂, hout'⟩ := hnext p₁ f₁ hp₁ hm₁
  exact ⟨p₂, f₂, by rw [Prog.run_bind_ok _ hrun, hrun'], hp₂, hm₂, hout.trans hout'⟩

variable (hp : Represents p f) (hm : m.StoredIn inos dirs f)

include hp hm

theorem reaches_syncInode {i : Inode} (hi : i.Exact) :
    Reaches inos dirs i.sync p f (m.setInode i.core.ino (some i)) := by
  obtain ⟨p', hrun, hp'⟩ := Inode.run_sync hp i
  refine ⟨p', _, hrun, hp', hm.setInode ?_ nofun ?_, ?_⟩
  · intro j hj
    cases hj
    exact ⟨rfl, hi, Inode.storedIn_write i f⟩
  · exact fun category key hne => FlatStore.write_of_ne hne _ _
  · exact fun category key hnot _ => FlatStore.write_of_ne (fun heq => hnot heq.1) _ _

theorem reaches_syncDentry
    {d : Dentry} (hd : d.Storable) {l : ChildList}
    (hnames : ∀ name, d.childList.lookup name = l.lookup name) :
    Reaches inos dirs d.sync p f (m.setDentry d.thisIno (some l)) := by
  obtain ⟨p', hrun, hp'⟩ := Dentry.run_sync hp hd.size
  refine ⟨p', _, hrun, hp', hm.setDentry ?_ nofun ?_, ?_⟩
  · intro l hl
    cases hl
    exact ⟨d, _, FlatStore.write_self d.serialize_ne_nil 0, hd, hnames⟩
  · exact fun category key hne => FlatStore.write_of_ne hne _ _
  · exact fun category key _ hnot => FlatStore.write_of_ne (fun heq => hnot heq.1) _ _

theorem reaches_removeInode (ino : Uuid) :
    Reaches inos dirs (RadosIo.remove .INODE (uuidToString ino)) p f
      (m.setInode ino none) := by
  obtain ⟨p', hrun, hp'⟩ := hp.run_remove .INODE (uuidToString ino)
  refine ⟨p', _, hrun, hp', hm.setInode nofun ?_ ?_, ?_⟩
  · exact fun _ => FlatStore.set_self f _ _ none
  · exact fun category key hne => FlatStore.remove_of_ne hne
  · exact fun category key hnot _ => FlatStore.remove_of_ne fun heq => hnot heq.1

theorem reaches_removeDentry (ino : Uuid) :
    Reaches inos dirs (RadosIo.remove .DENTRY (uuidToString ino)) p f
      (m.setDentry ino none) := by
  obtain ⟨p', hrun, hp'⟩ := hp.run_remove .DENTRY (uuidToString ino)
  refine ⟨p', _, hrun, hp', hm.setDentry nofun ?_ ?_, ?_⟩
  · exact fun _ => FlatStore.set_self f _ _ none
  · exact fun category key hne => FlatStore.remove_of_ne hne
  · exact fun category key _ hnot => FlatStore.remove_of_ne fun heq => hnot heq.1

/-- `dentry(ino, mkdir)` finds the entries that the meta store has. -/
theorem run_load_stored
    {ino : Uuid} (hino : ino ∈ dirs) {mkdir : Bool} {d : Dentry}
    (hload : m.loadDentry ino mkdir = .ok d) :
    ∃ d', (Dentry.load ino mkdir).run Pool.handle p = (.ok d', p) ∧
      d'.thisIno = d.thisIno ∧
      ∀ name, d'.childList.lookup name = d.childList.lookup name := by
  cases mkdir with
  | true =>
      cases hload
      exact ⟨⟨ino, ∅⟩, rfl, rfl, fun _ => rfl⟩
  | false =>
      unfold MetaStore.loadDentry at hload
      rw [if_neg (by decide)] at hload
      split at hload
      · rename_i l hl
        cases hload
        obtain ⟨d₁, c, hobj, hd₁, hlookup⟩ := hm.entries ino hino l hl
        have hlen := d₁.length_serialize
        obtain ⟨rest, hrest⟩ := resize_slice_overwrite c (hlen.trans_le hd₁.size)
        obtain ⟨d', hdec, hthis, hnames⟩ := Dentry.deserialize_serialize hd₁ hrest ino
        exact ⟨d', Dentry.run_load hp hobj hdec, hthis,
          fun name => (hnames name).trans (hlookup name)⟩
      · cases hload

end Objects

/-- What a call writes fits into its object. -/
def CallFits (dirs : Set Uuid) (m : MetaStore) : SyncCall → Prop
  | .syncInode i => i.Exact
  | .loadDentry ino mkdir changes => ino ∈ dirs ∧
      ∀ d, m.loadDentry ino mkdir = .ok d →
        (Transaction.syncDentries changes d).Storable
  | .syncDentry d => d.Storable
  | .removeInode _ | .removeDentry _ => True

def Fits (dirs : Set Uuid) : MetaStore → List SyncCall → Prop
  | _, [] => True
  | m, c :: l => m.CallFits dirs c ∧ ∀ m', m.execCall c = .ok m' → Fits dirs m' l

section Calls

variable {p : Pool} {f : FlatStore} {m m' : MetaStore} {inos dirs : Set Uuid}

theorem fits_append
    {l l' : List SyncCall} (h : Fits dirs m l)
    (hrest : ∀ m', m.execCalls l = .ok m' → Fits dirs m' l') :
    Fits dirs m (l ++ l') := by
  induction l generalizing m with
  | nil => exact hrest m rfl
  | cons c l ih =>
      refine ⟨h.1, fun m₁ hcall => ih (h.2 m₁ hcall) fun m' hm' => hrest m' ?_⟩
      rw [execCalls, hcall]
      exact hm'

theorem fits_inodes
    {l : List ((_ : Uuid) × Option Inode)}
    (h : ∀ ino i, ⟨ino, some i⟩ ∈ l → i.Exact) (m : MetaStore) :
    Fits dirs m (l.filterMap fun f => f.2.map .syncInode) := by
  induction l generalizing m with
  | nil => trivial
  | cons f l ih =>
      obtain ⟨ino, fi⟩ := f
      have hrest := ih fun ino i hi => h ino i (List.mem_cons_of_mem _ hi)
      cases fi with
      | none => exact hrest m
      | some i => exact ⟨h ino i List.mem_cons_self, fun m' _ => hrest m'⟩

/-- The calls do to the objects what they do to the meta store. -/
theorem reaches_exec
    {l : List SyncCall} (hp : Represents p f) (hm : m.StoredIn inos dirs f)
    (hfits : Fits dirs m l) (hexec : m.execCalls l = .ok m') :
    Reaches inos dirs (SyncCall.exec l) p f m' := by
  induction l generalizing m p f with
  | nil =>
      cases hexec
      exact ⟨p, f, rfl, hp, hm, .refl f⟩
  | cons c l ih =>
      obtain ⟨hcall, hrest⟩ := hfits
      rw [execCalls] at hexec
      cases c with
      | syncInode i =>
          refine (reaches_syncInode hp hm hcall).bind fun p' f' hp' hm' => ?_
          exact ih hp' hm' (hrest _ rfl) hexec
      | loadDentry ino mkdir changes =>
          cases hload : m.loadDentry ino mkdir with
          | error e => simp [execCall, perform, hload] at hexec
          | ok d =>
              obtain ⟨d', hrun, hthis, hnames⟩ := run_load_stored hp hm hcall.1 hload
              have hcalls : m.execCall (.loadDentry ino mkdir changes) =
                  .ok (m.setDentry (Transaction.syncDentries changes d).thisIno
                    (some (Transaction.syncDentries changes d).childList)) := by
                simp [execCall, perform, hload]
              rw [hcalls] at hexec
              have hmerged : ∀ name,
                  (Transaction.syncDentries changes d').childList.lookup name =
                    (Transaction.syncDentries changes d).childList.lookup name := by
                intro name
                rw [Transaction.syncDentries_lookup, Transaction.syncDentries_lookup,
                  Transaction.merged, Transaction.merged, hnames]
              have hino : (Transaction.syncDentries changes d').thisIno =
                  (Transaction.syncDentries changes d).thisIno := by
                rw [Transaction.syncDentries_thisIno, Transaction.syncDentries_thisIno,
                  hthis]
              have hwrite := reaches_syncDentry hp hm
                ((hcall.2 d hload).congr hmerged) hmerged
              rw [hino] at hwrite
              have hboth := hwrite.bind fun p' f' hp' hm' =>
                ih hp' hm' (hrest _ hcalls) hexec
              obtain ⟨p', f', hrun', hreach⟩ := hboth
              refine ⟨p', f', ?_, hreach⟩
              rw [SyncCall.exec, Prog.run_bind_ok _ hrun]
              exact hrun'
      | syncDentry d =>
          refine (reaches_syncDentry hp hm hcall fun _ => rfl).bind
            fun p' f' hp' hm' => ?_
          exact ih hp' hm' (hrest _ rfl) hexec
      | removeInode ino =>
          refine (reaches_removeInode hp hm ino).bind fun p' f' hp' hm' => ?_
          exact ih hp' hm' (hrest _ rfl) hexec
      | removeDentry ino =>
          refine (reaches_removeDentry hp hm ino).bind fun p' f' hp' hm' => ?_
          exact ih hp' hm' (hrest _ rfl) hexec

end Calls

end MetaStore

namespace Transaction

/-- The inodes in it are exact, and are found under their numbers. -/
structure Exact (tx : Transaction) : Prop where
  self : ∀ s, tx.sInode = some s → s.Exact
  files : ∀ ino i, tx.fInodes.lookup ino = some (some i) → i.core.ino = ino ∧ i.Exact

end Transaction

namespace MetaStore

open Transaction

variable {p : Pool} {f : FlatStore} {m m' : MetaStore} {inos dirs : Set Uuid}
  {tx : Transaction}

/-- The transaction fits if its directory does afterwards. -/
theorem fits_sync
    (hexact : tx.Exact) (hdir : tx.sIno ∈ dirs) (hsync : m.sync tx = .ok m')
    (hsize : ∀ l, m'.dentries tx.sIno = some l → (⟨tx.sIno, l⟩ : Dentry).Storable) :
    Fits dirs m tx.syncCalls := by
  rw [sync] at hsync
  unfold syncCalls at hsync ⊢
  split at hsync
  · rename_i hdel
    rw [if_pos hdel]
    exact ⟨trivial, fun _ _ => ⟨trivial, fun _ _ => trivial⟩⟩
  · rename_i hdel
    rw [if_neg hdel]
    have hself : Fits dirs m (tx.sInode.map .syncInode).toList := by
      cases hs : tx.sInode with
      | none => trivial
      | some s => exact ⟨hexact.self s hs, fun _ _ => trivial⟩
    have hfiles : ∀ ino i, ⟨ino, some i⟩ ∈ tx.fInodes.entries → i.Exact := by
      intro ino i hi
      exact (hexact.files ino i (AList.mem_lookup_iff.mpr hi)).2
    refine fits_append hself fun m₁ hexec₁ => ⟨⟨hdir, ?_⟩, ?_⟩
    · intro d hd
      rw [execCalls_append hexec₁, execCalls] at hsync
      simp only [execCall, perform, hd] at hsync
      obtain ⟨m₂, hexec₂, hdentries, -⟩ := execCalls_fInodes tx.fInodes.nodupKeys
        (fun ino i hi => (hexact.files ino i (AList.mem_lookup_iff.mpr hi)).1)
        (m₁.setDentry (syncDentries tx.dentries d).thisIno
          (some (syncDentries tx.dentries d).childList))
      rw [hexec₂] at hsync
      cases hsync
      have hthis : (syncDentries tx.dentries d).thisIno = tx.sIno := by
        rw [syncDentries_thisIno]
        unfold loadDentry at hd
        split at hd
        · cases hd
          rfl
        · split at hd
          · cases hd
            rfl
          · cases hd
      rw [hthis] at hdentries
      have hl := congrFun hdentries tx.sIno
      rw [setDentry_self] at hl
      exact (hsize _ hl).congr fun _ => rfl
    · exact fun m₂ _ => fits_inodes hfiles m₂

/-- **`sync` does to the objects what it does to the meta store.** -/
theorem reaches_sync
    (hp : Represents p f) (hm : m.StoredIn inos dirs f) (hexact : tx.Exact)
    (hdir : tx.sIno ∈ dirs) (hsync : m.sync tx = .ok m')
    (hsize : ∀ l, m'.dentries tx.sIno = some l → (⟨tx.sIno, l⟩ : Dentry).Storable) :
    Reaches inos dirs tx.sync p f m' := by
  rw [← exec_syncCalls]
  exact reaches_exec hp hm (fits_sync hexact hdir hsync hsize) hsync

end MetaStore

end Nmfs
