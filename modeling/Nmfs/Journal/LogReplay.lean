import Nmfs.Journal.Checkpointing
import Nmfs.Journal.SyncBounds

/-!
# Replaying a redo log over the pool

`dentry::dentry` reads `MAX_DENTRY_OBJ_SIZE` bytes of the DENTRY object, and the
decoder goes on behind them if the directory is larger.  A directory that never is
too large may become so while its log is replayed: then it has the entries of
several times.

As long as what is written on the way fits, the pool goes along with the meta
store of `Nmfs.Journal.Replay`, and a replay comes to the same end
(`replay_idempotent`).  A replay that goes wrong is at the end of this module.
-/

namespace Nmfs

open Bytes Buffer

namespace Inode

variable {i : Inode}

/-- Only `link_target_len` bytes of the link's target are written. -/
def trim (i : Inode) : Inode where
  pIno := i.pIno
  core := i.core
  linkTargetName := i.linkTargetName.map (·.take i.core.linkTargetLen.toNat)
  link := by
    intro hlnk hlen
    obtain ⟨name, hname, hle⟩ := i.link hlnk hlen
    refine ⟨name.take i.core.linkTargetLen.toNat, by rw [hname, Option.map_some], ?_⟩
    rw [List.length_take, Nat.min_eq_left hle]

theorem trim_core (i : Inode) : i.trim.core = i.core := rfl

theorem trim_linkTargetName (i : Inode) : i.trim.linkTargetName =
    i.linkTargetName.map (·.take i.core.linkTargetLen.toNat) := rfl

theorem trim_exact (i : Inode) : i.trim.Exact := by
  intro hlnk
  rw [linkTarget, if_pos hlnk, trim_linkTargetName, trim_core]
  rcases Nat.eq_zero_or_pos i.core.linkTargetLen.toNat with hzero | hlen
  · rw [hzero]
    cases i.linkTargetName <;> rfl
  · obtain ⟨name, hname, hle⟩ := i.link hlnk hlen
    rw [hname, Option.map_some, Option.getD_some, List.length_take,
      Nat.min_eq_left hle]

theorem serialize_trim (i : Inode) : i.trim.serialize = i.serialize := by
  have hname : (i.trim.linkTargetName.getD []).take i.core.linkTargetLen.toNat =
      (i.linkTargetName.getD []).take i.core.linkTargetLen.toNat := by
    rw [trim_linkTargetName]
    cases i.linkTargetName with
    | none => rfl
    | some name => simp
  rw [serialize, serialize, trim_core, hname]

theorem sync_trim (i : Inode) : i.trim.sync = i.sync := by
  rw [sync, sync, serialize_trim, trim_core]

end Inode

namespace SyncCall

/-- What a call writes. -/
def trim : SyncCall → SyncCall
  | .syncInode i => .syncInode i.trim
  | .loadDentry ino mkdir changes => .loadDentry ino mkdir changes
  | .syncDentry d => .syncDentry d
  | .removeInode ino => .removeInode ino
  | .removeDentry ino => .removeDentry ino

theorem exec_trim (l : List SyncCall) : exec (l.map trim) = exec l := by
  induction l with
  | nil => rfl
  | cons c l ih =>
      cases c with
      | syncInode i => simp only [List.map_cons, trim, exec, Inode.sync_trim, ih]
      | loadDentry ino mkdir changes => simp only [List.map_cons, trim, exec, ih]
      | syncDentry d => simp only [List.map_cons, trim, exec, ih]
      | removeInode ino => simp only [List.map_cons, trim, exec, ih]
      | removeDentry ino => simp only [List.map_cons, trim, exec, ih]

end SyncCall

namespace Transaction

variable {tx : Transaction}

def trim (tx : Transaction) : Transaction :=
  { tx with
    sInode := tx.sInode.map Inode.trim
    fInodes := ⟨tx.fInodes.entries.map fun f => ⟨f.1, f.2.map Inode.trim⟩, by
      have hkeys := tx.fInodes.nodupKeys
      unfold List.NodupKeys List.keys at hkeys ⊢
      rw [List.map_map]
      exact hkeys⟩ }

theorem syncCalls_trim (tx : Transaction) :
    tx.trim.syncCalls = tx.syncCalls.map SyncCall.trim := by
  have hfiles : ((tx.fInodes.entries.map fun f : (_ : Uuid) × Option Inode =>
      (⟨f.1, f.2.map Inode.trim⟩ : (_ : Uuid) × Option Inode)).filterMap
        fun f => f.2.map SyncCall.syncInode) =
      (tx.fInodes.entries.filterMap fun f => f.2.map SyncCall.syncInode).map
        SyncCall.trim := by
    rw [List.filterMap_map, List.map_filterMap]
    refine List.filterMap_congr ?_
    rintro ⟨ino, fi⟩ -
    cases fi <;> rfl
  unfold syncCalls
  have hstatus : tx.trim.status = tx.status := rfl
  rw [hstatus]
  split
  · rfl
  · rw [List.map_append, List.map_cons]
    refine congr_arg₂ _ ?_ (congrArg _ hfiles)
    rw [trim]
    cases tx.sInode <;> rfl

/-- The program is the same. -/
theorem sync_trim (tx : Transaction) : tx.trim.sync = tx.sync := by
  rw [← exec_syncCalls, ← exec_syncCalls, syncCalls_trim, SyncCall.exec_trim]

/-- `sync` of some transactions, one after the other. -/
def syncEach : List Transaction → IoProg Unit
  | [] => .ret ()
  | tx :: txs => do
    let _ ← tx.sync
    syncEach txs

theorem Sound.exact_trim (h : tx.Sound) : tx.trim.Exact where
  self := by
    intro s hs
    obtain ⟨i, -, rfl⟩ := Option.map_eq_some_iff.mp hs
    exact i.trim_exact
  files := by
    intro ino i hi
    have hmem := AList.mem_lookup_iff.mp hi
    obtain ⟨f, hf, heq⟩ := List.mem_map.mp hmem
    obtain ⟨ino', fi⟩ := f
    cases fi with
    | none => cases heq
    | some i₀ =>
        cases heq
        exact ⟨h.files ino' i₀ (AList.mem_lookup_iff.mpr hf), i₀.trim_exact⟩

end Transaction

namespace MetaStore

open Transaction

variable {m m' : MetaStore} {tx : Transaction}

/-- What the INODE objects have of the inodes. -/
def trim (m : MetaStore) : MetaStore :=
  { m with inodes := fun ino => (m.inodes ino).map Inode.trim }

theorem trim_setInode (m : MetaStore) (ino : Uuid) (x : Option Inode) :
    (m.setInode ino x).trim = m.trim.setInode ino (x.map Inode.trim) := by
  have hinodes : (fun ino' => ((m.setInode ino x).inodes ino').map Inode.trim) =
      (m.trim.setInode ino (x.map Inode.trim)).inodes := by
    funext ino'
    rcases eq_or_ne ino' ino with rfl | hne
    · rw [setInode_self, setInode_self]
    · rw [setInode_ne _ hne, setInode_ne _ hne]
      rfl
  exact congrArg (MetaStore.mk · m.dentries) hinodes

theorem execCall_trim (m : MetaStore) (c : SyncCall) :
    m.trim.execCall c.trim = (m.execCall c).map trim := by
  cases c with
  | syncInode i =>
      exact congrArg Except.ok (trim_setInode m i.core.ino (some i)).symm
  | loadDentry ino mkdir changes =>
      have hload : m.trim.loadDentry ino mkdir = m.loadDentry ino mkdir := rfl
      simp only [execCall, SyncCall.trim, perform, hload]
      cases m.loadDentry ino mkdir <;> rfl
  | syncDentry d => rfl
  | removeInode ino => exact congrArg Except.ok (trim_setInode m ino none).symm
  | removeDentry ino => rfl

theorem execCalls_trim (m : MetaStore) (l : List SyncCall) :
    m.trim.execCalls (l.map SyncCall.trim) = (m.execCalls l).map trim := by
  induction l generalizing m with
  | nil => rfl
  | cons c l ih =>
      rw [List.map_cons, execCalls, execCalls, execCall_trim]
      cases m.execCall c with
      | error e => rfl
      | ok m₁ => exact ih m₁

theorem sync_trim (m : MetaStore) (tx : Transaction) :
    m.trim.sync tx.trim = (m.sync tx).map trim := by
  rw [sync, sync, syncCalls_trim, execCalls_trim]

theorem Same.trim (h : m.Same m') : m.trim.Same m'.trim :=
  ⟨fun ino => congrArg (Option.map Inode.trim) (h.inodes ino), h.dentries, h.entries⟩

section Replay

variable {p : Pool} {f : FlatStore} {inos dirs : Set Uuid} {dirIno : Uuid}
  {txs txs' : List Transaction}

/-- The objects do not tell an inode from what they have of it. -/
theorem StoredIn.trim (h : m.StoredIn inos dirs f) : m.trim.StoredIn inos dirs f where
  inode ino hino i hi := by
    obtain ⟨i₀, hi₀, rfl⟩ := Option.map_eq_some_iff.mp hi
    obtain ⟨howner, -, hstored⟩ := h.inode ino hino i₀ hi₀
    refine ⟨howner, i₀.trim_exact, ?_⟩
    unfold Inode.StoredIn at hstored ⊢
    rw [Inode.serialize_trim]
    exact hstored
  noInode ino hino hi := h.noInode ino hino (Option.map_eq_none_iff.mp hi)
  entries := h.entries
  noEntries := h.noEntries

/-- What the meta store has for the directory fits into its DENTRY object. -/
def DirFits (dirIno : Uuid) (m : MetaStore) : Prop :=
  ∀ l, m.dentries dirIno = some l → (⟨dirIno, l⟩ : Dentry).Storable

/-- What is written on the way fits. -/
def AllFit (dirIno : Uuid) : MetaStore → List Transaction → Prop
  | _, [] => True
  | m, tx :: txs => ∀ m', m.sync tx = .ok m' → DirFits dirIno m' ∧ AllFit dirIno m' txs

theorem allFit_append
    (h : AllFit dirIno m (txs ++ txs')) {m₁ : MetaStore} (hsync : m.syncAll txs = .ok m₁) :
    AllFit dirIno m txs ∧ AllFit dirIno m₁ txs' := by
  induction txs generalizing m with
  | nil =>
      cases hsync
      exact ⟨trivial, h⟩
  | cons tx txs ih =>
      rw [syncAll] at hsync
      cases hfirst : m.sync tx with
      | error e => simp [hfirst] at hsync
      | ok m₂ =>
          rw [hfirst] at hsync
          obtain ⟨hfits, hrest⟩ := h m₂ hfirst
          obtain ⟨hbefore, hafter⟩ := ih hrest hsync
          refine ⟨fun m' hm' => ?_, hafter⟩
          rw [hfirst] at hm'
          cases hm'
          exact ⟨hfits, hbefore⟩

/-- The pool goes along. -/
theorem reaches_syncEach
    (hp : Represents p f) (hm : m.trim.StoredIn inos dirs f) (hdir : dirIno ∈ dirs)
    (htxs : ∀ tx ∈ txs, tx.Sound ∧ tx.sIno = dirIno) (hfits : AllFit dirIno m txs)
    (hsync : m.syncAll txs = .ok m') :
    Reaches inos dirs (syncEach txs) p f m'.trim := by
  induction txs generalizing m p f with
  | nil =>
      cases hsync
      exact ⟨p, f, rfl, hp, hm, .refl f⟩
  | cons tx txs ih =>
      obtain ⟨hsound, rfl⟩ := htxs tx List.mem_cons_self
      rw [syncAll] at hsync
      cases hfirst : m.sync tx with
      | error e => simp [hfirst] at hsync
      | ok m₁ =>
          rw [hfirst] at hsync
          obtain ⟨hfit, hrest⟩ := hfits m₁ hfirst
          have htrim : m.trim.sync tx.trim = .ok m₁.trim := by
            rw [sync_trim, hfirst]
            rfl
          have hreach := reaches_sync hp hm hsound.exact_trim hdir htrim hfit
          rw [Transaction.sync_trim] at hreach
          refine hreach.bind fun p₁ f₁ hp₁ hm₁ => ?_
          exact ih hp₁ hm₁ (fun tx' htx' => htxs tx' (List.mem_cons_of_mem _ htx')) hrest
            hsync

/-- The changes are made to the entries that are there. -/
theorem sync_entries
    {ops : List TxOp} {l : ChildList} (hlog : LoggedBy dirIno ops tx)
    (hrm : .rmself ∉ ops) (hstatus : tx.status = .S_UNCHANGED)
    (hl : m.dentries dirIno = some l) :
    ∃ m' l', m.sync tx = .ok m' ∧ m'.dentries dirIno = some l' ∧
      ∀ name, l'.lookup name = merged tx.dentries l name := by
  obtain ⟨m', hsync, -, hsome, hentries, -⟩ := sync_ok (m := m) hlog.sound.files
    (hlog.not_deleted hrm) (.inr (by rw [hlog.sIno, hl]; rfl))
  rw [hlog.sIno] at hsome hentries
  obtain ⟨l', hl'⟩ := Option.isSome_iff_exists.mp hsome
  refine ⟨m', l', hsync, hl', fun name => ?_⟩
  have hentry := hentries name
  rw [entry, entry, hl, hl', entryWrite, if_neg (by rw [hstatus]; decide)] at hentry
  refine hentry.trans ?_
  rw [merged]
  rcases tx.dentries.lookup name with _ | ⟨_ | _, _⟩ <;> rfl

end Replay

end MetaStore

namespace Transaction

open MetaStore MetaPool

theorem sound_of_logged
    {dirIno : Uuid} {txs : List Transaction}
    (h : ∀ tx ∈ txs, ∃ ops, LoggedBy dirIno ops tx ∧ .rmself ∉ ops) :
    ∀ tx ∈ txs, tx.Sound ∧ tx.sIno = dirIno := by
  intro tx htx
  obtain ⟨ops, hlog, -⟩ := h tx htx
  exact ⟨hlog.sound, hlog.sIno⟩

/-- **Replay is idempotent.** A log that is synced again, over what any part of it has
left, throws nothing and comes to the same store, as long as the directory fits into
its DENTRY object at any time. -/
theorem replay_idempotent
    {σ : Type} (L : Librados σ) {s : σ} {f : FlatStore} {m : MetaStore}
    {inos dirs : Set Uuid} {dirIno : Uuid} {txs : List Transaction}
    (hs : Represents (L.objects s) f) (hm : m.StoredIn inos dirs f) (hdir : dirIno ∈ dirs)
    (htxs : ∀ tx ∈ txs, ∃ ops, LoggedBy dirIno ops tx ∧ .rmself ∉ ops)
    (hbegin : (m.dentries dirIno).isSome ∨ ∃ tx rest self ops,
      txs = tx :: rest ∧ LoggedBy dirIno (.mkself self :: ops) tx ∧ .rmself ∉ ops)
    (j : Nat) (honce : AllFit dirIno m txs)
    (hagain : AllFit dirIno m (txs.take j ++ txs)) :
    ∃ s₁ s₂ s₃ m₂ m₃, (syncEach (txs.take j)).run L.call s = (.ok (), s₁) ∧
      (syncEach txs).run L.call s₁ = (.ok (), s₂) ∧
      (syncEach txs).run L.call s = (.ok (), s₃) ∧
      Holds inos dirs (L.objects s₂) m₂ ∧ Holds inos dirs (L.objects s₃) m₃ ∧
      m₂.Same m₃ := by
  obtain ⟨m₁, m₂, m₃, hfirst, hsecond, hthird, hsame⟩ := syncAll_again htxs hbegin j
  have hlogged := sound_of_logged htxs
  obtain ⟨hfits₁, hfits₂⟩ := allFit_append hagain hfirst
  obtain ⟨p₁, f₁, hpool₁, hp₁, hm₁, -⟩ := reaches_syncEach hs hm.trim hdir
    (fun tx htx => hlogged tx (List.mem_of_mem_take htx)) hfits₁ hfirst
  obtain ⟨s₁, hrun₁, rfl⟩ := L.run_of_objects hpool₁
  obtain ⟨p₂, f₂, hpool₂, hp₂, hm₂, -⟩ :=
    reaches_syncEach hp₁ hm₁ hdir hlogged hfits₂ hsecond
  obtain ⟨s₂, hrun₂, rfl⟩ := L.run_of_objects hpool₂
  obtain ⟨p₃, f₃, hpool₃, hp₃, hm₃, -⟩ :=
    reaches_syncEach hs hm.trim hdir hlogged honce hthird
  obtain ⟨s₃, hrun₃, rfl⟩ := L.run_of_objects hpool₃
  exact ⟨s₁, s₂, s₃, m₂.trim, m₃.trim, hrun₁, hrun₂, hrun₃, ⟨f₂, hp₂, hm₂⟩,
    ⟨f₃, hp₃, hm₃⟩, hsame.trim⟩

section Examples

/-- The directory is made with a file in it. -/
def created : Transaction :=
  TxOp.applyAll (.new .root) [.mkself rootDir, .mkreg rootDir [97] someFile]

/-- The file is removed. -/
def emptied : Transaction :=
  TxOp.applyAll (.new .root) [.rmreg rootDir [97] someFile]

theorem rootDir_isDirectory : rootDir.IsDirectory := ⟨by decide, rfl⟩

theorem created_logged :
    LoggedBy .root [.mkself rootDir, .mkreg rootDir [97] someFile] created := by
  have hself : ∀ s, some rootDir = some s → s.IsDirectory := by
    rintro s ⟨⟩
    exact rootDir_isDirectory
  exact .apply (.mkreg rootDir [97] someFile)
    (.apply (.mkself rootDir) .new rfl hself) rfl hself

theorem emptied_logged : LoggedBy .root [.rmreg rootDir [97] someFile] emptied := by
  refine .apply (.rmreg rootDir [97] someFile) .new rfl ?_
  rintro s ⟨⟩
  exact rootDir_isDirectory

/-- The directory with the file. -/
def oneFile : Dentry := (⟨.root, ∅⟩ : Dentry).addChild [97] someFile.core.ino

theorem oneFile_storable : oneFile.Storable where
  size := by
    have hsize : oneFile.rawSize = 29 := rfl
    rw [hsize, objSize]
    decide
  names := by decide

theorem allFit_created
    {m : MetaStore} {txs : List Transaction}
    (h : ∀ m', m'.dentries .root = some oneFile.childList → AllFit .root m' txs) :
    AllFit .root m (created :: txs) := by
  obtain ⟨m₁, hsync, hl₁⟩ : ∃ m₁, m.sync created = .ok m₁ ∧
      m₁.dentries .root = some oneFile.childList := ⟨_, rfl, rfl⟩
  intro m' hm'
  rw [hsync] at hm'
  cases hm'
  refine ⟨fun l hl => ?_, h _ hl₁⟩
  rw [hl₁] at hl
  cases hl
  exact oneFile_storable

theorem allFit_emptied
    {m : MetaStore} {txs : List Transaction}
    (hm : m.dentries .root = some oneFile.childList)
    (h : ∀ m', AllFit .root m' txs) : AllFit .root m (emptied :: txs) := by
  obtain ⟨m₁, l₁, hsync, hl₁, hmerged⟩ := sync_entries emptied_logged (by simp) rfl hm
  intro m' hm'
  rw [hsync] at hm'
  cases hm'
  refine ⟨fun l hl => ?_, h _⟩
  rw [hl₁] at hl
  cases hl
  refine (Dentry.storable_empty .root).congr fun name => (hmerged name).trans ?_
  have hchanges : emptied.dentries = AList.insert [97] (false, someFile.core.ino) ∅ := rfl
  have hfile : oneFile.childList = AList.insert [97] someFile.core.ino ∅ := rfl
  rw [merged, hchanges, hfile]
  rcases eq_or_ne name [97] with rfl | hne
  · rw [AList.lookup_insert]
    rfl
  · rw [AList.lookup_insert_ne hne, AList.lookup_insert_ne hne]
    rfl

/-- The first of the two is replayed on an empty store. -/
theorem replay_idempotent_created :
    ∃ p₁ p₂ p₃ m₂ m₃,
      (syncEach ([created, emptied].take 1)).run Pool.handle Pool.empty = (.ok (), p₁) ∧
      (syncEach [created, emptied]).run Pool.handle p₁ = (.ok (), p₂) ∧
      (syncEach [created, emptied]).run Pool.handle Pool.empty = (.ok (), p₃) ∧
      Holds Set.univ Set.univ p₂ m₂ ∧ Holds Set.univ Set.univ p₃ m₃ ∧ m₂.Same m₃ := by
  have hboth : ∀ m, AllFit .root m [created, emptied] :=
    fun m => allFit_created fun _ hl => allFit_emptied hl fun _ => trivial
  refine replay_idempotent Pool.librados Represents.empty (storedIn_empty _ _)
    (Set.mem_univ .root) ?_ (.inr ⟨_, _, rootDir, _, rfl, created_logged, by simp⟩) 1
    (hboth _) (allFit_created fun _ _ => hboth _)
  intro tx htx
  simp only [List.mem_cons, List.not_mem_nil, or_false] at htx
  rcases htx with rfl | rfl
  · exact ⟨_, created_logged, by simp⟩
  · exact ⟨_, emptied_logged, by simp⟩

end Examples

section Overrun

variable {dirIno : Uuid} {ops ops' : List TxOp} {tx : Transaction}

/-- What `sync` writes to the DENTRY object, whether or not it fits. -/
theorem sync_writes
    {p : Pool} {f : FlatStore} {l : ChildList} (hp : Represents p f)
    (hl : Dentry.EntriesIn f tx.sIno l) (hstatus : tx.status = .S_UNCHANGED)
    (hfiles : tx.fInodes = ∅) (hsize : dentriesSize tx.dentries ≤ 2 ^ 31) :
    ∃ (p' : Pool) (f' : FlatStore) (d : Dentry) (c : Bytes),
      tx.sync.run Pool.handle p = (.ok (), p') ∧ Represents p' f' ∧
      f' .DENTRY (uuidToString tx.sIno) = some (overwrite c 0 d.serialize) ∧
      ∀ name, d.childList.lookup name = merged tx.dentries l name := by
  obtain ⟨p₁, f₁, hself, hp₁, hl₁⟩ : ∃ p₁ f₁, (syncSelf tx.sInode).run Pool.handle p =
      (.ok (), p₁) ∧ Represents p₁ f₁ ∧ Dentry.EntriesIn f₁ tx.sIno l := by
    cases tx.sInode with
    | none => exact ⟨p, f, rfl, hp, hl⟩
    | some s =>
        obtain ⟨p', hrun, hp'⟩ := Inode.run_sync hp s
        obtain ⟨d, c, hobj, hd⟩ := hl
        exact ⟨p', _, hrun, hp', d, c, (FlatStore.write_of_ne (by simp) _ _).trans hobj, hd⟩
  let m : MetaStore := ⟨fun _ => none, fun _ => some l⟩
  have hm : m.StoredIn ∅ {tx.sIno} f₁ := by
    constructor
    · intro ino hino
      cases hino
    · intro ino hino
      cases hino
    · rintro ino rfl _ ⟨⟩
      exact hl₁
    · intro ino _ hnone
      cases hnone
  obtain ⟨d, hload, hthis, hnames⟩ := MetaStore.run_load_stored hp₁ hm
    (Set.mem_singleton _) (show m.loadDentry tx.sIno false = _ from rfl)
  obtain ⟨-, -, hbefore⟩ := Dentry.run_load_size hload
  have hafter := syncDentries_size tx.dentries d
  have hend : 0 + (syncDentries tx.dentries d).serialize.length ≤ offEnd := by
    refine le_offEnd ?_
    rw [objSize] at hbefore
    unfold Dentry.childrenSize at hafter hbefore
    rw [Dentry.serialize, List.length_append, length_leBytes]
    omega
  have hino : (syncDentries tx.dentries d).thisIno = tx.sIno :=
    (syncDentries_thisIno _ _).trans hthis
  obtain ⟨p₂, hwrite, hp₂⟩ := hp₁.run_write .DENTRY (uuidToString tx.sIno) hend
  refine ⟨p₂, _, syncDentries tx.dentries d, _, ?_, hp₂,
    FlatStore.write_self (Dentry.serialize_ne_nil _) 0, fun name => ?_⟩
  · have hdeleted : tx.status ≠ .S_DELETED := by rw [hstatus]; decide
    have hcreated : decide (tx.status = .S_CREATED) = false := by rw [hstatus]; rfl
    have hdentry : (syncDentries tx.dentries d).sync.run Pool.handle p₁ = (.ok (), p₂) := by
      rw [Dentry.sync, hino, Prog.run_bind_ok _ hwrite]
      rfl
    rw [sync, if_neg hdeleted, hcreated, Prog.run_bind_ok _ hself,
      Prog.run_bind_ok _ hload, Prog.run_bind_ok _ hdentry, hfiles]
    rfl
  · rw [syncDentries_lookup, merged, merged, hnames]

theorem LoggedBy.applyAll
    (h : LoggedBy dirIno ops tx) (hopen : tx.committed = false)
    (hself : ∀ op ∈ ops', ∀ s, op.selfInode? = some s → s.IsDirectory) :
    LoggedBy dirIno (ops ++ ops') (TxOp.applyAll tx ops') := by
  induction ops' generalizing ops tx with
  | nil =>
      rw [List.append_nil]
      exact h
  | cons op ops' ih =>
      have hnext := ih (h.apply op hopen (hself op List.mem_cons_self))
        ((op.apply_frame tx).2.trans hopen)
        fun op' hop' => hself op' (List.mem_cons_of_mem _ hop')
      rw [List.append_assoc] at hnext
      exact hnext

/-- A call that adds a subdirectory, or removes it. -/
def editOp (e : (_ : Name) × (Bool × Uuid)) : TxOp :=
  if e.2.1 then .mkdir rootDir e.1 e.2.2 else .rmdir rootDir e.1 e.2.2

theorem apply_editOp
    {e : (_ : Name) × (Bool × Uuid)} (hopen : tx.committed = false)
    (hnew : e.1 ∉ tx.dentries) :
    ((editOp e).apply tx).2 = (tx.setDentry e.1 e.2.1 e.2.2).recordSelf rootDir := by
  obtain ⟨name, alive, ino⟩ := e
  have hnone : ∀ alive, tx.hasDentry name alive = false := by
    intro alive
    rw [hasDentry, AList.lookup_eq_none.mpr hnew]
  cases alive with
  | true =>
      change (tx.mkdir rootDir name ino).2 = _
      rw [mkdir, hopen, hnone]
      rfl
  | false =>
      change (tx.rmdir rootDir name ino).2 = _
      rw [rmdir, hopen, hnone]
      rfl

theorem applyAll_edits
    {l : List ((_ : Name) × (Bool × Uuid))} (hopen : tx.committed = false)
    (hkeys : (l.reverse ++ tx.dentries.entries).NodupKeys) :
    (TxOp.applyAll tx (l.map editOp)).status = tx.status ∧
      (TxOp.applyAll tx (l.map editOp)).fInodes = tx.fInodes ∧
      (TxOp.applyAll tx (l.map editOp)).dentries.entries =
        l.reverse ++ tx.dentries.entries := by
  induction l generalizing tx with
  | nil => exact ⟨rfl, rfl, rfl⟩
  | cons e l ih =>
      rw [List.reverse_cons, List.append_assoc, List.singleton_append] at hkeys ⊢
      have hnew : e.1 ∉ tx.dentries := by
        have hlast := hkeys.sublist (List.sublist_append_right _ _)
        exact (List.nodupKeys_cons.mp hlast).1
      rw [List.map_cons, TxOp.applyAll, apply_editOp hopen hnew]
      have hentries : ((tx.setDentry e.1 e.2.1 e.2.2).recordSelf rootDir).dentries.entries =
          e :: tx.dentries.entries := AList.entries_insert_of_notMem hnew
      have hrest := @ih ((tx.setDentry e.1 e.2.1 e.2.2).recordSelf rootDir) hopen
        (by rw [hentries]; exact hkeys)
      rw [hentries] at hrest
      exact hrest

end Overrun

section Names

/-- The number of a subdirectory. -/
def number (name : Name) : Uuid := ⟨resize name 16, by simp⟩

def additions (names : List Name) : List ((_ : Name) × (Bool × Uuid)) :=
  names.map fun name => ⟨name, true, number name⟩

def removals (names : List Name) : List ((_ : Name) × (Bool × Uuid)) :=
  names.map fun name => ⟨name, false, number name⟩

/-- The directory has some subdirectories. -/
def Lists (l : ChildList) (names : List Name) : Prop :=
  ∀ name ino, l.lookup name = some ino ↔ name ∈ names ∧ ino = number name

/-- A transaction that removes subdirectories and makes others. -/
def edits (old new : List Name) : Transaction :=
  TxOp.applyAll (.new .root) ((removals old ++ additions new).map editOp)

variable {old new names names' : List Name} {l : ChildList}

theorem keys_edits (old new : List Name) :
    (removals old ++ additions new).keys = old ++ new := by
  rw [List.keys, List.map_append, removals, additions, List.map_map, List.map_map]
  exact congr_arg₂ _ (List.map_id _) (List.map_id _)

theorem edits_spec (hnodup : (old ++ new).Nodup) :
    (edits old new).status = .S_UNCHANGED ∧ (edits old new).fInodes = ∅ ∧
      (edits old new).dentries.entries = (removals old ++ additions new).reverse := by
  have hkeys : ((removals old ++ additions new).reverse ++
      (Transaction.new .root).dentries.entries).NodupKeys := by
    have hperm := List.reverse_perm (removals old ++ additions new)
    rw [show (Transaction.new .root).dentries.entries = [] from rfl, List.append_nil,
      List.perm_nodupKeys hperm, List.NodupKeys, keys_edits]
    exact hnodup
  obtain ⟨hstatus, hfiles, hentries⟩ := applyAll_edits rfl hkeys
  exact ⟨hstatus, hfiles, hentries.trans (List.append_nil _)⟩

theorem edits_logged (old new : List Name) :
    LoggedBy .root ((removals old ++ additions new).map editOp) (edits old new) := by
  refine @LoggedBy.applyAll .root [] _ _ .new rfl ?_
  intro op hop s hs
  obtain ⟨⟨name, alive, ino⟩, -, rfl⟩ := List.mem_map.mp hop
  cases alive <;> cases hs <;> exact rootDir_isDirectory

theorem rmself_notMem_edits (l : List ((_ : Name) × (Bool × Uuid))) :
    TxOp.rmself ∉ l.map editOp := by
  intro h
  obtain ⟨⟨name, alive, ino⟩, -, heq⟩ := List.mem_map.mp h
  cases alive <;> cases heq

/-- What the entries of the transaction make of those of the directory. -/
theorem lists_merged
    {l' : ChildList} (hnodup : (old ++ new).Nodup) (hl : Lists l names)
    (hmerged : ∀ name, l'.lookup name = merged (edits old new).dentries l name)
    (hnames : ∀ name, name ∈ names' ↔ name ∈ new ∨ (name ∈ names ∧ name ∉ old)) :
    Lists l' names' := by
  obtain ⟨-, -, hentries⟩ := edits_spec hnodup
  have hlookup : ∀ name alive ino,
      (edits old new).dentries.lookup name = some (alive, ino) ↔
        name ∈ (if alive then new else old) ∧ ino = number name := by
    intro name alive ino
    rw [← Option.mem_def, AList.mem_lookup_iff, hentries, List.mem_reverse,
      List.mem_append, removals, additions, List.mem_map, List.mem_map]
    constructor
    · rintro (⟨_, hold, ⟨⟩⟩ | ⟨_, hnew, ⟨⟩⟩)
      · exact ⟨hold, rfl⟩
      · exact ⟨hnew, rfl⟩
    · rintro ⟨hname, rfl⟩
      cases alive with
      | true => exact .inr ⟨name, hname, rfl⟩
      | false => exact .inl ⟨name, hname, rfl⟩
  intro name ino
  rw [hmerged, merged, hnames]
  cases hchange : (edits old new).dentries.lookup name with
  | none =>
      have hnot : ∀ alive : Bool, name ∉ (if alive then new else old) := by
        intro alive hname
        rw [(hlookup name alive _).mpr ⟨hname, rfl⟩] at hchange
        cases hchange
      have hnew : name ∉ new := hnot true
      have hold : name ∉ old := hnot false
      simp only [hnew, hold, not_false_eq_true, and_true, false_or]
      exact hl name ino
  | some change =>
      obtain ⟨alive, ino'⟩ := change
      obtain ⟨hname, rfl⟩ := (hlookup name alive ino').mp hchange
      cases alive with
      | true =>
          have hnew : name ∈ new := hname
          simp only [hnew, true_or, true_and, Option.some.injEq]
          exact eq_comm
      | false =>
          have hold : name ∈ old := hname
          have hnew : name ∉ new := List.disjoint_of_nodup_append hnodup hold
          simp [hold, hnew]

theorem Lists.perm (hl : Lists l names) (hnodup : names.Nodup) :
    l.entries.Perm (names.map fun name => ⟨name, number name⟩) := by
  have hkeys : (names.map fun name =>
      (⟨name, number name⟩ : (_ : Name) × Uuid)).NodupKeys := by
    rw [List.NodupKeys, List.keys, List.map_map]
    exact (List.map_id names).symm ▸ hnodup
  refine List.lookup_ext l.nodupKeys hkeys fun name ino => ?_
  rw [List.mem_dlookup_iff hkeys, List.mem_map]
  refine (hl name ino).trans ?_
  constructor
  · rintro ⟨hname, rfl⟩
    exact ⟨name, hname, rfl⟩
  · rintro ⟨_, hname, ⟨⟩⟩
    exact ⟨hname, rfl⟩

/-- Names of 255 bytes take 275 bytes of the object. -/
theorem Lists.rawSize
    {ino : Uuid} (hl : Lists l names) (hnodup : names.Nodup)
    (hlen : ∀ name ∈ names, name.length = 255) :
    (⟨ino, l⟩ : Dentry).rawSize = 8 + 275 * names.length := by
  have hperm := hl.perm hnodup
  have hsum : (names.map List.length).sum = names.length * 255 := by
    have hsame : names.map List.length = List.replicate (names.map List.length).length 255 :=
      List.eq_replicate_of_mem (by simpa using hlen)
    rw [hsame, List.sum_replicate_nat, List.length_map]
  rw [Dentry.rawSize, Dentry.getTotalNameLength]
  dsimp only
  rw [(hperm.map _).sum_nat, hperm.length_eq, List.map_map, List.length_map]
  change 8 + names.length * 4 + (names.map List.length).sum + names.length * 16 = _
  omega

theorem dentriesSize_edits
    (hnodup : (old ++ new).Nodup) (hlen : ∀ name ∈ old ++ new, name.length = 255) :
    dentriesSize (edits old new).dentries = 276 * (old ++ new).length := by
  obtain ⟨-, -, hentries⟩ := edits_spec hnodup
  have hsizes : ∀ size ∈ (removals old ++ additions new).reverse.map fun e =>
      (serializeDentry e).length, size = 276 := by
    intro size hsize
    obtain ⟨e, he, rfl⟩ := List.mem_map.mp hsize
    have hkey : e.1 ∈ old ++ new := by
      rw [← keys_edits]
      exact List.mem_map_of_mem (List.mem_reverse.mp he)
    rw [length_serializeDentry, hlen _ hkey]
  have hcount : (removals old ++ additions new).length = (old ++ new).length := by
    rw [← keys_edits, List.keys, List.length_map]
  rw [dentriesSize, hentries, List.length_flatMap, List.eq_replicate_of_mem hsizes,
    List.sum_replicate_nat, List.length_map, List.length_reverse, hcount, Nat.mul_comm]

end Names

/-- A name of 255 bytes, another one for every number below 22000. -/
def longName (i : Nat) : Name :=
  UInt8.ofNat (48 + i / 200) :: UInt8.ofNat (48 + i % 200) :: List.replicate 253 97

def firstNames : List Name := (List.range 11000).map longName

def secondNames : List Name := (List.range' 11000 11000).map longName

/-- 11000 subdirectories are made, and are replaced with 11000 others. -/
def overrunLog : List Transaction := [edits [] firstNames, edits firstNames secondNames]

/-- The root directory has been made, without entries. -/
def bareRoot : Pool := ((⟨.root, ∅⟩ : Dentry).sync.run Pool.handle Pool.empty).2

section Examples

theorem longName_inj {i j : Nat} (hi : i < 22000) (hj : j < 22000)
    (h : longName i = longName j) : i = j := by
  rw [longName, longName, List.cons.injEq, List.cons.injEq] at h
  have hfirst := congrArg UInt8.toNat h.1
  have hsecond := congrArg UInt8.toNat h.2.1
  rw [UInt8.toNat_ofNat', UInt8.toNat_ofNat'] at hfirst hsecond
  omega

theorem allNames : firstNames ++ secondNames = (List.range 22000).map longName := by
  rw [firstNames, secondNames, ← List.map_append, List.range_eq_range',
    List.range_eq_range', List.range'_append_1]

theorem nodup_allNames : (firstNames ++ secondNames).Nodup := by
  rw [allNames]
  refine List.Nodup.map_on ?_ List.nodup_range
  intro i hi j hj
  exact longName_inj (List.mem_range.mp hi) (List.mem_range.mp hj)

theorem nodup_firstNames : ([] ++ firstNames).Nodup := by
  rw [List.nil_append]
  exact nodup_allNames.of_append_left

theorem length_allNames : ∀ name ∈ firstNames ++ secondNames, name.length = 255 := by
  intro name hname
  rw [allNames] at hname
  obtain ⟨i, -, rfl⟩ := List.mem_map.mp hname
  rw [longName, List.length_cons, List.length_cons, List.length_replicate]

theorem noNul_allNames : ∀ name ∈ firstNames ++ secondNames, 0 ∉ name := by
  intro name hname
  rw [allNames] at hname
  obtain ⟨i, hi, rfl⟩ := List.mem_map.mp hname
  rw [List.mem_range] at hi
  rw [longName, List.mem_cons, List.mem_cons, not_or, not_or]
  refine ⟨?_, ?_, fun h => absurd (List.mem_replicate.mp h).2 (by decide)⟩
  · intro h
    have hzero := congrArg UInt8.toNat h
    rw [UInt8.toNat_ofNat', UInt8.toNat_zero] at hzero
    omega
  · intro h
    have hzero := congrArg UInt8.toNat h
    rw [UInt8.toNat_ofNat', UInt8.toNat_zero] at hzero
    omega

/-- What the meta store has for the root. -/
def RootLists (m : MetaStore) (names : List Name) : Prop :=
  ∃ l, m.dentries .root = some l ∧ Lists l names

theorem RootLists.dirFits
    {m : MetaStore} {names : List Name} (h : RootLists m names)
    (hnames : names ⊆ firstNames ++ secondNames) (hnodup : names.Nodup)
    (hcount : names.length ≤ 11000) : DirFits .root m := by
  intro l hl
  obtain ⟨l', hl', hlists⟩ := h
  rw [hl] at hl'
  cases hl'
  constructor
  · rw [hlists.rawSize hnodup fun name hname => length_allNames name (hnames hname), objSize]
    omega
  · intro it hit
    obtain ⟨name, hname, rfl⟩ := List.mem_map.mp ((hlists.perm hnodup).mem_iff.mp hit)
    exact noNul_allNames name (hnames hname)

theorem sync_edits
    {m : MetaStore} {old new names names' : List Name} (h : RootLists m names)
    (hnodup : (old ++ new).Nodup)
    (hnames : ∀ name, name ∈ names' ↔ name ∈ new ∨ (name ∈ names ∧ name ∉ old)) :
    ∃ m', m.sync (edits old new) = .ok m' ∧ RootLists m' names' := by
  obtain ⟨l, hl, hlists⟩ := h
  obtain ⟨hstatus, -, -⟩ := edits_spec hnodup
  obtain ⟨m', l', hsync, hl', hmerged⟩ := sync_entries (edits_logged old new)
    (rmself_notMem_edits _) hstatus hl
  exact ⟨m', hsync, l', hl', lists_merged hnodup hlists hmerged hnames⟩

theorem overrunLog_logged :
    ∀ tx ∈ overrunLog, ∃ ops, LoggedBy .root ops tx ∧ .rmself ∉ ops := by
  intro tx htx
  simp only [overrunLog, List.mem_cons, List.not_mem_nil, or_false] at htx
  rcases htx with htx | htx
  · exact ⟨_, htx ▸ edits_logged _ _, rmself_notMem_edits _⟩
  · exact ⟨_, htx ▸ edits_logged _ _, rmself_notMem_edits _⟩

theorem length_firstNames : firstNames.length = 11000 := by
  rw [firstNames, List.length_map, List.length_range]

theorem length_secondNames : secondNames.length = 11000 := by
  rw [secondNames, List.length_map, List.length_range']

/-- The log, once. -/
theorem sync_overrunLog {m : MetaStore} (h : RootLists m []) :
    ∃ m₁ m₂, m.sync (edits [] firstNames) = .ok m₁ ∧ RootLists m₁ firstNames ∧
      m₁.sync (edits firstNames secondNames) = .ok m₂ ∧ RootLists m₂ secondNames := by
  have hmade : ∀ name, name ∈ firstNames ↔
      name ∈ firstNames ∨ (name ∈ ([] : List Name) ∧ name ∉ ([] : List Name)) := by simp
  have hreplaced : ∀ name, name ∈ secondNames ↔
      name ∈ secondNames ∨ (name ∈ firstNames ∧ name ∉ firstNames) := by simp
  obtain ⟨m₁, hsync₁, hlists₁⟩ := sync_edits h nodup_firstNames hmade
  obtain ⟨m₂, hsync₂, hlists₂⟩ := sync_edits hlists₁ nodup_allNames hreplaced
  exact ⟨m₁, m₂, hsync₁, hlists₁, hsync₂, hlists₂⟩

theorem allFit_overrunLog {m : MetaStore} (h : RootLists m []) :
    AllFit .root m overrunLog := by
  obtain ⟨m₁, m₂, hsync₁, hlists₁, hsync₂, hlists₂⟩ := sync_overrunLog h
  rw [overrunLog, AllFit]
  intro m' hm'
  rw [hsync₁] at hm'
  cases hm'
  refine ⟨hlists₁.dirFits (List.subset_append_left _ _) nodup_allNames.of_append_left
    length_firstNames.le, ?_⟩
  intro m' hm'
  rw [hsync₂] at hm'
  cases hm'
  exact ⟨hlists₂.dirFits (List.subset_append_right _ _) nodup_allNames.of_append_right
    length_secondNames.le, trivial⟩

/-- The first transaction makes the directory twice as large, and the second one
reads it. -/
theorem overrunLog_not_safe
    {p : Pool} {f : FlatStore} {l : ChildList} (hp : Represents p f)
    (hl : Dentry.EntriesIn f .root l) (hlists : Lists l secondNames) :
    ¬ Prog.Safe Pool.handle (syncEach overrunLog) p := by
  have hino : ∀ old new, (edits old new).sIno = .root :=
    fun old new => (edits_logged old new).sIno
  have hlen₁ : ∀ name ∈ [] ++ firstNames, name.length = 255 := by
    intro name hname
    rw [List.nil_append] at hname
    exact length_allNames name (List.mem_append_left _ hname)
  have hsize₁ := dentriesSize_edits nodup_firstNames hlen₁
  have hsize₂ := dentriesSize_edits nodup_allNames length_allNames
  rw [List.nil_append, length_firstNames] at hsize₁
  rw [List.length_append, length_firstNames, length_secondNames] at hsize₂
  obtain ⟨hstatus₁, hfiles₁, -⟩ := edits_spec nodup_firstNames
  obtain ⟨hstatus₂, -, -⟩ := edits_spec nodup_allNames
  obtain ⟨p₁, f₁, d, c, hrun, hp₁, hobj, hnames⟩ := sync_writes hp
    (by rw [hino]; exact hl) hstatus₁ hfiles₁ (by omega)
  have hboth : Lists d.childList (firstNames ++ secondNames) :=
    lists_merged nodup_firstNames hlists hnames (fun name => by simp)
  have hlarge : d.rawSize = _ := hboth.rawSize nodup_allNames length_allNames
  rw [List.length_append, length_firstNames, length_secondNames] at hlarge
  have hperm := hboth.perm nodup_allNames
  intro hsafe
  rw [overrunLog, syncEach, Prog.safe_bind_of_ok hrun] at hsafe
  have hsecond := (Prog.safe_bind_iff.mp hsafe).1
  have hin := (sync_safe_iff hp₁ hstatus₂ (by omega)).1.mp hsecond
  rw [hino] at hin hobj
  have hle := Dentry.rawSize_le_of_objectIn hp₁ hobj ?_ ?_ hin
  · rw [hlarge, objSize] at hle
    omega
  · rw [hperm.length_eq, List.length_map, List.length_append, length_firstNames,
      length_secondNames]
    decide
  · intro it hit
    obtain ⟨name, hname, rfl⟩ := List.mem_map.mp (hperm.mem_iff.mp hit)
    rw [length_allNames name hname]
    decide

/-- The directory fits after each of the transactions, and the replay of both, over
what both have left, reads behind the buffer. -/
theorem replay_overruns :
    ∃ (f : FlatStore) (m : MetaStore) (p₁ : Pool), Represents bareRoot f ∧
      m.StoredIn Set.univ Set.univ f ∧ (m.dentries .root).isSome ∧
      (∀ tx ∈ overrunLog, ∃ ops, LoggedBy .root ops tx ∧ .rmself ∉ ops) ∧
      AllFit .root m overrunLog ∧
      (syncEach (overrunLog.take 2)).run Pool.handle bareRoot = (.ok (), p₁) ∧
      ∃ x, ((syncEach overrunLog).run Pool.handle p₁).1 = .faults x := by
  obtain ⟨p, f, hrun, hp, hm, -⟩ := reaches_syncDentry Represents.empty
    (storedIn_empty Set.univ Set.univ) (Dentry.storable_empty .root) fun _ => rfl
  have hbare : p = bareRoot := by rw [bareRoot, hrun]
  subst hbare
  generalize hmeta : (⟨fun _ => none, fun _ => none⟩ : MetaStore).setDentry .root
    (some ∅) = m at hm
  have hroot : RootLists m [] := by
    refine ⟨∅, by rw [← hmeta, setDentry_self], fun name ino => ?_⟩
    simp [AList.lookup_empty]
  obtain ⟨m₁, m₂, hsync₁, hlists₁, hsync₂, hlists₂⟩ := sync_overrunLog hroot
  have honce : m.syncAll overrunLog = .ok m₂ := by
    rw [overrunLog, syncAll, hsync₁]
    dsimp only
    rw [syncAll, hsync₂]
    rfl
  obtain ⟨p₁, f₁, hrun₁, hp₁, hm₁, -⟩ := reaches_syncEach hp hm.trim (Set.mem_univ _)
    (sound_of_logged overrunLog_logged) (allFit_overrunLog hroot) honce
  have htake : overrunLog.take 2 = overrunLog := by
    rw [overrunLog, List.take_succ_cons, List.take_succ_cons, List.take_zero]
  refine ⟨f, m, p₁, hp, hm, ?_, overrunLog_logged, allFit_overrunLog hroot,
    by rw [htake]; exact hrun₁, ?_⟩
  · obtain ⟨l, hl, -⟩ := hroot
    rw [hl]
    rfl
  · obtain ⟨l, hl, hnames⟩ := hlists₂
    have hunsafe := overrunLog_not_safe hp₁ (hm₁.entries .root trivial l hl) hnames
    obtain ⟨x, hx⟩ := not_forall.mp hunsafe
    exact ⟨x, not_not.mp hx⟩

end Examples

end Transaction

end Nmfs
