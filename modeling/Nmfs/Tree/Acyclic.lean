import Nmfs.Lib.Transitions
import Nmfs.Tree.Growth
import Nmfs.Tree.RenameAnswers

/-!
# Cycles in the tree of directories

Only `local_rename_same_parent` tests whether the new path lies inside the old
one, and it is called for two names of one directory, of which neither lies
inside the other.  A rename of a directory to a place below it takes another
path, and gives the directory an entry below itself.

Nothing else closes a cycle (`acyclic_step`).
-/

namespace Nmfs

namespace Namespace

open Directory DentryTable Nmfs.Path

/-- The links of the tables. -/
def graph (ns : Namespace) : Links Uuid Name :=
  fun ino name => (ns.tables ino).bind (·.childIno name)

/-- No directory is its own descendant. -/
def Acyclic (ns : Namespace) : Prop := ns.graph.Acyclic

/-- The tables are those of their directories, and the inodes in them those that
the links name. -/
structure Sound (ns : Namespace) : Prop where
  dirIno : ∀ ino t, ns.tables ino = some t → t.dirIno = ino
  coherent : ∀ ino t, ns.tables ino = some t → t.Coherent

/-- The links of `ns'` are links of `ns`, or lead from `q` to `v`. -/
structure Grows (v : Option Uuid) (q : Uuid) (ns ns' : Namespace) : Prop where
  edge : ∀ a b, ns'.graph.Edge a b → ns.graph.Edge a b ∨ a = q ∧ v = some b
  sound : ns.Sound → ns'.Sound

section Grows

variable {v : Option Uuid} {q x : Uuid} {ns ns' ns'' : Namespace}

theorem Grows.refl (ns : Namespace) : Grows v q ns ns :=
  ⟨fun _ _ h => .inl h, id⟩

theorem Grows.trans (h : Grows v q ns ns') (h' : Grows v q ns' ns'') :
    Grows v q ns ns'' where
  edge a b hab := by
    rcases h'.edge a b hab with hold | hnew
    · exact h.edge a b hold
    · exact .inr hnew
  sound hs := h'.sound (h.sound hs)

/-- What grows nowhere may grow anywhere. -/
theorem Grows.any {p : Uuid} (h : Grows none p ns ns') : Grows v q ns ns' where
  edge a b hab := .inl ((h.edge a b hab).resolve_right fun hnew => nomatch hnew.2)
  sound := h.sound

theorem Grows.acyclic_of_none (h : Grows none q ns ns') (ha : ns.Acyclic) :
    ns'.Acyclic :=
  Links.Acyclic.mono ha fun a b hab =>
    (h.edge a b hab).resolve_right fun hnew => nomatch hnew.2

/-- A new link closes no cycle unless it leads upwards. -/
theorem Grows.acyclic
    (h : Grows (some x) q ns ns') (ha : ns.Acyclic) (hfree : ¬ ns.graph.Reach x q) :
    ns'.Acyclic := by
  refine Links.Acyclic.link ha ?_ hfree
  intro a b hab
  rcases h.edge a b hab with hold | ⟨hq, hx⟩
  · exact .inl hold
  · cases hx
    exact .inr ⟨hq, rfl⟩

/-- One table has changed. -/
theorem grows_setTable
    {t t' : DentryTable} {ino : Uuid} (ht : ns.tables ino = some t)
    (h : Gains v t t') (clients : Nat → Client) :
    Grows v ino ns (ns.setTable ino t' clients) where
  edge a b := by
    rintro ⟨n, hn⟩
    simp only [graph, setTable] at hn
    rcases eq_or_ne a ino with rfl | hne
    · rw [Function.update_self] at hn
      rcases h.child n b hn with hold | hnew
      · exact .inl ⟨n, by rw [graph, ht]; exact hold⟩
      · exact .inr ⟨rfl, hnew⟩
    · rw [Function.update_of_ne hne] at hn
      exact .inl ⟨n, hn⟩
  sound hs := by
    constructor
    · intro a s hs'
      simp only [setTable] at hs'
      rcases eq_or_ne a ino with rfl | hne
      · rw [Function.update_self] at hs'
        cases hs'
        rw [h.dirIno]
        exact hs.dirIno _ t ht
      · rw [Function.update_of_ne hne] at hs'
        exact hs.dirIno a s hs'
    · intro a s hs'
      simp only [setTable] at hs'
      rcases eq_or_ne a ino with rfl | hne
      · rw [Function.update_self] at hs'
        cases hs'
        exact h.coherent (hs.coherent _ t ht)
      · rw [Function.update_of_ne hne] at hs'
        exact hs.coherent a s hs'

/-- The clients play no part in it. -/
theorem grows_clients (ns : Namespace) (clients : Nat → Client) :
    Grows v q ns { ns with clients := clients } where
  edge _ _ h := .inl h
  sound hs := ⟨hs.dirIno, hs.coherent⟩

theorem grows_deleteTable (ns : Namespace) (ino : Uuid) :
    Grows v q ns (ns.deleteTable ino) where
  edge a b := by
    rintro ⟨n, hn⟩
    simp only [graph, deleteTable] at hn
    rcases eq_or_ne a ino with rfl | hne
    · rw [Function.update_self] at hn
      cases hn
    · rw [Function.update_of_ne hne] at hn
      exact .inl ⟨n, hn⟩
  sound hs := by
    have hsub : ∀ a s, (ns.deleteTable ino).tables a = some s →
        ns.tables a = some s := by
      intro a s hs'
      simp only [deleteTable] at hs'
      rcases eq_or_ne a ino with rfl | hne
      · rw [Function.update_self] at hs'
        cases hs'
      · rw [Function.update_of_ne hne] at hs'
        exact hs'
    exact ⟨fun a s h => hs.dirIno a s (hsub a s h),
      fun a s h => hs.coherent a s (hsub a s h)⟩

/-- A new directory has no entries. -/
theorem grows_addTable (ns : Namespace) (self : Nat) (i : Inode) :
    Grows v q ns (ns.addTable self i) where
  edge a b := by
    rintro ⟨n, hn⟩
    simp only [graph, addTable] at hn
    rcases eq_or_ne a i.core.ino with rfl | hne
    · rw [Function.update_self] at hn
      simp [DentryTable.new, childIno] at hn
    · rw [Function.update_of_ne hne] at hn
      exact .inl ⟨n, hn⟩
  sound hs := by
    constructor
    · intro a s hs'
      simp only [addTable] at hs'
      rcases eq_or_ne a i.core.ino with rfl | hne
      · rw [Function.update_self] at hs'
        cases hs'
        rfl
      · rw [Function.update_of_ne hne] at hs'
        exact hs.dirIno a s hs'
    · intro a s hs'
      simp only [addTable] at hs'
      rcases eq_or_ne a i.core.ino with rfl | hne
      · rw [Function.update_self] at hs'
        cases hs'
        intro n j hj
        simp [DentryTable.new] at hj
      · rw [Function.update_of_ne hne] at hs'
        exact hs.coherent a s hs'

theorem tables_of_getDentryTable
    {env : Env} {ino : Uuid} {t : DentryTable}
    (h : ns.getDentryTable env ino = .ok t) : ns.tables ino = some t := by
  unfold getDentryTable at h
  split at h
  · rename_i s hs
    cases h
    exact hs
  · cases h

/-- A table that has been found is that of its directory. -/
theorem Sound.tables_of_findTable
    (hs : ns.Sound) {env : Env} {path : Bytes} {t : DentryTable}
    (h : ns.findTable env path = .ok t) : ns.tables t.dirIno = some t := by
  unfold findTable at h
  split at h
  · cases h
  · rename_i ino _
    have ht := tables_of_getDentryTable h
    rw [hs.dirIno ino t ht]
    exact ht

theorem Sound.tables_of_findParent
    (hs : ns.Sound) {env : Env} {path : Bytes} {t : DentryTable} {name : Name}
    (h : ns.findParent env path = .ok (t, name)) : ns.tables t.dirIno = some t := by
  unfold findParent at h
  split at h
  · cases h
  · cases h
  · split at h
    · cases h
    · rename_i hfind
      cases h
      exact hs.tables_of_findTable hfind

/-- What has no table leads nowhere. -/
theorem not_reach_of_tables
    {t : DentryTable} (hx : ns.tables x = none) (hq : ns.tables q = some t) :
    ¬ ns.graph.Reach x q := by
  intro h
  have hleaf : ∀ n, ns.graph x n = none := by
    intro n
    rw [graph, hx]
    rfl
  rw [Links.eq_of_reach_leaf hleaf h, hx] at hq
  cases hq

end Grows

section Operations

variable {ns : Namespace} {env : Env} {t : DentryTable}

theorem grows_apply
    {op : NsOp} (h : op.isRename = false) (ht : ns.tables t.dirIno = some t) :
    Grows op.newIno? t.dirIno ns (ns.apply env op t).2 := by
  unfold apply
  split
  · exact grows_setTable ht (NsOp.gains_perform h env.ts (ns.directory t)) _
  · have hput := grows_setTable ht (NsOp.gains_handle h env.ts (ns.directory t)
      (ns.clients env.self)) (Function.update ns.clients (ns.leader t.dirIno)
        { ns.clients (ns.leader t.dirIno) with
          journal := (op.handle env.ts (ns.directory t)
            (ns.clients env.self)).2.journal })
    dsimp only
    split
    · exact hput.trans (grows_clients _ _)
    · exact hput

theorem grows_renameSameParent
    (hs : ns.Sound) (ht : ns.tables t.dirIno = some t) (oldPath newPath : Bytes)
    (flags : UInt32) :
    Grows none t.dirIno ns (ns.renameSameParent env t oldPath newPath flags).2 := by
  -- the link that is new leads where another one has led
  have hold : ∀ (v : Option Uuid) (t' : DentryTable) clients,
      (∀ u, v = some u → ∃ n i, t.childInodes.lookup n = some i ∧ i.core.ino = u) →
      Gains v t t' → Grows none t.dirIno ns (ns.setTable t.dirIno t' clients) := by
    intro v t' clients hv hgains
    have hgrows := grows_setTable ht hgains clients
    refine ⟨?_, hgrows.sound⟩
    intro a b hab
    rcases hgrows.edge a b hab with h | ⟨rfl, hb⟩
    · exact .inl h
    · obtain ⟨n, i, hi, rfl⟩ := hv b hb
      exact .inl ⟨n, by rw [graph, ht]; exact hs.coherent _ t ht n i hi⟩
  unfold renameSameParent
  split
  · obtain ⟨v, hv, hgains⟩ := @gains_localRenameSameParent (ns.directory t) oldPath
      newPath flags env.ts
    exact hold v _ _ hv hgains
  · obtain ⟨v, hv, hgains⟩ := @gains_rpcRenameSameParent (ns.directory t) oldPath
      newPath flags
    exact hold v _ _ hv hgains

theorem grows_renameDst
    (src : DentryTable) (dstIno : Uuid) (targetI : Inode) (checkDstIno : Uuid)
    (newName : Name) (flags : UInt32) :
    Grows (some targetI.core.ino) dstIno ns
      (ns.renameDst env src dstIno targetI checkDstIno newName flags).2 := by
  unfold renameDst
  split
  · exact .refl ns
  · rename_i dst hdst
    have hgains := Parents.gains_renameDst ⟨src, dst, ns.clients⟩ (ns.leader dstIno)
      (ns.leader dstIno = env.self) targetI checkDstIno newName flags
    exact grows_setTable (tables_of_getDentryTable hdst) hgains _

theorem grows_removeName
    (parentIno targetIno : Uuid) (targetName : Name) :
    Grows none parentIno ns
      (ns.removeName env parentIno targetIno targetName).2 := by
  unfold removeName
  split
  · exact .refl ns
  · rename_i parent hparent
    exact grows_setTable (tables_of_getDentryTable hparent)
      (gains_rmdirDownHalf (ns.place env parentIno) targetIno targetName env.ts
        (ns.directory parent)) _

theorem grows_removeDir
    (ht : ns.tables t.dirIno = some t) (parentIno targetIno : Uuid)
    (targetName : Name) :
    Grows none parentIno ns
      (ns.removeDir env parentIno t targetIno targetName).2 := by
  have htop : Grows none parentIno ns (ns.put t.dirIno
      (rmdirTopHalf (ns.place env t.dirIno) (ns.directory t)).2) := by
    refine (grows_setTable ht (v := none) ?_ _).any
    rw [rmdirTopHalf_table]
    exact .refl t
  unfold removeDir
  dsimp only
  split
  · exact (htop.trans (grows_deleteTable _ _)).trans (grows_removeName _ _ _)
  · exact htop

/-- What a rename moves, and the directory to which it moves it. -/
def Moves (ns : Namespace) (env : Env) (oldPath newPath : Bytes) (x q : Uuid) :
    Prop :=
  ∃ srcParent dstParent src dst oldName i,
    getParentDirPath oldPath = .ok srcParent ∧
    getParentDirPath newPath = .ok dstParent ∧
    ns.findTable env srcParent = .ok src ∧ ns.findTable env dstParent = .ok dst ∧
    getFilenameFromPath oldPath = .ok oldName ∧
    src.childInodes.lookup oldName = some i ∧ i.core.ino = x ∧ dst.dirIno = q

/-- The links of a rename between two directories: one at most is new, to what
the old name has led to. -/
theorem grows_renameNotSameParent
    {src dst : DentryTable} (hsrc : ns.tables src.dirIno = some src)
    (oldName newName : Name) (flags : UInt32) :
    ∃ v, Grows v dst.dirIno ns
        (ns.renameNotSameParent env src dst oldName newName flags).2 ∧
      ∀ x, v = some x → ∃ i, src.childInodes.lookup oldName = some i ∧
        i.core.ino = x := by
  let p : Parents := ⟨src, dst, ns.clients⟩
  let x := p.renameSrc (ns.leader src.dirIno) (ns.leader src.dirIno = env.self)
    oldName flags
  have htaken : Grows none src.dirIno ns
      (ns.setTable src.dirIno x.2.src x.2.clients) :=
    grows_setTable hsrc (Parents.gains_renameSrc p _ _ oldName flags) _
  unfold renameNotSameParent
  dsimp only
  split
  · exact ⟨none, htaken.any, nofun⟩
  · rename_i targetI loc hx
    obtain ⟨i, hi, hcore⟩ := Parents.renameSrc_ino hx
    refine ⟨some targetI.core.ino, htaken.any.trans (grows_renameDst x.2.src dst.dirIno
      targetI _ newName flags), ?_⟩
    rintro u ⟨⟩
    exact ⟨i, hi, by rw [hcore]⟩

end Operations

end Namespace

namespace FsOp

open Namespace Nmfs.Path

/-- The link that an operation may add: to a new inode number, or to the one that
is moved. -/
def Adds (ns : Namespace) (env : Env) : FsOp → Uuid → Uuid → Prop
  | .create _ r, x, q | .mkdir _ r, x, q | .symlink _ _ r, x, q =>
      r.newIno = x ∧ (ns.tables q).isSome
  | .rename oldPath newPath _, x, q => ns.Moves env oldPath newPath x q
  | .unlink _, _, _ | .rmdir _, _, _ | .commit _, _, _ => False

/-- A new inode number is one that no directory has. -/
def Fresh (ns : Namespace) : FsOp → Prop
  | .create _ r | .mkdir _ r | .symlink _ _ r => ns.tables r.newIno = none
  | .unlink _ | .rmdir _ | .rename _ _ _ | .commit _ => True

/-- No rename moves a directory into itself or to a place below it. -/
def MovesOutside (ns : Namespace) (env : Env) : FsOp → Prop
  | .rename oldPath newPath _ => ∀ x q, ns.Moves env oldPath newPath x q →
      ¬ ns.graph.Reach x q
  | .create _ _ | .mkdir _ _ | .symlink _ _ _ | .unlink _ | .rmdir _ | .commit _ =>
      True

end FsOp

namespace Namespace

open Directory DentryTable Nmfs.Path

/-- The operations of the clients, one after the other. -/
def step : Stepper Namespace (Env × FsOp) := fun ns a => some (a.2.run a.1 ns).2

/-- A step that closes no cycle. -/
def Allowed (ns : Namespace) (a : Env × FsOp) : Prop :=
  a.2.Short ∧ a.2.Fresh ns ∧ a.2.MovesOutside ns a.1

/-- One link at most is new, and it is one that satisfies `adds`. -/
def Grown (adds : Uuid → Uuid → Prop) (ns ns' : Namespace) : Prop :=
  ∃ v q, Grows v q ns ns' ∧ ∀ x, v = some x → adds x q

section Steps

variable {adds : Uuid → Uuid → Prop} {ns ns' : Namespace} {env : Env}

theorem Grows.grown {q : Uuid} (h : Grows none q ns ns') : Grown adds ns ns' :=
  ⟨none, q, h, nofun⟩

theorem Grown.refl (ns : Namespace) : Grown adds ns ns :=
  (Grows.refl (q := .nil) ns).grown

theorem grown_change
    (hs : ns.Sound) {path : Bytes} {op : Name → NsOp}
    (hop : ∀ name, (op name).isRename = false)
    (hadds : ∀ name x q, (op name).newIno? = some x → (ns.tables q).isSome →
      adds x q) :
    Grown adds ns (ns.change env path op).2 := by
  unfold change
  split
  · exact .refl ns
  · rename_i t name hfind
    have ht := hs.tables_of_findParent hfind
    exact ⟨_, _, grows_apply (hop name) ht,
      fun x hx => hadds name x _ hx (by rw [ht]; rfl)⟩

theorem grown_mkdir
    (hs : ns.Sound) (path : Bytes) {r : Request}
    (hadds : ∀ q, (ns.tables q).isSome → adds r.newIno q) :
    Grown adds ns (ns.mkdir env path r).2 := by
  unfold mkdir
  split
  · exact .refl ns
  · rename_i t name hfind
    have ht := hs.tables_of_findParent hfind
    have happly : Grows (some r.newIno) t.dirIno ns
        (ns.apply env (.mkdir { r with name := name }) t).2 :=
      @grows_apply ns env t (.mkdir { r with name := name }) rfl ht
    have hlink : ∀ x, some r.newIno = some x → adds x t.dirIno := by
      rintro x ⟨⟩
      exact hadds _ (by rw [ht]; rfl)
    dsimp only
    split
    · exact ⟨_, _, happly.trans (grows_addTable _ env.self
        (ns.newDirInode env t { r with name := name })), hlink⟩
    · exact ⟨_, _, happly, hlink⟩

theorem grown_rmdir (hs : ns.Sound) (path : Bytes) :
    Grown adds ns (ns.rmdir env path).2 := by
  unfold rmdir
  split
  · exact .refl ns
  · rename_i parent targetName _
    dsimp only
    split
    · exact .refl ns
    · split
      · split
        · exact .refl ns
        · rename_i target htarget
          have ht := tables_of_getDentryTable htarget
          have hdir := hs.dirIno _ _ ht
          exact (grows_removeDir (by rw [hdir]; exact ht) parent.dirIno
            (parent.checkChildInode targetName) targetName).grown
      · exact .refl ns

theorem grown_rename (hs : ns.Sound) (oldPath newPath : Bytes) (flags : UInt32) :
    Grown (ns.Moves env oldPath newPath) ns
      (ns.rename env oldPath newPath flags).2 := by
  unfold rename
  split
  · exact .refl ns
  · split
    · exact .refl ns
    · exact .refl ns
    · rename_i srcParent dstParent hsrcParent hdstParent
      split
      · split
        · exact .refl ns
        · rename_i t hfind
          exact (grows_renameSameParent hs (hs.tables_of_findTable hfind) oldPath newPath
            flags).grown
      · split
        · exact .refl ns
        · exact .refl ns
        · rename_i src dst hsrc hdst
          split
          · exact .refl ns
          · exact .refl ns
          · rename_i oldName newName hold hnew
            obtain ⟨v, hgrows, hv⟩ := @grows_renameNotSameParent ns env src dst
              (hs.tables_of_findTable hsrc) oldName newName flags
            refine ⟨v, dst.dirIno, hgrows, ?_⟩
            intro x hx
            obtain ⟨i, hi, hino⟩ := hv x hx
            exact ⟨srcParent, dstParent, src, dst, oldName, i, hsrcParent, hdstParent,
              hsrc, hdst, hold, hi, hino, rfl⟩

/-- What a step adds. -/
theorem grown_step (hs : ns.Sound) (op : FsOp) :
    Grown (op.Adds ns env) ns (op.run env ns).2 := by
  cases op with
  | create path r =>
      simp only [FsOp.run, create]
      split
      · exact .refl ns
      · exact grown_change hs (fun _ => rfl) fun _ _ _ hx hq => ⟨Option.some.inj hx, hq⟩
  | mkdir path r => exact grown_mkdir hs path fun _ hq => ⟨rfl, hq⟩
  | symlink src dst r =>
      exact grown_change hs (fun _ => rfl) fun _ _ _ hx hq => ⟨Option.some.inj hx, hq⟩
  | unlink path => exact grown_change hs (fun _ => rfl) nofun
  | rmdir path => exact grown_rmdir hs path
  | rename oldPath newPath flags => exact grown_rename hs oldPath newPath flags
  | commit client => exact (grows_clients (q := .nil) ns _).grown

theorem sound_step {op : FsOp} (hs : ns.Sound) : (op.run env ns).2.Sound := by
  obtain ⟨v, q, hgrows, -⟩ := @grown_step ns env hs op
  exact hgrows.sound hs

/-- A step that is allowed keeps the tree free of cycles: its new link does not
lead upwards. -/
theorem acyclic_step :
    step.InvariantUnder Allowed fun ns => ns.Sound ∧ ns.Acyclic := by
  rintro ns ⟨env, op⟩ ns' ⟨hs, ha⟩ ⟨-, hfresh, hfree⟩ hstep
  cases hstep
  obtain ⟨v, q, hgrows, hadds⟩ := @grown_step ns env hs op
  refine ⟨hgrows.sound hs, ?_⟩
  cases v with
  | none => exact hgrows.acyclic_of_none ha
  | some x =>
      refine hgrows.acyclic ha ?_
      have hx := hadds x rfl
      cases op with
      | create path r | mkdir path r | symlink src dst r =>
          obtain ⟨rfl, hq⟩ := hx
          obtain ⟨t, ht⟩ := Option.isSome_iff_exists.mp hq
          exact not_reach_of_tables hfresh ht
      | rename oldPath newPath flags => exact hfree x q hx
      | unlink path | rmdir path | commit client => exact hx.elim

end Steps

/-- A path inside another one is not refused: `fuse_ops::rename` never returns
`-EINVAL` for it.  But the tree stays acyclic in every run in which no rename moves
a directory into itself or to a place below it. -/
theorem acyclic_unless_moved_inside (ns : Namespace) :
    (∀ env ds es flags, (FsOp.rename (ofNames ds) (ofNames (ds ++ es)) flags).Short →
      (∀ d ∈ ds, IsName d) → (∀ e ∈ es, IsName e) → es ≠ [] →
      (ns.rename env (ofNames ds) (ofNames (ds ++ es)) flags).1 ≠
        .ret (-EINVAL)) ∧
      ∀ as ns', ns.Sound → ns.Acyclic → step.Steps Allowed ns as →
        step.runFrom ns as = some ns' → ns'.Acyclic := by
  constructor
  · intro env ds es flags _ hds hes hne h
    rcases ns.coded_rename env (ofNames ds) (ofNames (ds ++ es)) flags _ h with
      hcode | ⟨⟨⟨parent, hold, hnew⟩, hinside⟩, -⟩
    · exact absurd hcode (by decide)
    · rw [not_inside_ofNames hds hes hne hold hnew] at hinside
      cases hinside
  · intro as ns' hs ha hsteps hrun
    exact (acyclic_step.runFrom ⟨hs, ha⟩ hsteps hrun).2

section Examples

/-- The root directory alone. -/
def emptyTree : Namespace where
  tables := Function.update (fun _ => none) .root (some emptyRoot.table)
  leader _ := 0
  clients _ := ⟨.new, 1000, 1000⟩

/-- The client with the number 0. -/
def firstClient : Env where
  self := 0
  ts := ⟨1700000002, 0⟩
  unbuilt _ := needRecovery

theorem emptyTree_sound : emptyTree.Sound where
  dirIno ino t h := by
    unfold emptyTree at h
    dsimp only at h
    rcases eq_or_ne ino .root with rfl | hne
    · rw [Function.update_self] at h
      cases h
      rfl
    · rw [Function.update_of_ne hne] at h
      cases h
  coherent ino t h := by
    unfold emptyTree at h
    dsimp only at h
    rcases eq_or_ne ino .root with rfl | hne
    · rw [Function.update_self] at h
      cases h
      exact nofun
    · rw [Function.update_of_ne hne] at h
      cases h

theorem emptyTree_acyclic : emptyTree.Acyclic := by
  intro v hv
  obtain ⟨u, -, name, hname⟩ := Relation.TransGen.tail'_iff.mp hv
  rw [graph, emptyTree] at hname
  dsimp only at hname
  rcases eq_or_ne u .root with rfl | hne
  · rw [Function.update_self] at hname
    cases hname
  · rw [Function.update_of_ne hne] at hname
    cases hname

/-- The directory `a` is made in the root directory. -/
def makeDir : FsOp :=
  .mkdir [47, 97] { requestFor inoA with mode := 0o755 }

/-- It is moved into a second directory `b`, as `c`. -/
def moveDir : List (Env × FsOp) :=
  [(firstClient, makeDir),
    (firstClient, .mkdir [47, 98] { requestFor inoB with mode := 0o755 }),
    (firstClient, .rename [47, 97] [47, 98, 47, 99] 0)]

theorem moveDir_acyclic :
    ∃ ns, step.runFrom emptyTree moveDir = some ns ∧ ns.Acyclic ∧
      ns.graph.Edge inoB inoA := by
  have hallowed : step.Steps Allowed emptyTree moveDir := by
    refine .cons ⟨by decide, rfl, trivial⟩ rfl (.cons ⟨by decide, rfl, trivial⟩ rfl
      (.cons ⟨by decide, trivial, ?_⟩ rfl trivial))
    rintro x q ⟨srcParent, dstParent, src, dst, oldName, i, hsrcParent, hdstParent, hsrc,
      hdst, hname, hi, rfl, rfl⟩ hreach
    cases hsrcParent
    cases hdstParent
    cases hsrc
    cases hdst
    cases hname
    cases hi
    -- nothing is in the directory `a`
    exact absurd (Links.eq_of_reach_leaf (fun _ => rfl) hreach) (by decide)
  have hacyclic := (acyclic_unless_moved_inside emptyTree).2 moveDir _ emptyTree_sound
    emptyTree_acyclic hallowed rfl
  exact ⟨_, rfl, hacyclic, [99], by decide⟩

/-- The directory `a` is renamed to `b` in itself. -/
theorem rename_into_itself :
    let ns := (makeDir.run firstClient emptyTree).2
    (ns.rename firstClient [47, 97] [47, 97, 47, 98] 0).1 = .ret 0 ∧
      ¬ (ns.rename firstClient [47, 97] [47, 97, 47, 98] 0).2.Acyclic := by
  intro ns
  refine ⟨by decide, ?_⟩
  intro h
  exact h inoA (.single ⟨[98], by decide⟩)

end Examples

end Namespace

end Nmfs
