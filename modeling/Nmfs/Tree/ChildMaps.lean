import Nmfs.Journal.MetaStore
import Nmfs.Tree.Acyclic

/-!
# The two maps of a table

`child_inodes` refuses a name that it has, the list of `dentries` replaces its
inode number, and the operations ignore what `create_child_inode` and
`delete_child_inode` return.  The two maps agree nevertheless: both methods test
`child_inodes` before they touch the list, and what they put into the list is
the number of the inode.

A table begins as the one of a new directory, or as `pull_child_metadata` makes
it from the objects of a loaded one.
-/

namespace Nmfs

namespace MetaStore

variable {m : MetaStore} {dirIno : Uuid}

/-- The INODE objects hold the numbers that they are found under, and no entry
has the number nil. -/
structure WellFormed (m : MetaStore) : Prop where
  ino : ∀ ino i, m.inodes ino = some i → i.core.ino = ino
  noNil : ∀ ino l name, m.dentries ino = some l → l.lookup name ≠ some .nil

/-- The loop of `pull_child_metadata` makes one child of each entry. -/
theorem pullChildren_lookup
    {l : List ((_ : Name) × Uuid)} {children : AList (fun _ : Name => Inode)}
    (h : m.pullChildren dirIno l = .ok children) (name : Name) :
    match l.dlookup name with
    | none => children.lookup name = none
    | some ino => ∃ i, m.inodes ino = some i ∧
        children.lookup name = some (i.setPIno dirIno) := by
  induction l generalizing children with
  | nil =>
      cases h
      rfl
  | cons it l ih =>
      obtain ⟨n, ino⟩ := it
      simp only [pullChildren] at h
      split at h
      · cases h
      · rename_i childI hchild
        split at h
        · cases h
        · rename_i rest hrest
          cases h
          rcases eq_or_ne name n with rfl | hne
          · rw [List.dlookup_cons_eq]
            refine ⟨childI, ?_, AList.lookup_insert _⟩
            unfold pullInode at hchild
            split at hchild
            · cases hchild
              assumption
            · cases hchild
          · rw [List.dlookup_cons_ne _ _ hne]
            have hih := ih hrest
            rw [AList.lookup_insert_ne hne]
            exact hih

theorem pullChildMetadata_lookup
    {d : Dentry} {children : AList (fun _ : Name => Inode)}
    (h : m.pullChildMetadata dirIno = .ok (d, children)) :
    m.dentries dirIno = some d.childList ∧
      ∀ name, match d.childList.lookup name with
        | none => children.lookup name = none
        | some ino => ∃ i, m.inodes ino = some i ∧
            children.lookup name = some (i.setPIno dirIno) := by
  unfold pullChildMetadata at h
  split at h
  · cases h
  · rename_i d' hd
    split at h
    · cases h
    · rename_i children' hchildren
      cases h
      refine ⟨?_, pullChildren_lookup hchildren⟩
      simp only [loadDentry, Bool.false_eq_true, if_false] at hd
      split at hd
      · rename_i l hl
        cases hd
        exact hl
      · cases hd

theorem pullChildMetadata_agree
    {d : Dentry} {children : AList (fun _ : Name => Inode)}
    (h : m.pullChildMetadata dirIno = .ok (d, children)) (name : Name) :
    (children.lookup name).isSome = (d.childList.lookup name).isSome := by
  have hname := (pullChildMetadata_lookup h).2 name
  cases hl : d.childList.lookup name with
  | none =>
      rw [hl] at hname
      rw [hname]
      rfl
  | some ino =>
      rw [hl] at hname
      obtain ⟨i, -, hi⟩ := hname
      rw [hi]
      rfl

/-- `dentry_table(ino, LOCAL)` and `pull_child_metadata`. -/
def loadTable (m : MetaStore) (dirIno : Uuid) : Except Exn DentryTable :=
  match m.pullInode dirIno with
  | .error e => .error e
  | .ok thisDirInode =>
      match h : m.pullChildMetadata dirIno with
      | .error e => .error e
      | .ok (dentries, childInodes) =>
          .ok ⟨thisDirInode, dentries, childInodes, pullChildMetadata_agree h⟩

end MetaStore

namespace DentryTable

/-- A table at the beginning. -/
inductive Built : DentryTable → Prop
  | mkdir (newDirInode : Inode) : Built (.new newDirInode)
  | load {m : MetaStore} {dirIno : Uuid} {t : DentryTable} (hm : m.WellFormed)
      (h : m.loadTable dirIno = .ok t) : Built t

/-- No entry has the number nil. -/
def NoNil (t : DentryTable) : Prop := ∀ name, t.childIno name ≠ some .nil

theorem loadTable_eq
    {m : MetaStore} {dirIno : Uuid} {t : DentryTable}
    (h : m.loadTable dirIno = .ok t) :
    m.inodes dirIno = some t.thisDirInode ∧
      m.pullChildMetadata dirIno = .ok (t.dentries, t.childInodes) := by
  unfold MetaStore.loadTable at h
  split at h
  · cases h
  · rename_i i hi
    split at h
    · cases h
    · rename_i d c hp
      cases h
      refine ⟨?_, hp⟩
      unfold MetaStore.pullInode at hi
      split at hi
      · cases hi
        assumption
      · cases hi

theorem Built.coherent {t : DentryTable} (h : Built t) : t.Coherent := by
  cases h with
  | mkdir i => exact nofun
  | load hm h =>
      intro name i hi
      have hname := (MetaStore.pullChildMetadata_lookup (loadTable_eq h).2).2 name
      cases hl : t.dentries.childList.lookup name with
      | none =>
          rw [hl] at hname
          cases hname.symm.trans hi
      | some ino =>
          rw [hl] at hname
          obtain ⟨j, hj, hjlookup⟩ := hname
          cases hjlookup.symm.trans hi
          rw [childIno, hl]
          exact congrArg some (hm.ino ino j hj).symm

theorem Built.noNil {t : DentryTable} (h : Built t) : t.NoNil := by
  cases h with
  | mkdir i => exact nofun
  | load hm h =>
      intro name
      exact hm.noNil _ _ name
        (MetaStore.pullChildMetadata_lookup (loadTable_eq h).2).1

/-- The two maps say the same. -/
structure MapsAgree (t : DentryTable) : Prop where
  keys : ∀ name, name ∈ t.childInodes.keys ↔ name ∈ t.dentries.childList.keys
  number : ∀ name i, t.childInodes.lookup name = some i →
    t.childIno name = some i.core.ino
  found : ∀ name, name ≠ rootName →
    (t.checkChildInode name ≠ .nil ↔ ∃ i, t.getChildInode name = .ok i)
  same : ∀ name i, name ≠ rootName → t.getChildInode name = .ok i →
    t.checkChildInode name = i.core.ino
  count : ∃ names : List Name, names.Nodup ∧ names.length = t.getChildNum ∧
    ∀ name, name ∈ names ↔ ∃ i, t.getChildInode name = .ok i

section Agree

variable {t : DentryTable}

theorem getChildInode_ok_iff {name : Name} {i : Inode} :
    t.getChildInode name = .ok i ↔ t.childInodes.lookup name = some i := by
  constructor
  · exact lookup_of_getChildInode
  · intro h
    rw [getChildInode, h]

theorem checkChildInode_eq {name : Name} (h : name ≠ rootName) :
    t.checkChildInode name = (t.childIno name).getD .nil :=
  if_neg h

theorem mapsAgree_of_coherent (hc : t.Coherent) (hn : t.NoNil) : t.MapsAgree := by
  have hkeys : ∀ name, name ∈ t.childInodes.keys ↔
      name ∈ t.dentries.childList.keys := by
    intro name
    rw [← AList.mem_keys, ← AList.mem_keys, ← AList.lookup_isSome,
      ← AList.lookup_isSome, t.agree]
  have hsome : ∀ name, (∃ i, t.getChildInode name = .ok i) ↔
      ∃ ino, t.childIno name = some ino := by
    intro name
    simp only [getChildInode_ok_iff]
    rw [← Option.isSome_iff_exists, ← Option.isSome_iff_exists, childInodes_isSome]
  constructor
  · exact hkeys
  · exact hc
  · intro name hname
    rw [checkChildInode_eq hname, hsome]
    cases hino : t.childIno name with
    | none => simp
    | some ino =>
        have hne : ino ≠ .nil := fun h => hn name (h ▸ hino)
        simpa using hne
  · intro name i hname hi
    rw [checkChildInode_eq hname, hc name i (getChildInode_ok_iff.mp hi)]
    rfl
  · refine ⟨t.dentries.childList.keys, t.dentries.childList.keys_nodup, ?_, ?_⟩
    · rw [AList.keys, List.keys, List.length_map]
      rfl
    · intro name
      rw [hsome, ← AList.mem_keys, ← AList.lookup_isSome,
        Option.isSome_iff_exists]
      rfl

end Agree

end DentryTable

/-- What happens to the tables: the operations, here and at the leaders, the two
methods by themselves, and a directory that a client loads. -/
inductive TableAction where
  | op (env : Env) (op : FsOp)
  | createChildInode (dirIno : Uuid) (filename : Name) (i : Inode)
  | deleteChildInode (dirIno : Uuid) (filename : Name)
  | load (self : Nat) (m : MetaStore) (dirIno : Uuid)

namespace TableAction

/-- The inode numbers that come in are not nil, and a store is well-formed. -/
def NoNil : TableAction → Prop
  | .op _ (.create _ r) | .op _ (.mkdir _ r) | .op _ (.symlink _ _ r) =>
      r.newIno ≠ .nil
  | .op _ _ | .deleteChildInode _ _ => True
  | .createChildInode _ _ i => i.core.ino ≠ .nil
  | .load _ m _ => m.WellFormed

end TableAction

namespace Namespace

open DentryTable

/-- `lease_dentry_table`, for a client that gets the lease. -/
def leaseTable (ns : Namespace) (self : Nat) (t : DentryTable) : Namespace where
  tables := Function.update ns.tables t.dirIno (some t)
  leader := Function.update ns.leader t.dirIno self
  clients := ns.clients

def tableStep : Stepper Namespace TableAction
  | ns, .op env op => some (op.run env ns).2
  | ns, .createChildInode dirIno filename i =>
      (ns.tables dirIno).map fun t =>
        ns.setTable dirIno (t.createChildInode filename i).2 ns.clients
  | ns, .deleteChildInode dirIno filename =>
      (ns.tables dirIno).map fun t =>
        ns.setTable dirIno (t.deleteChildInode filename).2 ns.clients
  | ns, .load self m dirIno =>
      match m.loadTable dirIno with
      | .ok t => some (ns.leaseTable self t)
      | .error _ => none

/-- The numbers behind the links are not nil. -/
def NoNil (ns : Namespace) : Prop := ∀ a, ¬ ns.graph.Edge a .nil

section Steps

variable {ns ns' : Namespace} {env : Env}

theorem NoNil.grows
    {v : Option Uuid} {q : Uuid} (h : ns.NoNil) (hg : Grows v q ns ns')
    (hv : v ≠ some .nil) : ns'.NoNil := by
  intro a ha
  rcases hg.edge a .nil ha with hold | ⟨-, hnew⟩
  · exact h a hold
  · exact hv hnew

/-- An operation brings in no number but that of its request. -/
theorem noNil_op
    {op : FsOp} (hs : ns.Sound) (hn : ns.NoNil)
    (hop : (TableAction.op env op).NoNil) : (op.run env ns).2.NoNil := by
  obtain ⟨v, q, hgrows, hadds⟩ := @grown_step ns env hs op
  refine hn.grows hgrows ?_
  intro hv
  have hx := hadds .nil hv
  cases op with
  | create path r | mkdir path r | symlink src dst r => exact hop hx.1
  | unlink path | rmdir path | commit client => exact hx
  | rename oldPath newPath flags =>
      obtain ⟨_, _, src, _, oldName, i, -, -, hsrc, -, -, hi, hino, -⟩ := hx
      have htable := hs.tables_of_findTable hsrc
      have hchild := hs.coherent _ src htable oldName i hi
      rw [hino] at hchild
      exact hn src.dirIno ⟨oldName, by rw [graph, htable]; exact hchild⟩

theorem sound_leaseTable
    {t : DentryTable} (hs : ns.Sound) (ht : t.Coherent) (self : Nat) :
    (ns.leaseTable self t).Sound := by
  have hcases : ∀ a s, (ns.leaseTable self t).tables a = some s →
      (a = t.dirIno ∧ s = t) ∨ ns.tables a = some s := by
    intro a s h
    rcases eq_or_ne a t.dirIno with rfl | hne
    · simp only [leaseTable, Function.update_self] at h
      exact .inl ⟨rfl, (Option.some.inj h).symm⟩
    · simp only [leaseTable, Function.update_of_ne hne] at h
      exact .inr h
  constructor
  · intro a s h
    rcases hcases a s h with ⟨rfl, rfl⟩ | hold
    · rfl
    · exact hs.dirIno a s hold
  · intro a s h
    rcases hcases a s h with ⟨rfl, rfl⟩ | hold
    · exact ht
    · exact hs.coherent a s hold

theorem noNil_leaseTable
    {t : DentryTable} (hn : ns.NoNil) (ht : t.NoNil) (self : Nat) :
    (ns.leaseTable self t).NoNil := by
  rintro a ⟨name, hname⟩
  rw [graph] at hname
  rcases eq_or_ne a t.dirIno with rfl | hne
  · simp only [leaseTable, Function.update_self] at hname
    exact ht name hname
  · simp only [leaseTable, Function.update_of_ne hne] at hname
    exact hn a ⟨name, hname⟩

theorem tableStep_invariant :
    tableStep.InvariantUnder (fun _ a => a.NoNil)
      fun ns => ns.Sound ∧ ns.NoNil := by
  rintro ns a ns' ⟨hs, hn⟩ ha hstep
  cases a with
  | op env op =>
      cases hstep
      exact ⟨sound_step hs, noNil_op hs hn ha⟩
  | createChildInode dirIno filename i =>
      simp only [tableStep, Option.map_eq_some_iff] at hstep
      obtain ⟨t, ht, rfl⟩ := hstep
      have hg := grows_setTable ht (gains_createChildInode t filename i) ns.clients
      refine ⟨hg.sound hs, hn.grows hg ?_⟩
      intro hnil
      exact ha (Option.some.inj hnil)
  | deleteChildInode dirIno filename =>
      simp only [tableStep, Option.map_eq_some_iff] at hstep
      obtain ⟨t, ht, rfl⟩ := hstep
      have hg := grows_setTable ht (gains_deleteChildInode (v := none) t filename)
        ns.clients
      exact ⟨hg.sound hs, hn.grows hg nofun⟩
  | load self m dirIno =>
      simp only [tableStep] at hstep
      split at hstep
      · rename_i t hload
        cases hstep
        have hbuilt : Built t := .load ha hload
        exact ⟨sound_leaseTable hs hbuilt.coherent self,
          noNil_leaseTable hn hbuilt.noNil self⟩
      · cases hstep

end Steps

/-- **The two child maps agree**, in every table of every run. -/
theorem child_maps_agree
    {ns ns' : Namespace} {as : List TableAction}
    (hbuilt : ∀ ino t, ns.tables ino = some t → t.dirIno = ino ∧ Built t)
    (has : ∀ a ∈ as, a.NoNil) (hrun : tableStep.runFrom ns as = some ns')
    {ino : Uuid} {t : DentryTable} (ht : ns'.tables ino = some t) :
    t.MapsAgree := by
  have hs : ns.Sound :=
    ⟨fun ino t ht => (hbuilt ino t ht).1, fun ino t ht => (hbuilt ino t ht).2.coherent⟩
  have hn : ns.NoNil := by
    rintro a ⟨name, hname⟩
    rw [graph, Option.bind_eq_some_iff] at hname
    obtain ⟨t, ht, hnil⟩ := hname
    exact (hbuilt a t ht).2.noNil name hnil
  obtain ⟨hs', hn'⟩ := tableStep_invariant.runFrom ⟨hs, hn⟩
    (.of_mem (fun a ha _ => has a ha) ns) hrun
  refine mapsAgree_of_coherent (hs'.coherent ino t ht) ?_
  intro name hname
  exact hn' ino ⟨name, by rw [graph, ht]; exact hname⟩

section Examples

theorem emptyTree_built
    (ino : Uuid) (t : DentryTable) (h : emptyTree.tables ino = some t) :
    t.dirIno = ino ∧ Built t := by
  refine ⟨emptyTree_sound.dirIno ino t h, ?_⟩
  unfold emptyTree at h
  dsimp only at h
  rcases eq_or_ne ino .root with rfl | hne
  · rw [Function.update_self] at h
    cases h
    exact .mkdir _
  · rw [Function.update_of_ne hne] at h
    cases h

/-- The directory `a` is made, and renamed to `b`. -/
theorem child_maps_agree_rename :
    ∃ ns, tableStep.runFrom emptyTree [.op firstClient makeDir,
        .op firstClient (.rename [47, 97] [47, 98] 0)] = some ns ∧
      (ns.tables .root).isSome ∧ ∀ t, ns.tables .root = some t → t.MapsAgree := by
  have has : ∀ a ∈ [TableAction.op firstClient makeDir,
      .op firstClient (.rename [47, 97] [47, 98] 0)], a.NoNil := by
    intro a ha
    simp only [List.mem_cons, List.not_mem_nil, or_false] at ha
    rcases ha with rfl | rfl
    · exact show Directory.inoA ≠ Uuid.nil by decide
    · trivial
  exact ⟨_, rfl, rfl, fun t ht => child_maps_agree emptyTree_built has rfl ht⟩

end Examples

end Namespace

end Nmfs
