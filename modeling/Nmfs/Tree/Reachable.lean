import Nmfs.Tree.Acyclic
import Nmfs.Tree.Losses

/-!
# Files that stay reachable

`rmdir` asks the leader of a directory whether it is empty.  A rename that
replaces a directory does not: the two halves treat what has the new name as a
file, whose entry is removed, and what lies below it is not reached any more.

Apart from that, and from renames that are refused between their halves, no
operation makes a file unreachable but one that names it (`kept_step`).
-/

namespace Nmfs

namespace Namespace

open Directory DentryTable Nmfs.Path

/-- A link leads to the inode number. -/
def Linked (ns : Namespace) (x : Uuid) : Prop := ∃ a, ns.graph.Edge a x

/-- Nothing lies below the inode number. -/
def Empty (ns : Namespace) (x : Uuid) : Prop := ∀ n, ns.graph x n = none

/-- The links of `ns`, except for those in `lost`, are links of `ns'`. -/
def Retains (lost : Uuid → Name → Prop) (ns ns' : Namespace) : Prop :=
  ∀ a n b, ns.graph a n = some b → ¬ lost a n → ns'.graph a n = some b

/-- What is reached from the root directory stays reachable, and what is linked
stays linked, except for what is `gone`. -/
structure Kept (gone : Uuid → Prop) (ns ns' : Namespace) : Prop where
  reach : ∀ v, ns.graph.Reach .root v → ¬ gone v → ns'.graph.Reach .root v
  linked : ∀ v, ns.Linked v → ¬ gone v → ns'.Linked v

section Retains

variable {lost : Uuid → Name → Prop} {gone : Uuid → Prop} {ns ns' ns'' : Namespace}
  {p src dst x : Uuid} {n old new : Name}

theorem Retains.refl (ns : Namespace) : Retains lost ns ns := fun _ _ _ h _ => h

theorem Retains.trans (h : Retains lost ns ns') (h' : Retains lost ns' ns'') :
    Retains lost ns ns'' :=
  fun a n b hb hl => h' a n b (h a n b hb hl) hl

theorem Retains.mono
    {lost' : Uuid → Name → Prop} (h : Retains lost ns ns')
    (hsub : ∀ a n, lost a n → lost' a n) : Retains lost' ns ns' :=
  fun a n b hb hl => h a n b hb fun hlost => hl (hsub a n hlost)

theorem retains_setTable
    {t t' : DentryTable} {ino : Uuid} {l : Name → Prop} (ht : ns.tables ino = some t)
    (h : Spares l t t') (clients : Nat → Client) :
    Retains (fun a m => a = ino ∧ l m) ns (ns.setTable ino t' clients) := by
  intro a m b hb hl
  simp only [graph, setTable] at hb ⊢
  rcases eq_or_ne a ino with rfl | hne
  · rw [ht] at hb
    rw [Function.update_self]
    exact h m b hb fun hm => hl ⟨rfl, hm⟩
  · rw [Function.update_of_ne hne]
    exact hb

/-- No link is lost with the table of an empty directory. -/
theorem retains_deleteTable (h : ns.Empty p) : Retains lost ns (ns.deleteTable p) := by
  intro a m b hb _
  rcases eq_or_ne a p with rfl | hne
  · rw [h m] at hb
    cases hb
  · simp only [graph, deleteTable, Function.update_of_ne hne]
    exact hb

theorem retains_addTable
    {i : Inode} (h : ns.tables i.core.ino = none) (self : Nat) :
    Retains lost ns (ns.addTable self i) := by
  intro a m b hb _
  rcases eq_or_ne a i.core.ino with rfl | hne
  · rw [graph, h] at hb
    cases hb
  · simp only [graph, addTable, Function.update_of_ne hne]
    exact hb

theorem Retains.kept (h : Retains (fun _ _ => False) ns ns') : Kept gone ns ns' where
  reach v hv _ := Relation.ReflTransGen.mono
    (fun a b ⟨m, hm⟩ => ⟨m, h a m b hm not_false⟩) _ _ hv
  linked := by
    rintro v ⟨a, m, hm⟩ _
    exact ⟨a, m, h a m v hm not_false⟩

/-- One link is removed, to a place below which nothing lies. -/
theorem Retains.kept_of_unlink
    (h : Retains (fun a m => a = p ∧ m = n) ns ns')
    (hgone : ∀ y, ns.graph p n = some y → gone y ∧ ns.Empty y) : Kept gone ns ns' := by
  have hkeep : ∀ a b, ns.graph.Edge a b → ns.graph p n ≠ some b →
      ns'.graph.Edge a b := by
    rintro a b ⟨m, hm⟩ hne
    refine ⟨m, h a m b hm ?_⟩
    rintro ⟨rfl, rfl⟩
    exact hne hm
  constructor
  · intro v hv hstay
    cases hp : ns.graph p n with
    | none =>
        refine Relation.ReflTransGen.mono ?_ _ _ hv
        intro a b hab
        exact hkeep a b hab (by rw [hp]; nofun)
    | some y =>
        obtain ⟨hy, hempty⟩ := hgone y hp
        refine Links.reach_unlink ?_ hempty (fun heq => hstay (heq ▸ hy)) hv
        intro a b hab hb
        exact hkeep a b hab fun heq => hb (Option.some.inj (hp.symm.trans heq)).symm
  · rintro v ⟨a, hav⟩ hstay
    exact ⟨a, hkeep a v hav fun heq => hstay (hgone v heq).1⟩

/-- One link is moved to a place that is not below it, and may take the place of
a link below which nothing lies. -/
theorem Retains.kept_of_relink
    (h : Retains (fun a m => a = src ∧ m = old ∨ a = dst ∧ m = new) ns ns')
    (hold : ns.graph src old = some x) (hlink : ns'.graph dst new = some x)
    (hdst : ns.graph.Reach .root dst) (hfree : ¬ ns.graph.Reach x dst)
    (hgone : ∀ y, ns.graph dst new = some y → gone y ∧ ns.Empty y) :
    Kept gone ns ns' := by
  -- the links without the one that is replaced
  let g : Links Uuid Name := fun a m => if a = dst ∧ m = new then none
    else ns.graph a m
  have hsub : ∀ a b, g.Edge a b → ns.graph.Edge a b := by
    rintro a b ⟨m, hm⟩
    simp only [g] at hm
    split at hm
    · cases hm
    · exact ⟨m, hm⟩
  have hreplace : ∀ a b, ns.graph.Edge a b → ns.graph dst new ≠ some b →
      g.Edge a b := by
    rintro a b ⟨m, hm⟩ hne
    refine ⟨m, ?_⟩
    simp only [g]
    rw [if_neg, hm]
    rintro ⟨rfl, rfl⟩
    exact hne hm
  have hmove : ∀ a b, g.Edge a b → b ≠ x → ns'.graph.Edge a b := by
    rintro a b ⟨m, hm⟩ hne
    simp only [g] at hm
    split at hm
    · cases hm
    · rename_i hother
      refine ⟨m, h a m b hm ?_⟩
      rintro (⟨rfl, rfl⟩ | hnew)
      · exact hne (Option.some.inj (hm.symm.trans hold))
      · exact hother hnew
  have hreach : ∀ v, ns.graph.Reach .root v → ns.graph dst new ≠ some v →
      g.Reach .root v := by
    intro v hv hne
    cases hy : ns.graph dst new with
    | none =>
        refine Relation.ReflTransGen.mono ?_ _ _ hv
        intro a b hab
        exact hreplace a b hab (by rw [hy]; nofun)
    | some y =>
        refine Links.reach_unlink (x := y) ?_ (hgone y hy).2 ?_ hv
        · intro a b hab hb
          exact hreplace a b hab fun heq =>
            hb (Option.some.inj (hy.symm.trans heq)).symm
        · rintro rfl
          exact hne hy
  have hdstKept : g.Reach .root dst := by
    refine hreach dst hdst ?_
    intro hself
    rw [(hgone dst hself).2 new] at hself
    cases hself
  constructor
  · intro v hv hstay
    refine Links.reach_relink hmove ⟨new, hlink⟩ hdstKept ?_
      (hreach v hv fun heq => hstay (hgone v heq).1)
    intro hx
    exact hfree (Relation.ReflTransGen.mono hsub _ _ hx)
  · rintro v ⟨a, hav⟩ hstay
    by_cases hv : v = x
    · exact ⟨dst, new, hv ▸ hlink⟩
    · exact ⟨a, hmove a v (hreplace a v hav fun heq => hstay (hgone v heq).1) hv⟩

end Retains

section Paths

variable {ns : Namespace} {env : Env} {path : Bytes} {t : DentryTable} {name : Name}

/-- What `path_traversal` finds is reached from the root directory. -/
theorem reach_traverse
    (hs : ns.Sound) {ino ino' : Uuid} {names : List Name}
    (ht : ns.tables t.dirIno = some t) (hreach : ns.graph.Reach .root t.dirIno)
    (hino : ns.graph.Reach .root ino) (h : ns.traverse env t ino names = .ok ino') :
    ns.graph.Reach .root ino' := by
  induction names generalizing t ino with
  | nil =>
      cases h
      exact hino
  | cons targetName rest ih =>
      simp only [traverse] at h
      split at h
      · cases h
      · rename_i hcheck
        split at h
        · cases h
        · rename_i child hchild
          have hlookup := lookup_of_getChildInode hchild
          split at h
          · split at h
            · cases h
            · rename_i t' htable
              have ht' := tables_of_getDentryTable htable
              have hdir := hs.dirIno _ t' ht'
              have hbelow : ns.graph.Reach .root t'.dirIno := by
                rw [hdir]
                by_cases hname : targetName = rootName
                · rw [checkChildInode, if_pos hname]
                  exact .refl
                · obtain ⟨u, hu⟩ := Option.isSome_iff_exists.mp
                    (isSome_of_child hlookup)
                  refine hreach.tail ⟨targetName, ?_⟩
                  rw [graph, ht, checkChildInode, if_neg hname, Dentry.getChildIno]
                  change t.childIno targetName = some ((t.childIno targetName).getD _)
                  rw [hu]
                  rfl
              split at h
              · exact ih (by rw [hdir]; exact ht') hbelow hbelow h
              · cases h
          · refine ih ht hreach (hreach.tail ⟨targetName, ?_⟩) h
            rw [graph, ht]
            exact hs.coherent _ t ht _ _ hlookup

theorem reach_findTable (hs : ns.Sound) (h : ns.findTable env path = .ok t) :
    ns.graph.Reach .root t.dirIno := by
  unfold findTable at h
  split at h
  · cases h
  · rename_i ino hpath
    rw [hs.dirIno ino t (tables_of_getDentryTable h)]
    unfold pathTraversal at hpath
    split at hpath
    · cases hpath
    · rename_i r hroot
      have hr := tables_of_getDentryTable hroot
      have hdir := hs.dirIno _ r hr
      have hrefl : ns.graph.Reach .root r.dirIno := by
        rw [hdir]
        exact .refl
      exact reach_traverse hs (by rw [hdir]; exact hr) hrefl hrefl hpath

theorem findParent_of
    {parent : Bytes} (hname : getFilenameFromPath path = .ok name)
    (hparent : getParentDirPath path = .ok parent)
    (ht : ns.findTable env parent = .ok t) : ns.findParent env path = .ok (t, name) := by
  simp only [findParent, hname, hparent, ht]

theorem filename_of_findParent (h : ns.findParent env path = .ok (t, name)) :
    getFilenameFromPath path = .ok name := by
  unfold findParent at h
  split at h
  · cases h
  · cases h
  · rename_i n parent hname hparent
    split at h
    · cases h
    · cases h
      exact hname

theorem name_ne_root
    (hpath : path ≠ [slash]) (h : getFilenameFromPath path = .ok name) :
    name ≠ rootName := by
  rintro rfl
  exact getFilenameFromPath_slash hpath h (by simp [rootName, slash])

end Paths

/-- A path leads to the inode number. -/
def Names (ns : Namespace) (env : Env) (path : Bytes) (x : Uuid) : Prop :=
  ∃ t name, ns.findParent env path = .ok (t, name) ∧ t.childIno name = some x

/-- A rename that moves a directory outside of itself, that replaces no
directory with entries, and whose calls the transactions of its directories
take. -/
structure RenameSafe (ns : Namespace) (env : Env) (oldPath newPath : Bytes) :
    Prop where
  target : newPath ≠ [slash]
  outside : ∀ x q, ns.Moves env oldPath newPath x q → ¬ ns.graph.Reach x q
  empty : ∀ x, ns.Names env newPath x → ns.Empty x
  accepted : ∀ src oldName dst newName targetI,
    ns.findParent env oldPath = .ok (src, oldName) →
    ns.findParent env newPath = .ok (dst, newName) →
    src.childInodes.lookup oldName = some targetI →
    if getParentDirPath oldPath = getParentDirPath newPath then
      (ns.directory src).AcceptsMove oldName newName targetI
    else
      dst.dirIno ≠ src.dirIno ∧ Parents.Accepts ⟨src, dst, ns.clients⟩
        (ns.leader src.dirIno) (ns.leader dst.dirIno) oldName newName targetI

/-- The tables are sound, and no link leads to the nil inode. -/
structure Whole (ns : Namespace) : Prop where
  sound : ns.Sound
  noNil : ¬ ns.Linked .nil

end Namespace

namespace FsOp

open Nmfs.Path Namespace

/-- What an operation is asked to remove. -/
def Removes (ns : Namespace) (env : Env) : FsOp → Uuid → Prop
  | .unlink path, x | .rmdir path, x => ns.Names env path x
  | .rename _ newPath _, x => ns.Names env newPath x
  | .create _ _, _ | .mkdir _ _, _ | .symlink _ _ _, _ | .commit _, _ => False

/-- New inode numbers are new, `unlink` is not asked to remove a directory with
entries, nor is a rename, and the root directory is not removed. -/
def Careful (ns : Namespace) (env : Env) : FsOp → Prop
  | .create _ r | .mkdir _ r | .symlink _ _ r =>
      ns.tables r.newIno = none ∧ r.newIno ≠ .nil
  | .unlink path => ∀ x, ns.Names env path x → ns.Empty x
  | .rmdir path => path ≠ [slash]
  | .rename oldPath newPath flags => flags = 0 → ns.RenameSafe env oldPath newPath
  | .commit _ => True

end FsOp

namespace Namespace

open Directory DentryTable Nmfs.Path

section Operations

variable {ns : Namespace} {env : Env} {t : DentryTable} {gone : Uuid → Prop}

theorem graph_of_tables
    {ino : Uuid} (ht : ns.tables ino = some t) (n : Name) :
    ns.graph ino n = t.childIno n := by
  rw [graph, ht]
  rfl

theorem retains_apply
    {op : NsOp} (h : op.isRename = false) (ht : ns.tables t.dirIno = some t) :
    Retains (fun a n => a = t.dirIno ∧ op.Loses n) ns (ns.apply env op t).2 := by
  unfold apply
  split
  · exact retains_setTable ht (NsOp.spares_perform h env.ts (ns.directory t)) _
  · have hput := retains_setTable ht (NsOp.spares_handle h env.ts (ns.directory t)
      (ns.clients env.self)) (Function.update ns.clients (ns.leader t.dirIno)
        { ns.clients (ns.leader t.dirIno) with
          journal := (op.handle env.ts (ns.directory t)
            (ns.clients env.self)).2.journal })
    dsimp only
    split
    · exact hput
    · exact hput

theorem apply_tables_ne
    (op : NsOp) {ino : Uuid} (h : ino ≠ t.dirIno) :
    (ns.apply env op t).2.tables ino = ns.tables ino := by
  have hput : ∀ d, (ns.put t.dirIno d).tables ino = ns.tables ino := by
    intro d
    exact Function.update_of_ne h _ _
  unfold apply
  split
  · exact hput _
  · dsimp only
    split
    · exact hput _
    · exact hput _

theorem newDirInode_ino (r : Request) : (ns.newDirInode env t r).core.ino = r.newIno := by
  unfold newDirInode
  dsimp only
  split
  · rfl
  · rfl

/-- An operation that loses no name. -/
theorem retains_insert
    {op : NsOp} (h : op.isRename = false) (hl : ∀ n, ¬ op.Loses n)
    (ht : ns.tables t.dirIno = some t) :
    Retains (fun _ _ => False) ns (ns.apply env op t).2 :=
  (retains_apply h ht).mono fun _ n hn => hl n hn.2

theorem kept_change
    (hs : ns.Sound) {path : Bytes} {op : Name → NsOp}
    (hop : ∀ name, (op name).isRename = false) (hl : ∀ name n, ¬ (op name).Loses n) :
    Kept gone ns (ns.change env path op).2 := by
  unfold change
  split
  · exact (Retains.refl ns).kept
  · rename_i t name hfind
    exact (retains_insert (hop name) (hl name) (hs.tables_of_findParent hfind)).kept

theorem kept_unlink
    (hs : ns.Sound) {path : Bytes}
    (hgone : ∀ x, ns.Names env path x → gone x ∧ ns.Empty x) :
    Kept gone ns (ns.unlink env path).2 := by
  unfold unlink change
  split
  · exact (Retains.refl ns).kept
  · rename_i t name hfind
    have ht := hs.tables_of_findParent hfind
    have happly : Retains (fun a m => a = t.dirIno ∧ m = name) ns
        (ns.apply env (.unlink name) t).2 :=
      @retains_apply ns env t (.unlink name) rfl ht
    refine happly.kept_of_unlink ?_
    intro y hy
    rw [graph_of_tables ht] at hy
    exact hgone y ⟨t, name, hfind, hy⟩

theorem kept_mkdir
    (hs : ns.Sound) {path : Bytes} {r : Request} (hnew : ns.tables r.newIno = none) :
    Kept gone ns (ns.mkdir env path r).2 := by
  unfold mkdir
  split
  · exact (Retains.refl ns).kept
  · rename_i t name hfind
    have ht := hs.tables_of_findParent hfind
    have happly : Retains (fun _ _ => False) ns
        (ns.apply env (.mkdir { r with name := name }) t).2 :=
      retains_insert rfl (fun _ => not_false) ht
    dsimp only
    split
    · refine (happly.trans (retains_addTable ?_ env.self)).kept
      rw [newDirInode_ino, apply_tables_ne _ ?_]
      · exact hnew
      · rintro heq
        rw [← heq, hnew] at ht
        cases ht
    · exact happly.kept

theorem retains_removeName (parentIno targetIno : Uuid) (targetName : Name) :
    Retains (fun a m => a = parentIno ∧ m = targetName) ns
      (ns.removeName env parentIno targetIno targetName).2 := by
  unfold removeName
  split
  · exact .refl ns
  · rename_i parent hparent
    exact retains_setTable (tables_of_getDentryTable hparent)
      (spares_rmdirDownHalf (ns.place env parentIno) targetIno targetName env.ts
        (ns.directory parent)) _

theorem graph_setTable (ino : Uuid) (clients : Nat → Client) (n : Name) :
    (ns.setTable ino t clients).graph ino n = t.childIno n := by
  simp only [graph, setTable, Function.update_self]
  rfl

/-- Only an empty directory is removed, and its name after it. -/
theorem kept_removeDir
    (ht : ns.tables t.dirIno = some t) {parentIno targetIno : Uuid}
    {targetName : Name}
    (hgone : ns.Empty t.dirIno → ∀ y, ns.graph parentIno targetName = some y →
      gone y ∧ ns.Empty y) :
    Kept gone ns (ns.removeDir env parentIno t targetIno targetName).2 := by
  let d := (rmdirTopHalf (ns.place env t.dirIno) (ns.directory t)).2
  have hd : d.table = t := rmdirTopHalf_table _ _
  have htop : Retains (fun _ _ => False) ns (ns.put t.dirIno d) := by
    have hset : Retains (fun a m => a = t.dirIno ∧ False) ns (ns.put t.dirIno d) :=
      retains_setTable ht (by rw [hd]; exact .refl t) _
    exact hset.mono fun _ _ h => h.2
  unfold removeDir
  dsimp only
  split
  · rename_i hret
    have hleaf := rmdirTopHalf_empty hret
    have hempty : ns.Empty t.dirIno := by
      intro n
      rw [graph_of_tables ht]
      exact hleaf n
    have hput : (ns.put t.dirIno d).Empty t.dirIno := by
      intro n
      rw [put, graph_setTable, hd]
      exact hleaf n
    refine Retains.kept_of_unlink ?_ (hgone hempty)
    exact (htop.mono fun _ _ h => h.elim).trans
      ((retains_deleteTable hput).trans (retains_removeName _ _ _))
  · exact htop.kept

theorem kept_rmdir
    (hs : ns.Sound) {path : Bytes} (hpath : path ≠ [slash])
    (hgone : ∀ x, ns.Names env path x → ns.Empty x → gone x) :
    Kept gone ns (ns.rmdir env path).2 := by
  unfold rmdir
  split
  · exact (Retains.refl ns).kept
  · rename_i parent targetName hfind
    have hp := hs.tables_of_findParent hfind
    have hname := name_ne_root hpath (filename_of_findParent hfind)
    dsimp only
    split
    · exact (Retains.refl ns).kept
    · rename_i targetI htarget
      split
      · split
        · exact (Retains.refl ns).kept
        · rename_i target htable
          have ht := tables_of_getDentryTable htable
          have hdir := hs.dirIno _ _ ht
          refine kept_removeDir (by rw [hdir]; exact ht) ?_
          intro hempty y hy
          rw [graph_of_tables hp] at hy
          have hcheck : parent.checkChildInode targetName = y := by
            rw [checkChildInode, if_neg hname, Dentry.getChildIno]
            change (parent.childIno targetName).getD _ = y
            rw [hy]
            rfl
          have hyEmpty : ns.Empty y := by
            rw [← hcheck, ← hdir]
            exact hempty
          exact ⟨hgone y ⟨parent, targetName, hfind, hy⟩ hyEmpty, hyEmpty⟩
      · exact (Retains.refl ns).kept

theorem kept_renameSameParent
    (hs : ns.Sound) (ht : ns.tables t.dirIno = some t)
    (hroot : ns.graph.Reach .root t.dirIno) {oldPath newPath : Bytes} {flags : UInt32}
    (haccepts : flags = 0 → (ns.directory t).AcceptsPaths oldPath newPath)
    (hfree : flags = 0 → ∀ oldName i, getFilenameFromPath oldPath = .ok oldName →
      t.childInodes.lookup oldName = some i → ¬ ns.graph.Reach i.core.ino t.dirIno)
    (hgone : flags = 0 → ∀ newName, getFilenameFromPath newPath = .ok newName →
      ∀ y, t.childIno newName = some y → gone y ∧ ns.Empty y) :
    Kept gone ns (ns.renameSameParent env t oldPath newPath flags).2 := by
  have hset : ∀ t' clients, SparesOrRelinks oldPath newPath flags t t' →
      Kept gone ns (ns.setTable t.dirIno t' clients) := by
    rintro t' clients
      (hspares | ⟨hflags, oldName, newName, i, hold, hnew, hi, hrelinks⟩)
    · have hretains := retains_setTable ht hspares clients
      exact (hretains.mono fun _ _ h => h.2).kept
    · have hretains := retains_setTable ht hrelinks.spares clients
      have hboth : Retains (fun a m => a = t.dirIno ∧ m = oldName ∨
          a = t.dirIno ∧ m = newName) ns (ns.setTable t.dirIno t' clients) := by
        refine hretains.mono ?_
        rintro a n ⟨rfl, hn⟩
        exact hn.imp (⟨rfl, ·⟩) (⟨rfl, ·⟩)
      refine hboth.kept_of_relink ?_ ?_ hroot (hfree hflags oldName i hold hi) ?_
      · rw [graph_of_tables ht]
        exact hs.coherent _ t ht oldName i hi
      · rw [graph_setTable]
        exact hrelinks.linked
      · intro y hy
        rw [graph_of_tables ht] at hy
        exact hgone hflags newName hnew y hy
  unfold renameSameParent
  split
  · exact hset _ _ (localRenameSameParent_relinks haccepts env.ts)
  · exact hset _ _ (rpcRenameSameParent_relinks haccepts)

/-- A rename that the transactions take: one table has lost the old name, and the
other one has got the new name. -/
theorem renameNotSameParent_tables
    {src dst : DentryTable} (hdst : ns.tables dst.dirIno = some dst)
    {oldName newName : Name} {targetI : Inode} (hname : newName ≠ rootName)
    (hold : src.childInodes.lookup oldName = some targetI)
    (hdirs : dst.dirIno ≠ src.dirIno)
    (haccepts : Parents.Accepts ⟨src, dst, ns.clients⟩ (ns.leader src.dirIno)
      (ns.leader dst.dirIno) oldName newName targetI) :
    ∃ j : Inode, j.core.ino = targetI.core.ino ∧
      (ns.renameNotSameParent env src dst oldName newName 0).2.tables =
        Function.update
          (Function.update ns.tables src.dirIno (some (src.dropChild oldName)))
          dst.dirIno (some (Parents.dstTable ⟨src, dst, ns.clients⟩ newName j)) := by
  let p : Parents := ⟨src, dst, ns.clients⟩
  have hcheck := p.checkDst_eq (ns.leader dst.dirIno = env.self) newName
  obtain ⟨i, loc, hi, htake⟩ := @Parents.renameSrc_takes p oldName targetI
    (ns.leader src.dirIno) (ns.leader src.dirIno = env.self) hold haccepts.src
  have hino : i.core.ino = targetI.core.ino := by
    rcases hi with rfl | rfl
    · rfl
    · exact congrArg Core.ino (Inode.core_ofInode targetI)
  let p₁ : Parents := { p with
    src := src.dropChild oldName
    clients := p.setJournal (ns.leader src.dirIno)
      ((p.clients (ns.leader src.dirIno)).journal.callAll src.dirIno
        (p.srcCalls oldName targetI)) }
  let ns₁ := ns.setTable src.dirIno p₁.src p₁.clients
  -- the source half does not touch what the destination half looks at
  have hget : ns₁.getDentryTable env dst.dirIno = .ok dst := by
    unfold getDentryTable
    rw [show ns₁.tables dst.dirIno = some dst from
      (Function.update_of_ne hdirs _ _).trans hdst]
  have hentry : p₁.entry (ns.leader dst.dirIno) p₁.dst.dirIno =
      p.entry (ns.leader dst.dirIno) p.dst.dirIno := by
    refine (Parents.entry_setJournal p _ _ src.dirIno dst.dirIno _ _ _).trans ?_
    rw [if_neg fun h => hdirs h.2]
  obtain ⟨j, hj, hlink⟩ := @Parents.renameDst_links p₁ newName targetI
    (ns.leader dst.dirIno) (ns.leader dst.dirIno = env.self) i hino hname (by
      rw [hentry]
      exact haccepts.dst)
  refine ⟨j, hj, ?_⟩
  unfold renameNotSameParent
  dsimp only
  rw [show Parents.renameSrc ⟨src, dst, ns.clients⟩ _ _ _ _ = _ from htake,
    show Parents.checkDst ⟨src, dst, ns.clients⟩ _ _ = _ from hcheck]
  dsimp only
  unfold renameDst
  rw [show (Namespace.setTable ns src.dirIno _ _).getDentryTable env dst.dirIno = _
    from hget]
  exact congrArg (fun t => Function.update ns₁.tables dst.dirIno (some t)) hlink

theorem Kept.congr
    {ns' ns'' : Namespace} (h : Kept gone ns ns') (htables : ns''.tables = ns'.tables) :
    Kept gone ns ns'' := by
  have hgraph : ns''.graph = ns'.graph := by
    unfold graph
    rw [htables]
  constructor
  · intro v hv hstay
    rw [hgraph]
    exact h.reach v hv hstay
  · intro v hv hstay
    unfold Linked
    rw [hgraph]
    exact h.linked v hv hstay

/-- A rename that takes nothing. -/
theorem kept_renameRefused
    {src : DentryTable} (hsrc : ns.tables src.dirIno = some src) (dst : DentryTable)
    {oldName : Name} {flags : UInt32}
    (hrefuse : flags ≠ 0 ∨ src.childInodes.lookup oldName = none) (newName : Name) :
    Kept gone ns (ns.renameNotSameParent env src dst oldName newName flags).2 := by
  let p : Parents := ⟨src, dst, ns.clients⟩
  obtain ⟨e, herror, hsame⟩ := @Parents.renameSrc_refuses p oldName flags hrefuse
    (ns.leader src.dirIno) (ns.leader src.dirIno = env.self)
  have hretains := @retains_setTable ns src src src.dirIno (fun _ => False) hsrc
    (.refl src)
  unfold renameNotSameParent
  dsimp only
  rw [show Parents.renameSrc ⟨src, dst, ns.clients⟩ _ _ _ _ = p.renameSrc
    (ns.leader src.dirIno) (ns.leader src.dirIno = env.self) oldName flags from rfl]
  rw [herror]
  simp only [hsame]
  exact ((hretains _).mono fun _ _ h => h.2).kept

theorem kept_renameNotSameParent
    (hs : ns.Sound) {src dst : DentryTable} (hsrc : ns.tables src.dirIno = some src)
    (hdst : ns.tables dst.dirIno = some dst) (hroot : ns.graph.Reach .root dst.dirIno)
    {oldName newName : Name} {targetI : Inode} (hname : newName ≠ rootName)
    (hnil : dst.childIno newName ≠ some .nil)
    (hold : src.childInodes.lookup oldName = some targetI)
    (hdirs : dst.dirIno ≠ src.dirIno)
    (haccepts : Parents.Accepts ⟨src, dst, ns.clients⟩ (ns.leader src.dirIno)
      (ns.leader dst.dirIno) oldName newName targetI)
    (hfree : ¬ ns.graph.Reach targetI.core.ino dst.dirIno)
    (hgone : ∀ y, dst.childIno newName = some y → gone y ∧ ns.Empty y) :
    Kept gone ns (ns.renameNotSameParent env src dst oldName newName 0).2 := by
  let p : Parents := ⟨src, dst, ns.clients⟩
  obtain ⟨j, hj, htables⟩ := @renameNotSameParent_tables ns env src dst hdst oldName
    newName targetI hname hold hdirs haccepts
  have hrelinks := @Parents.dstTable_relinks p newName hname hnil newName j
  let ns₁ := ns.setTable src.dirIno (src.dropChild oldName) ns.clients
  let ns₂ := ns₁.setTable dst.dirIno (p.dstTable newName j) ns.clients
  have htop : Retains (fun a m => a = src.dirIno ∧ m = oldName) ns ns₁ := by
    refine retains_setTable hsrc ?_ _
    intro n u hu hne
    exact (dropChild_childIno_ne _ _ hne).trans hu
  have hbottom : Retains (fun a m => a = dst.dirIno ∧ (m = newName ∨ m = newName))
      ns₁ ns₂ :=
    retains_setTable ((Function.update_of_ne hdirs _ _).trans hdst) hrelinks.spares _
  have hboth : Retains (fun a m => a = src.dirIno ∧ m = oldName ∨
      a = dst.dirIno ∧ m = newName) ns ns₂ := by
    refine (htop.mono fun _ _ h => .inl h).trans (hbottom.mono ?_)
    rintro a m ⟨ha, hm⟩
    exact .inr ⟨ha, hm.elim id id⟩
  have hkept : Kept gone ns ns₂ := by
    refine hboth.kept_of_relink (x := targetI.core.ino) ?_ ?_ hroot hfree ?_
    · rw [graph_of_tables hsrc]
      exact hs.coherent _ src hsrc oldName targetI hold
    · rw [graph_setTable, ← hj]
      exact hrelinks.linked
    · intro y hy
      rw [graph_of_tables hdst] at hy
      exact hgone y hy
  exact hkept.congr htables

theorem Whole.childIno_ne_nil
    (hw : ns.Whole) {ino : Uuid} (ht : ns.tables ino = some t) (n : Name) :
    t.childIno n ≠ some .nil := by
  intro hnil
  exact hw.noNil ⟨ino, n, (graph_of_tables ht n).trans hnil⟩

theorem kept_rename
    (hw : ns.Whole) {oldPath newPath : Bytes} {flags : UInt32}
    (hsafe : flags = 0 → ns.RenameSafe env oldPath newPath)
    (hgone : ∀ x, ns.Names env newPath x → ns.Empty x → gone x) :
    Kept gone ns (ns.rename env oldPath newPath flags).2 := by
  have hs := hw.sound
  unfold rename
  split
  · exact (Retains.refl ns).kept
  · split
    · exact (Retains.refl ns).kept
    · exact (Retains.refl ns).kept
    · rename_i srcParent dstParent hsrcParent hdstParent
      split
      · rename_i hsame
        split
        · exact (Retains.refl ns).kept
        · rename_i t hfind
          have ht := hs.tables_of_findTable hfind
          have hfindDst : ns.findTable env dstParent = .ok t := hsame ▸ hfind
          refine kept_renameSameParent hs ht (reach_findTable hs hfind) ?_ ?_ ?_
          · intro hflags oldName newName i hold hnew hi
            have haccept := (hsafe hflags).accepted t oldName t newName i
              (findParent_of hold hsrcParent hfind)
              (findParent_of hnew hdstParent hfindDst) hi
            rw [if_pos (by rw [hsrcParent, hdstParent, hsame])] at haccept
            exact ⟨name_ne_root (hsafe hflags).target hnew,
              hw.childIno_ne_nil ht newName, haccept⟩
          · intro hflags oldName i hold hi
            exact (hsafe hflags).outside _ _ ⟨srcParent, dstParent, t, t, oldName, i,
              hsrcParent, hdstParent, hfind, hfindDst, hold, hi, rfl, rfl⟩
          · intro hflags newName hnew y hy
            have hnames : ns.Names env newPath y :=
              ⟨t, newName, findParent_of hnew hdstParent hfindDst, hy⟩
            have hempty := (hsafe hflags).empty y hnames
            exact ⟨hgone y hnames hempty, hempty⟩
      · rename_i hdiffer
        split
        · exact (Retains.refl ns).kept
        · exact (Retains.refl ns).kept
        · rename_i src dst hsrc hdst
          split
          · exact (Retains.refl ns).kept
          · exact (Retains.refl ns).kept
          · rename_i oldName newName hold hnew
            have hsrcTable := hs.tables_of_findTable hsrc
            have hdstTable := hs.tables_of_findTable hdst
            by_cases hrefuse : flags ≠ 0 ∨ src.childInodes.lookup oldName = none
            · exact kept_renameRefused hsrcTable dst hrefuse newName
            · obtain ⟨hflags, hlookup⟩ := not_or.mp hrefuse
              have hzero : flags = 0 := not_not.mp hflags
              subst hzero
              have hsafe := hsafe rfl
              obtain ⟨i, hi⟩ := Option.ne_none_iff_exists'.mp hlookup
              have hnewParent := findParent_of hnew hdstParent hdst
              have haccept := hsafe.accepted src oldName dst newName i
                (findParent_of hold hsrcParent hsrc) hnewParent hi
              rw [if_neg (by
                rw [hsrcParent, hdstParent]
                exact fun h => hdiffer (Except.ok.inj h))] at haccept
              refine kept_renameNotSameParent hs hsrcTable hdstTable
                (reach_findTable hs hdst) (name_ne_root hsafe.target hnew)
                (hw.childIno_ne_nil hdstTable newName) hi haccept.1 haccept.2 ?_ ?_
              · exact hsafe.outside _ _ ⟨srcParent, dstParent, src, dst, oldName, i,
                  hsrcParent, hdstParent, hsrc, hdst, hold, hi, rfl, rfl⟩
              · intro y hy
                have hnames : ns.Names env newPath y :=
                  ⟨dst, newName, hnewParent, hy⟩
                have hempty := hsafe.empty y hnames
                exact ⟨hgone y hnames hempty, hempty⟩

/-- A careful step loses nothing but what it is asked to remove, and that is
empty. -/
theorem kept_step {op : FsOp} (hw : ns.Whole) (hc : op.Careful ns env) :
    Kept (fun x => op.Removes ns env x ∧ ns.Empty x) ns (op.run env ns).2 := by
  cases op with
  | create path r =>
      simp only [FsOp.run, create]
      split
      · exact (Retains.refl ns).kept
      · exact kept_change hw.sound (fun _ => rfl) fun _ _ => not_false
  | mkdir path r => exact kept_mkdir hw.sound hc.1
  | symlink src dst r => exact kept_change hw.sound (fun _ => rfl) fun _ _ => not_false
  | unlink path =>
      exact kept_unlink hw.sound fun x hx => ⟨⟨hx, hc x hx⟩, hc x hx⟩
  | rmdir path => exact kept_rmdir hw.sound hc fun x hx hempty => ⟨hx, hempty⟩
  | rename oldPath newPath flags =>
      exact kept_rename hw hc fun x hx hempty => ⟨hx, hempty⟩
  | commit client => exact (Retains.refl ns).kept.congr rfl

/-- No careful step links the nil inode. -/
theorem whole_step {op : FsOp} (hw : ns.Whole) (hc : op.Careful ns env) :
    (op.run env ns).2.Whole := by
  obtain ⟨v, q, hgrows, hadds⟩ := @grown_step ns env hw.sound op
  refine ⟨hgrows.sound hw.sound, ?_⟩
  rintro ⟨a, ha⟩
  rcases hgrows.edge a .nil ha with hold | ⟨-, hv⟩
  · exact hw.noNil ⟨a, hold⟩
  · have hx := hadds .nil hv
    cases op with
    | create path r | mkdir path r | symlink src dst r => exact hc.2 hx.1
    | rename oldPath newPath flags =>
        -- what is moved has been linked before
        obtain ⟨_, _, src, _, oldName, i, _, _, hsrc, _, _, hi, hino, _⟩ := hx
        have ht := hw.sound.tables_of_findTable hsrc
        refine hw.noNil ⟨src.dirIno, oldName, ?_⟩
        rw [graph_of_tables ht, ← hino]
        exact hw.sound.coherent _ src ht oldName i hi
    | unlink path | rmdir path | commit client => exact hx.elim

end Operations

/-- A careful step. -/
def CarefulStep (ns : Namespace) (a : Env × FsOp) : Prop :=
  a.2.Short ∧ a.2.Careful ns a.1

theorem whole_run : step.InvariantUnder CarefulStep Whole := by
  rintro ns a ns' hw hc hstep
  cases hstep
  exact whole_step hw hc.2

/-- Careful steps that are not asked to remove `x` leave it reachable. -/
theorem reach_run (x : Uuid) :
    step.InvariantUnder (fun ns a => CarefulStep ns a ∧ ¬ a.2.Removes ns a.1 x)
      fun ns => ns.Whole ∧ ns.graph.Reach .root x := by
  rintro ns a ns' ⟨hw, hx⟩ ⟨hc, hstay⟩ hstep
  cases hstep
  exact ⟨whole_step hw hc.2, (kept_step hw hc.2).reach x hx fun h => hstay h.1⟩

/-- The new name of a rename leads to a directory with entries. -/
def TargetNonempty (ns : Namespace) (env : Env) (newPath : Bytes) : Prop :=
  ∃ x, ns.Names env newPath x ∧ ¬ ns.Empty x

/-- A rename never returns `-ENOTEMPTY`.  But in every run of careful steps, what
loses its last link is empty, and what is not asked to be removed stays
reachable. -/
theorem nothing_discarded (ns : Namespace) :
    (∀ env oldPath newPath flags, (FsOp.rename oldPath newPath flags).Short →
      ((ns.TargetNonempty env newPath →
          ns.rename env oldPath newPath flags = (.ret (-ENOTEMPTY), ns)) ↔
        ¬ ns.TargetNonempty env newPath)) ∧
      (∀ as ns' env (op : FsOp) x, ns.Whole → step.Steps CarefulStep ns as →
        step.runFrom ns as = some ns' → CarefulStep ns' (env, op) → ns'.Linked x →
        ¬ (op.run env ns').2.Linked x → ns'.Empty x) ∧
      ∀ as bs ns' ns'' x, ns.Whole → step.Steps CarefulStep ns as →
        step.runFrom ns as = some ns' → ns'.graph.Reach .root x →
        step.Steps (fun ns a => CarefulStep ns a ∧ ¬ a.2.Removes ns a.1 x) ns' bs →
        step.runFrom ns' bs = some ns'' → ns''.graph.Reach .root x := by
  refine ⟨?_, ?_, ?_⟩
  · intro env oldPath newPath flags _
    constructor
    · intro h htarget
      have hret := congrArg Prod.fst (h htarget)
      rcases ns.coded_rename env oldPath newPath flags _ hret with hcode | ⟨-, hcode⟩
      · exact absurd hcode (by decide)
      · exact absurd hcode (by decide)
    · exact fun h htarget => absurd htarget h
  · intro as ns' env op x hw hsteps hrun hc hx hlost
    have hw' := whole_run.runFrom hw hsteps hrun
    by_contra hne
    exact hlost ((kept_step hw' hc.2).linked x hx fun h => hne h.2)
  · intro as bs ns' ns'' x hw hsteps hrun hx hstay hrun'
    have hw' := whole_run.runFrom hw hsteps hrun
    exact ((reach_run x).runFrom ⟨hw', hx⟩ hstay hrun').2

section Examples

/-- The directory `a` is renamed to `b`, which does not exist. -/
theorem makeDir_renameSafe :
    (makeDir.run firstClient emptyTree).2.RenameSafe firstClient [47, 97] [47, 98] := by
  have hold : (makeDir.run firstClient emptyTree).2.findParent firstClient [47, 97] =
      .ok (_, [97]) := rfl
  have hnew : (makeDir.run firstClient emptyTree).2.findParent firstClient [47, 98] =
      .ok (_, [98]) := rfl
  refine ⟨by decide, ?_, ?_, ?_⟩
  · rintro x q ⟨srcParent, dstParent, src, dst, oldName, i, hsrcParent, hdstParent, hsrc,
      hdst, hname, hi, rfl, rfl⟩ hreach
    cases hsrcParent
    cases hdstParent
    cases hsrc
    cases hdst
    cases hname
    cases hi
    have hleaf : ∀ n, (makeDir.run firstClient emptyTree).2.graph inoA n = none :=
      fun _ => rfl
    exact absurd (Links.eq_of_reach_leaf hleaf hreach) (by decide)
  · rintro x ⟨t, name, h, hx⟩
    cases hnew.symm.trans h
    cases hx
  · intro src oldName dst newName i h h' hi
    cases hold.symm.trans h
    cases hnew.symm.trans h'
    cases hi
    rw [if_pos (by decide)]
    exact fun _ => ⟨rfl, rfl, trivial⟩

theorem emptyTree_whole : emptyTree.Whole where
  sound := emptyTree_sound
  noNil := by
    rintro ⟨a, name, hname⟩
    rw [graph, emptyTree] at hname
    dsimp only at hname
    rcases eq_or_ne a .root with rfl | hne
    · rw [Function.update_self] at hname
      cases hname
    · rw [Function.update_of_ne hne] at hname
      cases hname

theorem renamed_dir_reachable :
    ((FsOp.rename [47, 97] [47, 98] 0).run firstClient
      (makeDir.run firstClient emptyTree).2).2.graph.Reach .root inoA := by
  refine (nothing_discarded emptyTree).2.2 [(firstClient, makeDir)]
    [(firstClient, .rename [47, 97] [47, 98] 0)] _ _ inoA emptyTree_whole
    ⟨⟨by decide, rfl, by decide⟩, fun _ _ => trivial⟩ rfl (.single ⟨[97], by decide⟩)
    ⟨⟨⟨by decide, fun _ => makeDir_renameSafe⟩, ?_⟩, fun _ _ => trivial⟩ rfl
  rintro ⟨t, name, h, hx⟩
  cases h
  cases hx

/-- The links of a directory are the entries of its table. -/
theorem mem_entries_of_graph
    {ns : Namespace} {ino x : Uuid} {n : Name} {l : List (Sigma fun _ : Name => Uuid)}
    (hl : (ns.tables ino).map (·.dentries.childList.entries) = some l)
    (h : ns.graph ino n = some x) : ⟨n, x⟩ ∈ l := by
  rw [graph, Option.bind_eq_some_iff] at h
  obtain ⟨t, ht, hx⟩ := h
  rw [ht] at hl
  cases hl
  exact AList.mem_lookup_iff.mp hx

/-- The directories `a` and `b`, and the file `c` in `b`. -/
def twoDirs : Namespace :=
  let r := { requestFor inoB with mode := 0o755 }
  let ns := (makeDir.run firstClient emptyTree).2
  let ns := ((FsOp.mkdir [47, 98] r).run firstClient ns).2
  ((FsOp.create [47, 98, 47, 99] (requestFor inoC)).run firstClient ns).2

/-- The directory `a` takes the place of `b`, and `c` is not reached any more. -/
theorem rename_discards_dir :
    twoDirs.TargetNonempty firstClient [47, 98] ∧
      (twoDirs.rename firstClient [47, 97] [47, 98] 0).1 = .ret 0 ∧
      twoDirs.graph.Reach .root inoC ∧
      ¬ (twoDirs.rename firstClient [47, 97] [47, 98] 0).2.graph.Reach .root inoC := by
  refine ⟨⟨inoB, ⟨_, [98], rfl, by decide⟩, ?_⟩, by decide, ?_, ?_⟩
  · intro h
    exact absurd (h [99]) (by decide)
  · have hb : twoDirs.graph.Edge .root inoB := ⟨[98], by decide⟩
    have hc : twoDirs.graph.Edge inoB inoC := ⟨[99], by decide⟩
    exact .tail (.single hb) hc
  · intro hreach
    let ns := (twoDirs.rename firstClient [47, 97] [47, 98] 0).2
    have hroot : ∀ v, ns.graph.Edge .root v → v = inoA := by
      rintro v ⟨n, hn⟩
      have hmem := mem_entries_of_graph (l := [⟨[98], inoA⟩]) (by decide) hn
      rw [List.mem_singleton] at hmem
      cases hmem
      rfl
    have hleaf : ∀ v, ¬ ns.graph.Edge inoA v := by
      rintro v ⟨n, hn⟩
      exact List.not_mem_nil (mem_entries_of_graph (l := []) (by decide) hn)
    have hclosed : ∀ v, ns.graph.Reach .root v → v = .root ∨ v = inoA := by
      intro v hv
      induction hv with
      | refl => exact .inl rfl
      | tail _ hedge ih =>
          rcases ih with rfl | rfl
          · exact .inr (hroot _ hedge)
          · exact (hleaf _ hedge).elim
    exact absurd (hclosed inoC hreach) (by decide)

end Examples

end Namespace

end Nmfs
