import Nmfs.Meta.PathScan
import Nmfs.Tree.Acyclic

/-!
# Path resolution and the component walk

The loop of `path_traversal` looks a component up in `parent_dentry_table` and
keeps what it finds in `target_inode`.  Only a directory changes the table: a
component behind a file is looked up in the directory of the file, as if the
file were not in the path.

`Walk` is what a path means, and `Found` what the loop asks of it.
-/

namespace Nmfs

namespace Path

theorem namesFrom_append
    {name c : Bytes} (hc : slash ∉ c) (rest : Bytes) :
    namesFrom name (c ++ rest) = namesFrom (name ++ c) rest := by
  induction c generalizing name with
  | nil => simp
  | cons b c ih =>
      have hb : b ≠ slash := fun h => hc (by simp [h])
      have hc' : slash ∉ c := fun h => hc (List.mem_cons_of_mem b h)
      rw [List.cons_append, namesFrom, if_neg hb, ih hc', List.append_assoc,
        List.singleton_append]

theorem namesFrom_behindSlashes
    {name : Bytes} {cs : List Bytes} (hcs : ∀ c ∈ cs, IsName c) :
    namesFrom name (behindSlashes cs) = name :: cs := by
  induction cs generalizing name with
  | nil => rfl
  | cons c cs ih =>
      have hc := hcs c List.mem_cons_self
      have hne : c ++ behindSlashes cs ≠ [] := by simp [hc.1]
      have hcons : behindSlashes (c :: cs) = slash :: (c ++ behindSlashes cs) := rfl
      rw [hcons, namesFrom, if_pos rfl, if_neg hne, namesFrom_append hc.2,
        List.nil_append, ih fun d hd => hcs d (List.mem_cons_of_mem c hd)]

/-- The names of an absolute path are found one by one. -/
theorem names_ofNames
    {cs : List Bytes} (hcs : ∀ c ∈ cs, IsName c) : names (ofNames cs) = cs := by
  cases cs with
  | nil => rfl
  | cons c cs =>
      have hc := hcs c List.mem_cons_self
      have hpath : (ofNames (c :: cs)).drop 1 = c ++ behindSlashes cs := by
        simp [ofNames, behindSlashes]
      have hcs' : ∀ d ∈ cs, IsName d := fun d hd =>
        hcs d (List.mem_cons_of_mem c hd)
      rw [names, hpath]
      cases c with
      | nil => exact absurd rfl hc.1
      | cons b c =>
          change namesFrom [] ((b :: c) ++ behindSlashes cs) = _
          rw [namesFrom_append hc.2, namesFrom_behindSlashes hcs', List.nil_append]

end Path

namespace Namespace

open Directory DentryTable Nmfs.Path

section Traversal

variable (ns : Namespace) (env : Env)

/-- The loop of `path_traversal` with the inode that it returns: a directory is
the one of its own table, another child the one in its parent's. -/
def traverseInode (t : DentryTable) (targetInode : Inode) :
    List Name → Except Thrown Inode
  | [] => .ok targetInode
  | targetName :: rest =>
      if t.checkChildInode targetName = .nil then
        .error (.exn (.noEntry "No such file or Directory: in path traversal"))
      else
        match t.getChildInode targetName with
        | .error e => .error (.exn e)
        | .ok child =>
            if child.core.isDir then
              match ns.getDentryTable env (t.checkChildInode targetName) with
              | .error e => .error e
              | .ok t' =>
                  let d := ns.directory t'
                  if t'.thisDirInode.permissionCheck d.clientUid d.clientGid 1 then
                    traverseInode t' t'.thisDirInode rest
                  else .error .permissionDenied
            else traverseInode t child rest

def pathTraversalInode (path : Bytes) : Except Thrown Inode :=
  match ns.getDentryTable env .root with
  | .error e => .error e
  | .ok t => ns.traverseInode env t t.thisDirInode (names path)

/-- The two loops take the same way. -/
theorem traverse_eq_map (t : DentryTable) (targetInode : Inode) (cs : List Name) :
    ns.traverse env t targetInode.core.ino cs =
      (ns.traverseInode env t targetInode cs).map (·.core.ino) := by
  induction cs generalizing t targetInode with
  | nil => rfl
  | cons c cs ih =>
      by_cases hc : t.checkChildInode c = .nil
      · simp [traverse, traverseInode, hc, Except.map]
      · cases hi : t.getChildInode c with
        | error e => simp [traverse, traverseInode, hc, hi, Except.map]
        | ok child =>
            cases hdir : child.core.isDir with
            | false => simp [traverse, traverseInode, hc, hi, hdir, ih]
            | true =>
                cases ht : ns.getDentryTable env (t.checkChildInode c) with
                | error e =>
                    simp [traverse, traverseInode, hc, hi, hdir, ht, Except.map]
                | ok t' =>
                    have hih := ih t' t'.thisDirInode
                    simp only [traverse, traverseInode, hc, hi, hdir, ht, if_true,
                      if_false]
                    split
                    · exact hih
                    · rfl

theorem pathTraversal_eq_map (path : Bytes) :
    ns.pathTraversal env path =
      (ns.pathTraversalInode env path).map (·.core.ino) := by
  cases ht : ns.getDentryTable env .root with
  | error e => simp [pathTraversal, pathTraversalInode, ht, Except.map]
  | ok t =>
      simp only [pathTraversal, pathTraversalInode, ht]
      exact traverse_eq_map ns env t t.thisDirInode _

end Traversal

/-- What a path leads to. -/
inductive WalkEnd where
  | reached (i : Inode)
  /-- some component is not in the directory named before it -/
  | absent
  /-- some component before the last is not a directory -/
  | notDirectory

/-- Each component is looked up in the directory that the one before it names. -/
inductive Walk (ns : Namespace) : DentryTable → List Name → WalkEnd → Prop
  | here (t : DentryTable) : Walk ns t [] (.reached t.thisDirInode)
  | absent {t : DentryTable} {c : Name} {cs : List Name}
      (hc : t.checkChildInode c = .nil) : Walk ns t (c :: cs) .absent
  | file {t : DentryTable} {c : Name} {i : Inode}
      (hc : t.checkChildInode c ≠ .nil) (hi : t.getChildInode c = .ok i)
      (hfile : i.core.isDir = false) : Walk ns t [c] (.reached i)
  | through {t : DentryTable} {c : Name} {cs : List Name} {i : Inode}
      (hc : t.checkChildInode c ≠ .nil) (hi : t.getChildInode c = .ok i)
      (hfile : i.core.isDir = false) (hcs : cs ≠ []) :
      Walk ns t (c :: cs) .notDirectory
  | dir {t t' : DentryTable} {c : Name} {cs : List Name} {i : Inode} {o : WalkEnd}
      (hc : t.checkChildInode c ≠ .nil) (hi : t.getChildInode c = .ok i)
      (hdir : i.core.isDir = true)
      (ht : ns.tables (t.checkChildInode c) = some t') (h : Walk ns t' cs o) :
      Walk ns t (c :: cs) o

/-- Each component is looked up in the last directory before it; what is not a
directory is passed over. -/
inductive Found (ns : Namespace) : DentryTable → List Name → Prop
  | nil (t : DentryTable) : Found ns t []
  | file {t : DentryTable} {c : Name} {cs : List Name} {i : Inode}
      (hc : t.checkChildInode c ≠ .nil) (hi : t.getChildInode c = .ok i)
      (hfile : i.core.isDir = false) (h : Found ns t cs) : Found ns t (c :: cs)
  | dir {t t' : DentryTable} {c : Name} {cs : List Name} {i : Inode}
      (hc : t.checkChildInode c ≠ .nil) (hi : t.getChildInode c = .ok i)
      (hdir : i.core.isDir = true)
      (ht : ns.tables (t.checkChildInode c) = some t') (h : Found ns t' cs) :
      Found ns t (c :: cs)

/-- Path resolution does what the walk says. -/
def WalkEnd.Matches : WalkEnd → Outcome Thrown Inode → Prop
  | .reached i, r => r = .ok i
  | .absent, r => ∃ msg, r = .throws (.exn (.noEntry msg))
  | .notDirectory, r => ∀ i, r ≠ .ok i

/-- Every directory has a table at the client, which may search it. -/
structure LocalTree (ns : Namespace) (env : Env) : Prop where
  root : ∃ t, ns.tables .root = some t
  led : ∀ ino t, ns.tables ino = some t → ns.leader t.dirIno = env.self
  closed : ∀ ino t c i, ns.tables ino = some t → IsName c →
    t.checkChildInode c ≠ .nil → t.getChildInode c = .ok i →
    i.core.isDir = true → ∃ t', ns.tables (t.checkChildInode c) = some t'
  search : ∀ ino t, ns.tables ino = some t →
    t.thisDirInode.permissionCheck (ns.directory t).clientUid
      (ns.directory t).clientGid 1 = true

section Walk

variable {ns : Namespace} {env : Env} {t t' : DentryTable} {tgt : Inode}
  {c : Name} {cs : List Name} {i : Inode} {o o' : WalkEnd} {ino : Uuid}

/-- A name that is listed has an inode. -/
theorem getChildInode_of_checked
    (hname : IsName c) (hc : t.checkChildInode c ≠ .nil) :
    ∃ i, t.getChildInode c = .ok i := by
  have hne : c ≠ rootName := by
    rintro rfl
    exact hname.2 (by simp [rootName, slash])
  rw [checkChildInode, if_neg hne] at hc
  have hsome : (t.childIno c).isSome := by
    cases hl : t.childIno c with
    | some x => rfl
    | none =>
        rw [childIno] at hl
        exact absurd (by simp [Dentry.getChildIno, hl]) hc
  rw [← t.childInodes_isSome, Option.isSome_iff_exists] at hsome
  obtain ⟨i, hi⟩ := hsome
  exact ⟨i, by simp [getChildInode, hi]⟩

theorem Walk.exists
    (h : LocalTree ns env) (ht : ns.tables ino = some t)
    (hcs : ∀ c ∈ cs, IsName c) : ∃ o, ns.Walk t cs o := by
  induction cs generalizing t ino with
  | nil => exact ⟨_, .here t⟩
  | cons c cs ih =>
      have hname := hcs c List.mem_cons_self
      by_cases hc : t.checkChildInode c = .nil
      · exact ⟨_, .absent hc⟩
      · obtain ⟨i, hi⟩ := getChildInode_of_checked hname hc
        cases hdir : i.core.isDir with
        | true =>
            obtain ⟨t', ht'⟩ := h.closed ino t c i ht hname hc hi hdir
            obtain ⟨o, ho⟩ :=
              ih ht' fun d hd => hcs d (List.mem_cons_of_mem c hd)
            exact ⟨o, .dir hc hi hdir ht' ho⟩
        | false =>
            by_cases hnil : cs = []
            · subst hnil
              exact ⟨_, .file hc hi hdir⟩
            · exact ⟨_, .through hc hi hdir hnil⟩

/-- A path leads to one end. -/
theorem Walk.unique (h : ns.Walk t cs o) (h' : ns.Walk t cs o') : o = o' := by
  induction h with
  | here t =>
      cases h'
      rfl
  | absent hc =>
      cases h' with
      | absent _ => rfl
      | file hc' | through hc' | dir hc' => exact absurd hc hc'
  | file hc hi hfile =>
      cases h' with
      | absent hc' => exact absurd hc' hc
      | file _ hi' _ =>
          rw [hi] at hi'
          cases hi'
          rfl
      | through _ _ _ hcs => exact absurd rfl hcs
      | dir _ hi' hdir =>
          rw [hi] at hi'
          cases hi'
          rw [hfile] at hdir
          cases hdir
  | through hc hi hfile hcs =>
      cases h' with
      | absent hc' => exact absurd hc' hc
      | file => exact absurd rfl hcs
      | through => rfl
      | dir _ hi' hdir =>
          rw [hi] at hi'
          cases hi'
          rw [hfile] at hdir
          cases hdir
  | dir hc hi hdir ht _ ih =>
      cases h' with
      | absent hc' => exact absurd hc' hc
      | file _ hi' hfile | through _ hi' hfile =>
          rw [hi] at hi'
          cases hi'
          rw [hfile] at hdir
          cases hdir
      | dir _ _ _ ht' h' =>
          rw [ht] at ht'
          cases ht'
          exact ih h'

/-- A component that is not a directory leaves the loop where it is. -/
theorem traverseInode_file
    (hc : t.checkChildInode c ≠ .nil) (hi : t.getChildInode c = .ok i)
    (hfile : i.core.isDir = false) :
    ns.traverseInode env t tgt (c :: cs) = ns.traverseInode env t i cs := by
  simp [traverseInode, hc, hi, hfile]

theorem traverseInode_dir
    (h : LocalTree ns env) (hc : t.checkChildInode c ≠ .nil)
    (hi : t.getChildInode c = .ok i) (hdir : i.core.isDir = true)
    (ht : ns.tables (t.checkChildInode c) = some t') :
    ns.traverseInode env t tgt (c :: cs) =
      ns.traverseInode env t' t'.thisDirInode cs := by
  simp [traverseInode, hc, hi, hdir, getDentryTable, ht, h.search _ _ ht]

theorem Walk.traverseInode_reached
    (h : LocalTree ns env) (hw : ns.Walk t cs o) :
    (∀ i, o = .reached i → ns.traverseInode env t t.thisDirInode cs = .ok i) ∧
      (o = .absent → ∃ msg, ns.traverseInode env t t.thisDirInode cs =
        .error (.exn (.noEntry msg))) := by
  induction hw with
  | here t =>
      refine ⟨?_, nofun⟩
      rintro i ⟨⟩
      rfl
  | absent hc =>
      refine ⟨nofun, fun _ => ?_⟩
      rw [traverseInode, if_pos hc]
      exact ⟨_, rfl⟩
  | file hc hi hfile =>
      refine ⟨?_, nofun⟩
      rintro i ⟨⟩
      rw [traverseInode_file hc hi hfile]
      rfl
  | through hc hi hfile hcs => exact ⟨nofun, nofun⟩
  | dir hc hi hdir ht hw ih =>
      rw [traverseInode_dir h hc hi hdir ht]
      exact ih

/-- The loop returns an inode exactly if it finds every component. -/
theorem Found.traverseInode
    (h : LocalTree ns env) (hf : ns.Found t cs) :
    ∃ i, ns.traverseInode env t tgt cs = .ok i := by
  induction hf generalizing tgt with
  | nil t => exact ⟨tgt, rfl⟩
  | file hc hi hfile hf ih =>
      rw [traverseInode_file hc hi hfile]
      exact ih
  | dir hc hi hdir ht hf ih =>
      rw [traverseInode_dir h hc hi hdir ht]
      exact ih

theorem found_of_traverseInode
    (h : ns.traverseInode env t tgt cs = .ok i) : ns.Found t cs := by
  induction cs generalizing t tgt with
  | nil => exact .nil t
  | cons c cs ih =>
      simp only [Namespace.traverseInode] at h
      split at h
      · cases h
      · rename_i hc
        split at h
        · cases h
        · rename_i child hi
          split at h
          · rename_i hdir
            split at h
            · cases h
            · rename_i t' ht
              split at h
              · refine .dir hc hi hdir ?_ (ih h)
                unfold getDentryTable at ht
                split at ht
                · cases ht
                  assumption
                · cases ht
              · cases h
          · rename_i hfile
            exact .file hc hi (by simpa using hfile) (ih h)

/-- The loop is the component walk, except for a path that leads through something
that is not a directory to a name of the directory around it. -/
theorem traverseInode_matches_iff
    (h : LocalTree ns env) (hroot : ns.tables ino = some t) (hcs : ∀ c ∈ cs, IsName c) :
    (∃ o, ns.Walk t cs o ∧
        o.Matches (.ofExcept (ns.traverseInode env t t.thisDirInode cs))) ↔
      ¬ (ns.Walk t cs .notDirectory ∧ ns.Found t cs) := by
  constructor
  · rintro ⟨o, hw, hm⟩ ⟨hthrough, hfound⟩
    obtain rfl := hw.unique hthrough
    obtain ⟨i, hi⟩ := hfound.traverseInode h
    exact hm i (by rw [hi]; rfl)
  · intro hcond
    obtain ⟨o, hw⟩ := Walk.exists h hroot hcs
    refine ⟨o, hw, ?_⟩
    cases o with
    | reached i =>
        rw [(hw.traverseInode_reached h).1 i rfl]
        rfl
    | absent =>
        obtain ⟨msg, hmsg⟩ := (hw.traverseInode_reached h).2 rfl
        exact ⟨msg, by rw [hmsg]; rfl⟩
    | notDirectory =>
        intro i hi
        cases hr : ns.traverseInode env t t.thisDirInode cs with
        | error e =>
            rw [hr] at hi
            cases hi
        | ok i' => exact hcond ⟨hw, found_of_traverseInode hr⟩

end Walk

end Namespace

end Nmfs
