import Nmfs.Meta.Dentry

/-!
# Paths

`get_parent_dir_path` and `get_filename_from_path` look for the last slash of a
path.  FUSE passes paths that begin with a slash.
-/

namespace Nmfs

/-- `path_delimiter` -/
def slash : UInt8 := 47

namespace Path

/-- The loop of `get_parent_dir_path`, which ends before the first character. -/
def parentLoop (path : Bytes) : Nat → Option Bytes
  | 0 => none
  | i + 1 =>
      if path[i + 1]? = some slash then some (path.take (i + 1))
      else parentLoop path i

def getParentDirPath (path : Bytes) : Except Exn Bytes :=
  if path = [] then
    .error (.runtimeError "Invalid path: path is empty string")
  else
    match parentLoop path (path.length - 1) with
    | some parent => .ok parent
    | none =>
        if path[0]? = some slash then .ok (path.take 1)
        else .error (.runtimeError "Invalid path: No delimiter on path")

/-- The loop of `get_filename_from_path`.  Its counter is a `size_t`, so it does
not end at the first character, and a path without a slash is read out of
bounds; such a path is refused here. -/
def filenameLoop (path : Bytes) : Nat → Option Bytes
  | 0 => if path[0]? = some slash then some (path.drop 1) else none
  | i + 1 =>
      if path[i + 1]? = some slash then some (path.drop (i + 2))
      else filenameLoop path i

def getFilenameFromPath (path : Bytes) : Except Exn Name :=
  if path = [] then
    .error (.runtimeError "Invalid path: path is empty string")
  else if path = [slash] then .ok [slash]
  else
    match filenameLoop path (path.length - 1) with
    | some name => .ok name
    | none => .error (.runtimeError "Invalid path: No delimiter on path")

/-- The path of a name in the directory `parent`, which is empty for the root
directory. -/
def join (parent name : Bytes) : Bytes := parent ++ slash :: name

section Join

variable {parent name : Bytes}

theorem join_length : (join parent name).length - 1 = parent.length + name.length := by
  simp [join]

/-- Behind the last slash there is none. -/
theorem join_getElem_ne
    (h : slash ∉ name) (k : Nat) :
    (join parent name)[parent.length + (k + 1)]? ≠ some slash := by
  rw [join, List.getElem?_append_right (by omega),
    show parent.length + (k + 1) - parent.length = k + 1 by omega,
    List.getElem?_cons_succ]
  intro hslash
  exact h (List.mem_of_getElem? hslash)

theorem join_getElem :
    (join parent name)[parent.length]? = some slash := by
  rw [join, List.getElem?_append_right (Nat.le_refl _), Nat.sub_self,
    List.getElem?_cons_zero]

theorem parentLoop_join
    (h : slash ∉ name) {k : Nat} (hk : k ≤ name.length) :
    parentLoop (join parent name) (parent.length + k) =
      if parent = [] then none else some parent := by
  induction k with
  | zero =>
      cases parent with
      | nil => rfl
      | cons b parent =>
          have hget := @join_getElem (b :: parent) name
          rw [List.length_cons] at hget
          simp only [Nat.add_zero, List.length_cons, parentLoop, hget, if_true,
            reduceCtorEq, if_false]
          simp [join]
  | succ k ih =>
      have hne := @join_getElem_ne parent name h k
      rw [show parent.length + (k + 1) = parent.length + k + 1 by omega,
        parentLoop, if_neg (by simpa [Nat.add_assoc] using hne)]
      exact ih (by omega)

theorem filenameLoop_join
    (h : slash ∉ name) {k : Nat} (hk : k ≤ name.length) :
    filenameLoop (join parent name) (parent.length + k) = some name := by
  induction k with
  | zero =>
      have hget := @join_getElem parent name
      cases parent with
      | nil => simp [filenameLoop, join]
      | cons b parent =>
          rw [List.length_cons] at hget
          simp only [Nat.add_zero, List.length_cons, filenameLoop, hget, if_true]
          simp [join]
  | succ k ih =>
      have hne := @join_getElem_ne parent name h k
      rw [show parent.length + (k + 1) = parent.length + k + 1 by omega,
        filenameLoop, if_neg (by simpa [Nat.add_assoc] using hne)]
      exact ih (by omega)

theorem getParentDirPath_join (h : slash ∉ name) :
    getParentDirPath (join parent name) =
      .ok (if parent = [] then [slash] else parent) := by
  have hne : join parent name ≠ [] := by simp [join]
  rw [getParentDirPath, if_neg hne, join_length,
    parentLoop_join h (Nat.le_refl _)]
  cases parent with
  | nil => simp [join]
  | cons b parent => rfl

theorem getFilenameFromPath_join (h : slash ∉ name) (hname : name ≠ []) :
    getFilenameFromPath (join parent name) = .ok name := by
  have hne : join parent name ≠ [] := by simp [join]
  have hroot : join parent name ≠ [slash] := by
    intro heq
    have hlen := congrArg List.length heq
    simp only [join, List.length_append, List.length_cons, List.length_nil] at hlen
    exact hname (List.length_eq_zero_iff.mp (by omega))
  rw [getFilenameFromPath, if_neg hne, if_neg hroot, join_length,
    filenameLoop_join h (Nat.le_refl _)]

end Join

section Filename

/-- What comes after the last slash has none. -/
theorem slash_notMem_drop
    {path : Bytes} {i : Nat} (hlast : ∀ k, i < k → path[k]? ≠ some slash) :
    slash ∉ path.drop (i + 1) := by
  intro hmem
  obtain ⟨k, hk⟩ := List.mem_iff_getElem?.mp hmem
  rw [List.getElem?_drop] at hk
  exact hlast (i + 1 + k) (by omega) hk

theorem filenameLoop_slash
    {path name : Bytes} {i : Nat} (hlast : ∀ k, i < k → path[k]? ≠ some slash)
    (h : filenameLoop path i = some name) : slash ∉ name := by
  induction i with
  | zero =>
      simp only [filenameLoop] at h
      split at h
      · cases h
        exact slash_notMem_drop hlast
      · cases h
  | succ i ih =>
      simp only [filenameLoop] at h
      split at h
      · cases h
        exact slash_notMem_drop hlast
      · rename_i hne
        refine ih ?_ h
        intro k hk
        rcases Nat.eq_or_lt_of_le (Nat.succ_le_of_lt hk) with rfl | hlt
        · exact hne
        · exact hlast k hlt

/-- Only the path of the root directory has a slash in its last name. -/
theorem getFilenameFromPath_slash
    {path name : Bytes} (hpath : path ≠ [slash])
    (h : getFilenameFromPath path = .ok name) : slash ∉ name := by
  unfold getFilenameFromPath at h
  split at h
  · cases h
  · split at h
    · rename_i hname
      cases h
      refine filenameLoop_slash ?_ hname
      intro k hk hget
      have hlt := (List.getElem?_eq_some_iff.mp hget).1
      omega
    · cases h

end Filename

/-- `std::string(new_path).find(old_path) == 0`, and then a slash: the new path
lies inside the old one. -/
def inside (oldPath newPath : Bytes) : Bool :=
  oldPath.isPrefixOf newPath && newPath[oldPath.length]? = some slash

/-- A name of the same directory does not lie inside another one. -/
theorem not_inside_join
    {parent oldName newName : Bytes} (h : slash ∉ newName) :
    inside (join parent oldName) (join parent newName) = false := by
  rw [← Bool.not_eq_true, inside, Bool.and_eq_true, decide_eq_true_eq]
  rintro ⟨-, hget⟩
  rw [join, join, List.length_append, List.length_cons,
    List.getElem?_append_right (by omega),
    show parent.length + (oldName.length + 1) - parent.length =
      oldName.length + 1 by omega, List.getElem?_cons_succ] at hget
  exact h (List.mem_of_getElem? hget)

/-- The names of a path, each behind a slash. -/
def behindSlashes (names : List Bytes) : Bytes := names.flatMap (slash :: ·)

/-- An absolute path, as FUSE passes it. -/
def ofNames (names : List Bytes) : Bytes :=
  if names = [] then [slash] else behindSlashes names

/-- What FUSE passes as a name. -/
def IsName (name : Bytes) : Prop := name ≠ [] ∧ slash ∉ name

theorem ofNames_concat (names : List Bytes) (name : Bytes) :
    ofNames (names ++ [name]) = join (behindSlashes names) name := by
  simp [ofNames, behindSlashes, join]

theorem getParentDirPath_ofNames
    {names : List Bytes} {name : Bytes} (h : IsName name) :
    getParentDirPath (ofNames (names ++ [name])) =
      .ok (if behindSlashes names = [] then [slash] else behindSlashes names) := by
  rw [ofNames_concat, getParentDirPath_join h.2]

/-- A path inside another one has another parent, unless the other one is that of
the root directory; then it does not count as inside. -/
theorem not_inside_ofNames
    {ds es : List Bytes} {parent : Bytes} (hds : ∀ d ∈ ds, IsName d)
    (hes : ∀ e ∈ es, IsName e) (hne : es ≠ [])
    (hold : getParentDirPath (ofNames ds) = .ok parent)
    (hnew : getParentDirPath (ofNames (ds ++ es)) = .ok parent) :
    inside (ofNames ds) (ofNames (ds ++ es)) = false := by
  rcases List.eq_nil_or_concat' ds with rfl | ⟨ds', d, rfl⟩
  · cases es with
    | nil => exact absurd rfl hne
    | cons e es =>
        have he := hes e (by simp)
        cases e with
        | nil => exact absurd rfl he.1
        | cons b e =>
            have hb : b ≠ slash := fun heq => he.2 (by simp [heq])
            simp [inside, ofNames, behindSlashes, hb]
  · exfalso
    obtain ⟨es', e, rfl⟩ := (List.eq_nil_or_concat' es).resolve_left hne
    have hd := hds d (by simp)
    have he := hes e (by simp)
    rw [getParentDirPath_ofNames hd] at hold
    rw [← List.append_assoc, getParentDirPath_ofNames he] at hnew
    have hlen := congrArg List.length
      (Except.ok.inj (hold.trans hnew.symm))
    have hpos := List.length_pos_of_ne_nil hd.1
    have hlong : (behindSlashes (ds' ++ [d] ++ es')).length =
        (behindSlashes ds').length + (d.length + 1) +
          (behindSlashes es').length := by
      simp [behindSlashes]
      omega
    have hlonger : behindSlashes (ds' ++ [d] ++ es') ≠ [] := by
      intro hnil
      rw [hnil, List.length_nil] at hlong
      omega
    rw [if_neg hlonger, hlong] at hlen
    split at hlen
    · rw [List.length_singleton] at hlen
      omega
    · omega

end Path

end Nmfs
