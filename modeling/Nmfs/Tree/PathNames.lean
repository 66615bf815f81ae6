import Nmfs.Meta.PathScan
import Nmfs.Tree.Walk

/-!
# The names that `path_traversal` cuts out of a path

The loop of `path_traversal` moves two `int`s over the path with
`set_name_bound`; `get_parent_dir_path` and `get_filename_from_path` come from
the other end.  Here the loop has the body of its caller as a parameter: what it
does with the names is the same for every body.

A path of 2 GiB has a length that is no `int`.
-/

namespace Nmfs

/-- Go on with a result, unless something has gone wrong. -/
def Outcome.bind {ε α β : Type} : Outcome ε α → (α → Outcome ε β) → Outcome ε β
  | .ok a, f => f a
  | .throws e, _ => .throws e
  | .faults x, _ => .faults x

namespace Path

/-- The exception of `std::string::at` and `std::string::substr`. -/
def outOfRange : Thrown := .exn (.logicError "std::out_of_range")

/-- `static_cast<int>(path.length())` -/
def intLength (path : Bytes) : Int := Int.bmod path.length (2 ^ 32)

/-- An `int` where a `size_t` is expected. -/
def sizeOfInt (n : Int) : Nat := (n % 2 ^ 64).toNat

/-- The loop of `set_name_bound`, and the end of the name after it.  `left`
bounds the iterations. -/
def scanBound (path : Bytes) (pathLen endName : Int) :
    (left : Nat) → (i : Int) → Outcome Thrown Int
  | 0, _ => .faults .divergence
  | left + 1, i =>
      if i < pathLen then
        match path[sizeOfInt i]? with
        | none => .throws outOfRange
        | some b =>
            if b = slash then .ok (i - 1)
            else scanBound path pathLen endName left (i + 1)
      else if i = pathLen then .ok (i - 1)
      else .ok endName

/-- `set_name_bound`: the new `start_name` and `end_name`, unless it returns
-1. -/
def setNameBound (path : Bytes) (pathLen endName : Int) :
    Outcome Thrown (Option (Int × Int)) :=
  if 2 ^ 31 ≤ endName + 2 then
    .faults .undefinedBehaviour
  else if pathLen ≤ endName + 2 then
    .ok none
  else
    (scanBound path pathLen endName (path.length + 1) (endName + 2)).bind
      fun i => .ok (some (endName + 2, i))

/-- `path.substr(start_name, end_name - start_name + 1)` -/
def substr (path : Bytes) (startName endName : Int) : Outcome Thrown Bytes :=
  if path.length < sizeOfInt startName then .throws outOfRange
  else
    .ok (Bytes.slice path (sizeOfInt startName)
      (sizeOfInt (endName - startName + 1)))

section Loops

variable {σ : Type}

/-- The loop of `path_traversal`, with `step` for what it does with a name. -/
def cutLoop (step : σ → Name → Except Thrown σ) (path : Bytes) (pathLen : Int) :
    (left : Nat) → (endName : Int) → σ → Outcome Thrown σ
  | 0, _, _ => .faults .divergence
  | left + 1, endName, s =>
      (setNameBound path pathLen endName).bind fun
        | none => .ok s
        | some (startName, endName) =>
            (substr path startName endName).bind fun targetName =>
              (Outcome.ofExcept (step s targetName)).bind fun s =>
                cutLoop step path pathLen left endName s

def forNames (step : σ → Name → Except Thrown σ) (path : Bytes) (s : σ) :
    Outcome Thrown σ :=
  cutLoop step path (intLength path) (path.length + 1) (-1) s

/-- The names that the loop finds. -/
def cutNames (path : Bytes) : Outcome Thrown (List Name) :=
  forNames (fun names name => .ok (names ++ [name])) path []

end Loops

section Bounds

variable {path : Bytes} {k left : Nat} {endName : Int}

theorem intLength_eq (h : path.length < 2 ^ 31) : intLength path = path.length := by
  unfold intLength
  exact Int.bmod_eq_of_le (by omega) (by omega)

theorem sizeOfInt_natCast (h : k < 2 ^ 64) : sizeOfInt k = k := by
  unfold sizeOfInt
  omega

/-- The characters up to the next slash. -/
def nameAt (path : Bytes) (k : Nat) : Name := (path.drop k).takeWhile (· ≠ slash)

theorem nameAt_of_slash (hk : path[k]? = some slash) : nameAt path k = [] := by
  obtain ⟨hlt, hget⟩ := List.getElem?_eq_some_iff.mp hk
  rw [nameAt, List.drop_eq_getElem_cons hlt, hget]
  rfl

theorem nameAt_of_ne {b : UInt8} (hk : path[k]? = some b) (hb : b ≠ slash) :
    nameAt path k = b :: nameAt path (k + 1) := by
  obtain ⟨hlt, hget⟩ := List.getElem?_eq_some_iff.mp hk
  rw [nameAt, List.drop_eq_getElem_cons hlt, hget]
  exact List.takeWhile_cons_of_pos (decide_eq_true hb)

theorem nameAt_length_le (hk : k ≤ path.length) :
    k + (nameAt path k).length ≤ path.length := by
  have hle := (List.takeWhile_sublist (· ≠ slash) (l := path.drop k)).length_le
  rw [List.length_drop] at hle
  unfold nameAt
  omega

/-- The scan stops behind the name. -/
theorem scanBound_eq
    (hsize : path.length < 2 ^ 31) (hk : k ≤ path.length)
    (hleft : path.length - k < left) :
    scanBound path path.length endName left k =
      .ok ((k + (nameAt path k).length : Nat) - 1) := by
  induction left generalizing k with
  | zero => omega
  | succ left ih =>
      rw [scanBound]
      by_cases hlt : k < path.length
      · have hget := List.getElem?_eq_getElem hlt
        rw [if_pos (by omega), sizeOfInt_natCast (by omega), hget]
        dsimp only
        by_cases hb : path[k] = slash
        · rw [if_pos hb, nameAt_of_slash (hget.trans (congrArg some hb))]
          rfl
        · rw [if_neg hb, nameAt_of_ne hget hb,
            show (k : Int) + 1 = (k + 1 : Nat) by omega, ih (by omega) (by omega),
            List.length_cons]
          congr 2
          omega
      · have hend : k = path.length := by omega
        rw [if_neg (by omega), if_pos (by omega), nameAt,
          List.drop_eq_nil_of_le (by omega)]
        rfl

theorem setNameBound_eq (hsize : path.length + 1 < 2 ^ 31) (hk : k ≤ path.length + 1) :
    setNameBound path path.length ((k : Int) - 2) =
      if path.length ≤ k then .ok none
      else .ok (some (k, (k + (nameAt path k).length : Nat) - 1)) := by
  unfold setNameBound
  rw [show (k : Int) - 2 + 2 = k by omega, if_neg (by omega)]
  by_cases hend : path.length ≤ k
  · rw [if_pos (by omega), if_pos hend]
  · rw [if_neg (by omega), if_neg hend,
      scanBound_eq (by omega) (by omega) (by omega)]
    rfl

theorem substr_eq (hsize : path.length < 2 ^ 31) (hk : k ≤ path.length) :
    substr path k ((k + (nameAt path k).length : Nat) - 1) =
      .ok (nameAt path k) := by
  have hle := nameAt_length_le hk
  unfold substr
  rw [sizeOfInt_natCast (by omega), if_neg (by omega),
    show ((k + (nameAt path k).length : Nat) : Int) - 1 - k + 1 =
      ((nameAt path k).length : Nat) by omega, sizeOfInt_natCast (by omega), Bytes.slice]
  congr 1
  have hprefix := List.takeWhile_prefix (· ≠ slash) (l := path.drop k)
  exact (List.prefix_iff_eq_take.mp hprefix).symm

/-- The names from position `k` on. -/
def namesAt (path : Bytes) (k : Nat) : List Name :=
  match path.drop k with
  | [] => []
  | b :: rest => namesFrom [] (b :: rest)

theorem namesFrom_eq (name rest : Bytes) :
    namesFrom name rest =
      (name ++ rest.takeWhile (· ≠ slash)) ::
        namesAt rest ((rest.takeWhile (· ≠ slash)).length + 1) := by
  induction rest generalizing name with
  | nil => simp [namesFrom, namesAt]
  | cons b rest ih =>
      rw [namesFrom]
      by_cases hb : b = slash
      · rw [if_pos hb, List.takeWhile_cons_of_neg (by simp [hb]), List.append_nil,
          List.length_nil, namesAt]
        cases rest with
        | nil => rfl
        | cons b' rest => rfl
      · rw [if_neg hb, ih, List.takeWhile_cons_of_pos (by simp [hb])]
        simp [namesAt]

theorem namesAt_cons (hk : k < path.length) :
    namesAt path k =
      nameAt path k :: namesAt path (k + (nameAt path k).length + 1) := by
  have hdrop := List.drop_eq_getElem_cons hk
  have hnames : namesAt path k = namesFrom [] (path.drop k) := by
    rw [namesAt, hdrop]
  rw [hnames, namesFrom_eq, List.nil_append]
  congr 1
  rw [namesAt, List.drop_drop, ← Nat.add_assoc]
  rfl

theorem namesAt_nil (hk : path.length ≤ k) : namesAt path k = [] := by
  rw [namesAt, List.drop_eq_nil_of_le hk]

end Bounds

section Names

variable {σ : Type} (step : σ → Name → Except Thrown σ) {path : Bytes}

/-- From one name to the next, the loop goes over the names of the path. -/
theorem cutLoop_eq
    {k left : Nat} (hsize : path.length + 1 < 2 ^ 31) (hk : k ≤ path.length + 1)
    (hleft : path.length - k < left) (s : σ) :
    cutLoop step path path.length left ((k : Int) - 2) s =
      .ofExcept ((namesAt path k).foldlM step s) := by
  induction left generalizing k s with
  | zero => omega
  | succ left ih =>
      rw [cutLoop, setNameBound_eq hsize hk]
      by_cases hend : path.length ≤ k
      · rw [if_pos hend, namesAt_nil hend]
        rfl
      · have hle := nameAt_length_le (Nat.le_of_not_le hend)
        rw [if_neg hend, Outcome.bind]
        dsimp only
        rw [substr_eq (by omega) (by omega), Outcome.bind,
          namesAt_cons (by omega), List.foldlM_cons]
        cases step s (nameAt path k) with
        | error e => rfl
        | ok s =>
            have hnext := ih (k := k + (nameAt path k).length + 1) (by omega)
              (by omega) s
            rw [show ((k + (nameAt path k).length + 1 : Nat) : Int) - 2 =
              (k + (nameAt path k).length : Nat) - 1 by omega] at hnext
            exact hnext

/-- The loop of the source does what a loop over the names of the path does. -/
theorem forNames_eq (hsize : path.length + 1 < 2 ^ 31) (s : σ) :
    forNames step path s = .ofExcept ((names path).foldlM step s) := by
  rw [forNames, intLength_eq (by omega)]
  exact cutLoop_eq (k := 1) step hsize (by omega) (by omega) s

theorem foldlM_append_singleton (before cs : List Name) :
    cs.foldlM (m := Except Thrown) (fun names name => .ok (names ++ [name])) before =
      .ok (before ++ cs) := by
  induction cs generalizing before with
  | nil => simp [pure, Except.pure]
  | cons c cs ih =>
      rw [List.foldlM_cons]
      exact (ih (before ++ [c])).trans (by simp)

theorem cutNames_eq (hsize : path.length + 1 < 2 ^ 31) :
    cutNames path = .ok (names path) := by
  rw [cutNames, forNames_eq _ hsize, foldlM_append_singleton]
  rfl

end Names

section Canonical

variable {cs : List Name} {c : Name}

theorem parentPath_ofNames (hc : IsName c) :
    getParentDirPath (ofNames (cs ++ [c])) = .ok (ofNames cs) := by
  rw [getParentDirPath_ofNames hc]
  cases cs <;> rfl

theorem filename_ofNames (hc : IsName c) :
    getFilenameFromPath (ofNames (cs ++ [c])) = .ok c := by
  rw [ofNames_concat, getFilenameFromPath_join hc.2 hc.1]

theorem ofNames_length_le (hc : IsName c) :
    (ofNames cs).length ≤ (ofNames (cs ++ [c])).length := by
  have hpos := List.length_pos_of_ne_nil hc.1
  rw [ofNames_concat, join, List.length_append, List.length_cons]
  cases cs with
  | nil =>
      rw [ofNames, if_pos rfl, List.length_singleton]
      omega
  | cons d cs =>
      rw [ofNames, if_neg (List.cons_ne_nil d cs)]
      omega

/-- What the parsers make of the path with the names `cs` and then `c`. -/
structure Agree (cs : List Name) (c : Name) : Prop where
  names : cutNames (ofNames (cs ++ [c])) = .ok (cs ++ [c])
  filename : scanFilenameFromPath (ofNames (cs ++ [c])) = .ok c
  parent : ∃ parent, scanParentDirPath (ofNames (cs ++ [c])) = .ok parent ∧
    cutNames parent = .ok cs ∧
    ∀ (σ : Type) (step : σ → Name → Except Thrown σ) (s : σ),
      forNames step (ofNames (cs ++ [c])) s =
        (forNames step parent s).bind fun s' => .ofExcept (step s' c)
  determined : ∀ (ds : List Name) (d : Name), (∀ x ∈ ds ++ [d], IsName x) →
    (ofNames (ds ++ [d])).length < 2 ^ 64 →
    scanParentDirPath (ofNames (ds ++ [d])) =
      scanParentDirPath (ofNames (cs ++ [c])) →
    scanFilenameFromPath (ofNames (ds ++ [d])) =
      scanFilenameFromPath (ofNames (cs ++ [c])) →
    ofNames (ds ++ [d]) = ofNames (cs ++ [c])

theorem scanParent_ofNames
    (hc : IsName c) (hsize : (ofNames (cs ++ [c])).length < 2 ^ 64) :
    scanParentDirPath (ofNames (cs ++ [c])) = .ok (ofNames cs) := by
  rw [scanParentDirPath_eq hsize, parentPath_ofNames hc]
  rfl

theorem scanFilename_ofNames
    (hc : IsName c) (hsize : (ofNames (cs ++ [c])).length < 2 ^ 64) :
    scanFilenameFromPath (ofNames (cs ++ [c])) = .ok c := by
  have hmem : slash ∈ ofNames (cs ++ [c]) := by
    rw [ofNames_concat, join]
    exact List.mem_append_right _ List.mem_cons_self
  rw [scanFilenameFromPath_eq hsize, if_pos (.inr hmem), filename_ofNames hc]
  rfl

/-- The loop over a path is the loop over the path of its parent, and then one
step with its last name. -/
theorem forNames_ofNames
    {σ : Type} (step : σ → Name → Except Thrown σ) (s : σ)
    (hcs : ∀ d ∈ cs ++ [c], IsName d)
    (hsize : (ofNames (cs ++ [c])).length + 1 < 2 ^ 31) :
    forNames step (ofNames (cs ++ [c])) s =
      (forNames step (ofNames cs) s).bind fun s' => .ofExcept (step s' c) := by
  have hle := @ofNames_length_le cs c (hcs c (by simp))
  rw [forNames_eq step hsize, forNames_eq step (by omega), names_ofNames hcs,
    names_ofNames fun d hd => hcs d (List.mem_append_left [c] hd),
    List.foldlM_append]
  cases hrun : cs.foldlM step s with
  | error e => rfl
  | ok s' =>
      change Outcome.ofExcept ([c].foldlM step s') = .ofExcept (step s' c)
      rw [List.foldlM_cons]
      cases step s' c <;> rfl

/-- **The parsers agree** on every path whose length and the next number are
`int`s. -/
theorem parsers_agree
    {cs : List Name} {c : Name} (hcs : ∀ d ∈ cs ++ [c], IsName d)
    (hsize : (ofNames (cs ++ [c])).length + 1 < 2 ^ 31) : Agree cs c := by
  have hc : IsName c := hcs c (by simp)
  have hle := @ofNames_length_le cs c hc
  have hcs' : ∀ d ∈ cs, IsName d := fun d hd =>
    hcs d (List.mem_append_left [c] hd)
  constructor
  · rw [cutNames_eq hsize, names_ofNames hcs]
  · exact scanFilename_ofNames hc (by omega)
  · refine ⟨ofNames cs, scanParent_ofNames hc (by omega), ?_, ?_⟩
    · rw [cutNames_eq (by omega), names_ofNames hcs']
    · intro σ step s
      exact forNames_ofNames step s hcs hsize
  · intro ds d hds hsize' hparent hname
    have hd : IsName d := hds d (by simp)
    have hds' : ∀ x ∈ ds, IsName x := fun x hx =>
      hds x (List.mem_append_left [d] hx)
    rw [scanParent_ofNames hd hsize', scanParent_ofNames hc (by omega)] at hparent
    rw [scanFilename_ofNames hd hsize', scanFilename_ofNames hc (by omega)] at hname
    have hnames : ds = cs := by
      rw [← names_ofNames hds', ← names_ofNames hcs', Outcome.ok.inj hparent]
    rw [hnames, Outcome.ok.inj hname]

theorem parsers_agree_two : Agree [[97]] [98] :=
  parsers_agree (by simp [IsName, slash]) (by decide)

/-- A path of 2 GiB, with one name. -/
def longName : Name := List.replicate (2 ^ 31 - 1) 97

theorem cutNames_long {path : Bytes} (h : path.length = 2 ^ 31) :
    cutNames path = .ok [] := by
  have hlen : intLength path = -2147483648 := by
    have hcast : (path.length : Int) = 2147483648 := by
      rw [h]
      decide
    unfold intLength
    rw [hcast]
    decide
  have hbound : setNameBound path (-2147483648) (-1) = .ok none := by
    unfold setNameBound
    rw [if_neg (by decide), if_pos (by decide)]
  rw [cutNames, forNames, hlen, cutLoop, hbound, Outcome.bind]

theorem parsers_agree_not_long :
    (∀ d ∈ [] ++ [longName], IsName d) ∧ ¬ Agree [] longName := by
  have hlen : longName.length = 2 ^ 31 - 1 := List.length_replicate
  have hname : IsName longName := by
    constructor
    · intro hnil
      rw [hnil] at hlen
      cases hlen
    · intro hmem
      cases List.eq_of_mem_replicate hmem
  constructor
  · intro d hd
    obtain rfl : d = longName := by simpa using hd
    exact hname
  · intro h
    have hnames := h.names
    rw [cutNames_long] at hnames
    · cases hnames
    · rw [ofNames_concat, join, List.length_append, List.length_cons, hlen]
      rfl

end Canonical

end Path

namespace Namespace

open Directory DentryTable Nmfs.Path

section Traversal

variable (ns : Namespace) (env : Env)

/-- What `path_traversal` does with a name: the table and `target_inode`
afterwards. -/
def visit (s : DentryTable × Inode) (targetName : Name) :
    Except Thrown (DentryTable × Inode) :=
  if s.1.checkChildInode targetName = .nil then
    .error (.exn (.noEntry "No such file or Directory: in path traversal"))
  else
    match s.1.getChildInode targetName with
    | .error e => .error (.exn e)
    | .ok child =>
        if child.core.isDir then
          match ns.getDentryTable env (s.1.checkChildInode targetName) with
          | .error e => .error e
          | .ok t =>
              let d := ns.directory t
              if t.thisDirInode.permissionCheck d.clientUid d.clientGid 1 then
                .ok (t, t.thisDirInode)
              else .error .permissionDenied
        else .ok (s.1, child)

theorem traverseInode_eq_foldlM (t : DentryTable) (i : Inode) (cs : List Name) :
    ns.traverseInode env t i cs = (cs.foldlM (ns.visit env) (t, i)).map (·.2) := by
  induction cs generalizing t i with
  | nil => rfl
  | cons c cs ih =>
      rw [List.foldlM_cons, traverseInode, visit]
      dsimp only
      split
      · rfl
      · cases t.getChildInode c with
        | error e => rfl
        | ok child =>
            dsimp only
            split
            · cases ns.getDentryTable env (t.checkChildInode c) with
              | error e => rfl
              | ok t' =>
                  dsimp only
                  split
                  · exact ih t' t'.thisDirInode
                  · rfl
            · exact ih t child

/-- `path_traversal`, which cuts the names out of the path itself. -/
def scanTraversal (path : Bytes) : Outcome Thrown Inode :=
  match ns.getDentryTable env .root with
  | .error e => .throws e
  | .ok t =>
      (forNames (ns.visit env) path (t, t.thisDirInode)).bind fun s => .ok s.2

theorem scanTraversal_eq {path : Bytes} (hsize : path.length + 1 < 2 ^ 31) :
    ns.scanTraversal env path = .ofExcept (ns.pathTraversalInode env path) := by
  rw [scanTraversal, pathTraversalInode]
  cases ns.getDentryTable env .root with
  | error e => rfl
  | ok t =>
      dsimp only
      rw [forNames_eq _ hsize, traverseInode_eq_foldlM]
      cases (names path).foldlM (ns.visit env) (t, t.thisDirInode) <;> rfl

end Traversal

/-- Path resolution is the component walk, except for a path that leads through
something that is not a directory to a name of the directory around it. -/
theorem traversal_matches_iff
    {ns : Namespace} {env : Env} {t : DentryTable} {cs : List Name}
    (h : LocalTree ns env) (hroot : ns.tables .root = some t)
    (hcs : ∀ c ∈ cs, IsName c) (hsize : (ofNames cs).length + 1 < 2 ^ 31) :
    (∃ o, ns.Walk t cs o ∧ o.Matches (ns.scanTraversal env (ofNames cs))) ↔
      ¬ (ns.Walk t cs .notDirectory ∧ ns.Found t cs) := by
  have hpath : ns.scanTraversal env (ofNames cs) =
      .ofExcept (ns.traverseInode env t t.thisDirInode cs) := by
    rw [scanTraversal_eq ns env hsize]
    simp [pathTraversalInode, getDentryTable, hroot, names_ofNames hcs]
  rw [hpath]
  exact traverseInode_matches_iff h hroot hcs

section Examples

def fileA : Inode := .new .root 1000 1000 (sIFREG ||| 0o644) inoA ⟨1700000001, 0⟩

def fileB : Inode := .new .root 1000 1000 (sIFREG ||| 0o644) inoB ⟨1700000001, 0⟩

def dirD : Inode := .new .root 1000 1000 (sIFDIR ||| 0o755) inoC ⟨1700000001, 0⟩

/-- The files `a` and `b` and the directory `d` in the root directory. -/
def rootTable : DentryTable :=
  ((emptyRoot.table.putChild [97] fileA).putChild [98] fileB).putChild [100] dirD

/-- The file `b` again, in the directory `d`. -/
def tableD : DentryTable := (DentryTable.new dirD).putChild [98] fileB

def twoFiles : Namespace where
  tables := Function.update (Function.update (fun _ => none) .root (some rootTable))
    inoC (some tableD)
  leader _ := 0
  clients _ := ⟨.new, 1000, 1000⟩

theorem twoFiles_root : twoFiles.tables .root = some rootTable := rfl

theorem twoFiles_d : twoFiles.tables inoC = some tableD := rfl

theorem tables_twoFiles
    {ino : Uuid} {t : DentryTable} (h : twoFiles.tables ino = some t) :
    t = rootTable ∨ t = tableD := by
  unfold twoFiles at h
  dsimp only at h
  rcases eq_or_ne ino inoC with rfl | hne
  · rw [Function.update_self] at h
    exact .inr (Option.some.inj h).symm
  · rw [Function.update_of_ne hne] at h
    rcases eq_or_ne ino .root with rfl | hne
    · rw [Function.update_self] at h
      exact .inl (Option.some.inj h).symm
    · rw [Function.update_of_ne hne] at h
      cases h

/-- The only subdirectory is `d`. -/
theorem dirs_twoFiles
    {ino : Uuid} {t : DentryTable} {c : Name} {i : Inode}
    (ht : twoFiles.tables ino = some t) (hi : t.getChildInode c = .ok i)
    (hdir : i.core.isDir = true) : t = rootTable ∧ c = [100] := by
  rw [getChildInode] at hi
  rcases tables_twoFiles ht with rfl | rfl
  · refine ⟨rfl, ?_⟩
    by_contra hd
    rw [rootTable, putChild_childInodes_ne _ _ _ hd] at hi
    rcases eq_or_ne c [98] with rfl | hb
    · rw [putChild_childInodes] at hi
      cases hi
      exact absurd hdir (by decide)
    · rw [putChild_childInodes_ne _ _ _ hb] at hi
      rcases eq_or_ne c [97] with rfl | ha
      · rw [putChild_childInodes] at hi
        cases hi
        exact absurd hdir (by decide)
      · rw [putChild_childInodes_ne _ _ _ ha] at hi
        cases hi
  · exfalso
    rw [tableD] at hi
    rcases eq_or_ne c [98] with rfl | hb
    · rw [putChild_childInodes] at hi
      cases hi
      exact absurd hdir (by decide)
    · rw [putChild_childInodes_ne _ _ _ hb] at hi
      cases hi

theorem twoFiles_localTree : LocalTree twoFiles firstClient where
  root := ⟨_, twoFiles_root⟩
  led _ _ _ := rfl
  closed ino t c i ht _ _ hi hdir := by
    obtain ⟨rfl, rfl⟩ := dirs_twoFiles ht hi hdir
    exact ⟨_, twoFiles_d⟩
  search ino t ht := by
    rcases tables_twoFiles ht with rfl | rfl
    · decide
    · decide

/-- The path `/d/b` leads to the file `b` in the directory `d`. -/
theorem traversal_matches_file :
    twoFiles.scanTraversal firstClient (ofNames [[100], [98]]) = .ok fileB := by
  have hwalk : twoFiles.Walk rootTable [[100], [98]] (.reached fileB) :=
    .dir (i := dirD) (by decide) rfl rfl twoFiles_d (.file (by decide) rfl rfl)
  obtain ⟨o, ho, hmatches⟩ := (traversal_matches_iff twoFiles_localTree twoFiles_root
    (show ∀ c ∈ [[100], [98]], IsName c by simp [IsName, slash]) (by decide)).mpr fun h => by
      cases hwalk.unique h.1
  obtain rfl := ho.unique hwalk
  exact hmatches

/-- The path `/a/b` leads through the file `a` to the file `b`. -/
theorem traversal_through_file :
    LocalTree twoFiles firstClient ∧
      twoFiles.Walk rootTable [[97], [98]] .notDirectory ∧
      twoFiles.scanTraversal firstClient (ofNames [[97], [98]]) = .ok fileB ∧
      ¬ WalkEnd.notDirectory.Matches
        (twoFiles.scanTraversal firstClient (ofNames [[97], [98]])) := by
  have hreturn : twoFiles.scanTraversal firstClient
      (ofNames [[97], [98]]) = .ok fileB := rfl
  refine ⟨twoFiles_localTree, ?_, hreturn, fun h => h fileB hreturn⟩
  exact .through (i := fileA) (by decide) rfl rfl (by decide)

end Examples

end Namespace

end Nmfs
