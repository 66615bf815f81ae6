import Nmfs.Meta.Paths

/-!
# The path helpers, with their indices

`get_parent_dir_path` and `get_filename_from_path` scan a path backwards with a
`size_t`, which is at least 0 whatever is taken from it.

For a path with a slash the scans are the functions of `Paths`.
Without one, `get_filename_from_path` leaves the string (`path_helpers_iff`).
-/

namespace Nmfs

/-- A result that nothing has gone wrong with. -/
def Outcome.ofExcept {ε α : Type} : Except ε α → Outcome ε α
  | .ok a => .ok a
  | .error e => .throws e

namespace Path

def emptyPath : Exn := .runtimeError "Invalid path: path is empty string"

def noDelimiter : Exn := .runtimeError "Invalid path: No delimiter on path"

/-- `path[i]` of a `string_view`. -/
def charAt (path : Bytes) (i : UInt64) (next : UInt8 → Outcome Exn Bytes) :
    Outcome Exn Bytes :=
  match path[i.toNat]? with
  | some b => next b
  | none => .faults .undefinedBehaviour

/-- The loop of `get_parent_dir_path`, and what follows it.  `left` bounds the
iterations. -/
def scanParent (path : Bytes) : (left : Nat) → (i : UInt64) → Outcome Exn Bytes
  | 0, _ => .faults .divergence
  | left + 1, i =>
      if 0 < i then
        charAt path i fun b =>
          if b = slash then .ok (path.take i.toNat)
          else scanParent path left (i - 1)
      else
        charAt path 0 fun b =>
          if b = slash then .ok (path.take 1) else .throws noDelimiter

def scanParentDirPath (path : Bytes) : Outcome Exn Bytes :=
  if path = [] then .throws emptyPath
  else scanParent path (path.length + 1) (UInt64.ofNat (path.length - 1))

/-- The loop of `get_filename_from_path`.  Its condition `i >= 0` always holds. -/
def scanFilename (path : Bytes) : (left : Nat) → (i : UInt64) → Outcome Exn Bytes
  | 0, _ => .faults .divergence
  | left + 1, i =>
      charAt path i fun b =>
        if b = slash then .ok (path.drop (i.toNat + 1))
        else scanFilename path left (i - 1)

def scanFilenameFromPath (path : Bytes) : Outcome Exn Bytes :=
  if path = [] then .throws emptyPath
  else if path = [slash] then .ok [slash]
  else scanFilename path (path.length + 1) (UInt64.ofNat (path.length - 1))

section Scans

variable {path : Bytes} {k left : Nat}

theorem charAt_of_getElem
    {b : UInt8} (hsize : path.length < 2 ^ 64) (hk : path[k]? = some b)
    (next : UInt8 → Outcome Exn Bytes) :
    charAt path (UInt64.ofNat k) next = next b := by
  have hlt := (List.getElem?_eq_some_iff.mp hk).1
  unfold charAt
  rw [UInt64.toNat_ofNat_of_lt' (by simp only [UInt64.size]; omega), hk]

theorem toNat_ofNat (hsize : path.length < 2 ^ 64) (hk : k < path.length) :
    (UInt64.ofNat k).toNat = k :=
  UInt64.toNat_ofNat_of_lt' (by simp only [UInt64.size]; omega)

theorem ofNat_sub_one : UInt64.ofNat (k + 1) - 1 = UInt64.ofNat k := by
  rw [UInt64.ofNat_add]
  exact UInt64.add_sub_cancel _ _

theorem ofNat_pos (hsize : path.length < 2 ^ 64) (hk : k < path.length) :
    0 < UInt64.ofNat k ↔ 0 < k := by
  rw [UInt64.lt_iff_toNat_lt, toNat_ofNat hsize hk]
  exact Iff.rfl

/-- The scan is the loop over natural numbers. -/
theorem scanParent_eq
    (hsize : path.length < 2 ^ 64) (hk : k < path.length) (hleft : k < left) :
    scanParent path left (UInt64.ofNat k) =
      match parentLoop path k with
      | some parent => .ok parent
      | none =>
          if path[0]? = some slash then .ok (path.take 1)
          else .throws noDelimiter := by
  induction k generalizing left with
  | zero =>
      obtain ⟨left, rfl⟩ := Nat.exists_eq_succ_of_ne_zero (Nat.ne_zero_of_lt hleft)
      have hget := List.getElem?_eq_getElem hk
      rw [scanParent, if_neg (by decide)]
      refine (charAt_of_getElem hsize hget _).trans ?_
      rw [hget, parentLoop]
      simp only [Option.some.injEq]
  | succ k ih =>
      obtain ⟨left, rfl⟩ := Nat.exists_eq_succ_of_ne_zero (Nat.ne_zero_of_lt hleft)
      have hget := List.getElem?_eq_getElem hk
      rw [scanParent, if_pos ((ofNat_pos hsize hk).mpr (Nat.succ_pos k)),
        charAt_of_getElem hsize hget, parentLoop, hget, toNat_ofNat hsize hk,
        ofNat_sub_one]
      by_cases hb : path[k + 1] = slash
      · rw [if_pos hb, if_pos (congrArg some hb)]
      · rw [if_neg hb, if_neg (fun h => hb (Option.some.inj h)),
          ih (by omega) (by omega)]

theorem scanParentDirPath_eq (hsize : path.length < 2 ^ 64) :
    scanParentDirPath path = .ofExcept (getParentDirPath path) := by
  unfold scanParentDirPath getParentDirPath
  by_cases hne : path = []
  · rw [if_pos hne, if_pos hne]
    rfl
  · have hpos := List.length_pos_of_ne_nil hne
    rw [if_neg hne, if_neg hne, scanParent_eq hsize (by omega) (by omega)]
    cases parentLoop path (path.length - 1) with
    | some parent => rfl
    | none =>
        dsimp only
        split <;> rfl

/-- The scan finds what the loop over natural numbers finds.  If that is
nothing, it goes on from the last `size_t`. -/
theorem scanFilename_eq
    (hsize : path.length < 2 ^ 64) (hk : k < path.length) (hleft : k + 1 < left) :
    scanFilename path left (UInt64.ofNat k) =
      match filenameLoop path k with
      | some name => .ok name
      | none => .faults .undefinedBehaviour := by
  induction k generalizing left with
  | zero =>
      obtain ⟨left, rfl⟩ : ∃ m, left = m + 2 := ⟨left - 2, by omega⟩
      have hget := List.getElem?_eq_getElem hk
      rw [scanFilename, charAt_of_getElem hsize hget, filenameLoop, hget]
      by_cases hb : path[0] = slash
      · rw [if_pos hb, if_pos (congrArg some hb)]
        rfl
      · rw [if_neg hb, if_neg (fun h => hb (Option.some.inj h)), scanFilename,
          charAt]
        have hout : path[(UInt64.ofNat 0 - 1).toNat]? = none :=
          List.getElem?_eq_none (Nat.le_of_lt_succ hsize)
        rw [hout]
  | succ k ih =>
      obtain ⟨left, rfl⟩ := Nat.exists_eq_succ_of_ne_zero (Nat.ne_zero_of_lt hleft)
      have hget := List.getElem?_eq_getElem hk
      rw [scanFilename, charAt_of_getElem hsize hget, filenameLoop, hget,
        toNat_ofNat hsize hk, ofNat_sub_one]
      by_cases hb : path[k + 1] = slash
      · rw [if_pos hb, if_pos (congrArg some hb)]
      · rw [if_neg hb, if_neg (fun h => hb (Option.some.inj h)),
          ih (by omega) (by omega)]

/-- A path with a slash has a last one. -/
theorem exists_join (h : slash ∈ path) :
    ∃ parent name, path = join parent name ∧ slash ∉ name := by
  induction path with
  | nil => cases h
  | cons b path ih =>
      by_cases hrest : slash ∈ path
      · obtain ⟨parent, name, rfl, hname⟩ := ih hrest
        exact ⟨b :: parent, name, rfl, hname⟩
      · obtain rfl : slash = b := (List.mem_cons.mp h).resolve_right hrest
        exact ⟨[], path, rfl, hrest⟩

theorem filenameLoop_none (h : slash ∉ path) : filenameLoop path k = none := by
  have hne : ∀ j, path[j]? ≠ some slash :=
    fun j hj => h (List.mem_of_getElem? hj)
  induction k with
  | zero => rw [filenameLoop, if_neg (hne 0)]
  | succ k ih => rw [filenameLoop, if_neg (hne (k + 1)), ih]

theorem parentLoop_none (h : slash ∉ path) : parentLoop path k = none := by
  have hne : ∀ j, path[j]? ≠ some slash :=
    fun j hj => h (List.mem_of_getElem? hj)
  induction k with
  | zero => rfl
  | succ k ih => rw [parentLoop, if_neg (hne (k + 1)), ih]

/-- For a path with a slash the scan is the function of `Paths`. -/
theorem scanFilenameFromPath_eq (hsize : path.length < 2 ^ 64) :
    scanFilenameFromPath path =
      if path = [] ∨ slash ∈ path then .ofExcept (getFilenameFromPath path)
      else .faults .undefinedBehaviour := by
  unfold scanFilenameFromPath getFilenameFromPath
  by_cases hne : path = []
  · rw [if_pos hne, if_pos (.inl hne), if_pos hne]
    rfl
  · have hpos := List.length_pos_of_ne_nil hne
    rw [if_neg hne, if_neg hne]
    by_cases hroot : path = [slash]
    · rw [if_pos hroot, if_pos hroot, if_pos (.inr (by simp [hroot]))]
      rfl
    · rw [if_neg hroot, if_neg hroot, scanFilename_eq hsize (by omega) (by omega)]
      by_cases hmem : slash ∈ path
      · obtain ⟨parent, name, rfl, hname⟩ := exists_join hmem
        rw [if_pos (.inr hmem), join_length,
          filenameLoop_join hname (Nat.le_refl _)]
        rfl
      · rw [if_neg (not_or.mpr ⟨hne, hmem⟩), filenameLoop_none hmem]

end Scans

section Helpers

/-- The result of a helper is the one that the position of the last slash
gives. -/
structure Helps (path : Bytes) (result : Outcome Exn Bytes)
    (part : (parent name : Bytes) → Bytes) : Prop where
  throws : path = [] ∨ slash ∉ path →
    ∃ what, result = .throws (.runtimeError what)
  returns : ∀ parent name, path = join parent name → slash ∉ name →
    result = .ok (part parent name)

/-- The part before the last slash, or the slash if that is empty. -/
def parentPart (parent _name : Bytes) : Bytes :=
  if parent = [] then [slash] else parent

/-- The part behind the last slash, or the slash of the root. -/
def filenamePart (parent name : Bytes) : Bytes :=
  if join parent name = [slash] then [slash] else name

variable {path : Bytes}

/-- `get_parent_dir_path` is total. -/
theorem parent_helps (hsize : path.length < 2 ^ 64) :
    Helps path (scanParentDirPath path) parentPart := by
  rw [scanParentDirPath_eq hsize]
  constructor
  · intro h
    unfold getParentDirPath
    by_cases hne : path = []
    · exact ⟨_, by rw [if_pos hne]; rfl⟩
    · have hno := h.resolve_left hne
      have hfirst : path[0]? ≠ some slash :=
        fun hget => hno (List.mem_of_getElem? hget)
      refine ⟨"Invalid path: No delimiter on path", ?_⟩
      rw [if_neg hne, parentLoop_none hno, if_neg hfirst]
      rfl
  · rintro parent name rfl hname
    rw [getParentDirPath_join hname]
    rfl

theorem filename_helps_iff (hsize : path.length < 2 ^ 64) :
    Helps path (scanFilenameFromPath path) filenamePart ↔
      path = [] ∨ slash ∈ path := by
  rw [scanFilenameFromPath_eq hsize]
  by_cases h : path = [] ∨ slash ∈ path
  · rw [if_pos h]
    refine iff_of_true ⟨?_, ?_⟩ h
    · rintro (rfl | hno)
      · exact ⟨_, rfl⟩
      · obtain rfl := h.resolve_right hno
        exact ⟨_, rfl⟩
    · rintro parent name rfl hname
      unfold getFilenameFromPath filenamePart
      rw [if_neg (show join parent name ≠ [] by simp [join])]
      split
      · rfl
      · rw [join_length, filenameLoop_join hname (Nat.le_refl _)]
        rfl
  · rw [if_neg h]
    refine iff_of_false ?_ h
    rintro ⟨hthrows, -⟩
    obtain ⟨what, hwhat⟩ := hthrows (.inr (not_or.mp h).2)
    cases hwhat

/-- **The path helpers.** They stay inside every string that is empty or has a
slash, and in no other; `get_parent_dir_path` stays inside every string. -/
theorem path_helpers_iff (path : Bytes) (hsize : path.length < 2 ^ 64) :
    Helps path (scanParentDirPath path) parentPart ∧
      (Helps path (scanParentDirPath path) parentPart ∧
          Helps path (scanFilenameFromPath path) filenamePart ↔
        path = [] ∨ slash ∈ path) := by
  have hparent := parent_helps hsize
  refine ⟨hparent, ?_⟩
  rw [and_iff_right hparent]
  exact filename_helps_iff hsize

theorem path_helpers_file :
    Helps [47, 97, 47, 98] (scanParentDirPath [47, 97, 47, 98]) parentPart ∧
      Helps [47, 97, 47, 98] (scanFilenameFromPath [47, 97, 47, 98])
        filenamePart :=
  (path_helpers_iff [47, 97, 47, 98] (by decide)).2.mpr (.inr (by decide))

/-- A name without a slash, as a request can have it. -/
theorem path_helpers_no_slash :
    ¬ Helps [97] (scanFilenameFromPath [97]) filenamePart := by
  rintro ⟨hthrows, -⟩
  obtain ⟨what, hwhat⟩ := hthrows (.inr (by decide))
  have hscan : scanFilenameFromPath [97] = .faults .undefinedBehaviour := by
    decide
  rw [hscan] at hwhat
  cases hwhat

end Helpers

end Path

end Nmfs
