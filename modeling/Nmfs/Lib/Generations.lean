import Mathlib.Data.List.AList
import Nmfs.Lib.Transitions

/-!
# Maps that are replaced

Objects are found by their keys in a map, and made when there is none.  From
time to time the whole map is taken away as a batch, whose objects are retired
one by one, in any order, while new objects are made in the next map.  The next
batch is taken when the last one is done.

Of the objects of a key, the older one is retired first, and none twice
(`Sound`, `Sound.older_first`).
-/

namespace Nmfs

/-- Objects are numbered in the order in which they are made; `owner` has their
keys. -/
structure Generations (κ : Type) [DecidableEq κ] where
  owner : List κ
  map : AList (fun _ : κ => Nat)
  batch : AList (fun _ : κ => Nat)
  retired : List Nat

namespace Generations

variable {κ : Type} [DecidableEq κ]

inductive Act (κ : Type) where
  | create (k : κ)
  | replace
  | retire (k : κ)

def new : Generations κ := ⟨[], ∅, ∅, []⟩

def step : Stepper (Generations κ) (Act κ)
  | g, .create k =>
      match g.map.lookup k with
      | some _ => none
      | none => some { g with
          owner := g.owner ++ [k]
          map := g.map.insert k g.owner.length }
  | g, .replace =>
      if g.batch.entries = [] then some { g with map := ∅, batch := g.map }
      else none
  | g, .retire k =>
      match g.batch.lookup k with
      | none => none
      | some id => some { g with
          batch := g.batch.erase k
          retired := g.retired ++ [id] }

/-- Every object is in the map, in the batch or retired, and of the objects of
one key the retired ones are the oldest and the one in the map is the newest. -/
structure Sound (g : Generations κ) : Prop where
  map_owner : ∀ k id, g.map.lookup k = some id → g.owner[id]? = some k
  batch_owner : ∀ k id, g.batch.lookup k = some id → g.owner[id]? = some k
  retired_owner : ∀ id ∈ g.retired, id < g.owner.length
  placed : ∀ k id, g.owner[id]? = some k → g.map.lookup k = some id ∨
    g.batch.lookup k = some id ∨ id ∈ g.retired
  batch_lt_map : ∀ k id id', g.batch.lookup k = some id →
    g.map.lookup k = some id' → id < id'
  retired_lt_map : ∀ k id id', id ∈ g.retired → g.owner[id]? = some k →
    g.map.lookup k = some id' → id < id'
  retired_lt_batch : ∀ k id id', id ∈ g.retired → g.owner[id]? = some k →
    g.batch.lookup k = some id' → id < id'
  sorted : g.retired.Pairwise fun id id' =>
    ∀ k, g.owner[id]? = some k → g.owner[id']? = some k → id < id'

theorem lookup_of_entries_nil
    {m : AList (fun _ : κ => Nat)} (h : m.entries = []) (k : κ) :
    m.lookup k = none := by
  rw [AList.lookup_eq_none, AList.mem_keys]
  simp [AList.keys, h]

theorem sound_new : (new : Generations κ).Sound := by
  constructor <;> simp [new]

section Steps

variable {g : Generations κ}

theorem owner_append
    {k k' : κ} {id : Nat} :
    (g.owner ++ [k'])[id]? = some k ↔
      g.owner[id]? = some k ∨ id = g.owner.length ∧ k = k' := by
  rcases Nat.lt_trichotomy id g.owner.length with hlt | heq | hgt
  · simp [List.getElem?_append_left hlt, Nat.ne_of_lt hlt]
  · subst heq
    simp [eq_comm]
  · have hout : (g.owner ++ [k']).length ≤ id := by
      simp only [List.length_append, List.length_singleton]
      omega
    simp [List.getElem?_eq_none hout,
      List.getElem?_eq_none (Nat.le_of_lt hgt), Nat.ne_of_gt hgt]

theorem owner_lt {k : κ} {id : Nat} (h : g.owner[id]? = some k) :
    id < g.owner.length :=
  (List.getElem?_eq_some_iff.mp h).1

/-- A new object is newer than all the others. -/
theorem Sound.create
    (hg : g.Sound) {k : κ} (h : g.map.lookup k = none) :
    Sound { g with
      owner := g.owner ++ [k], map := g.map.insert k g.owner.length } := by
  have hmap : ∀ k' id, (g.map.insert k g.owner.length).lookup k' = some id →
      k' = k ∧ id = g.owner.length ∨ k' ≠ k ∧ g.map.lookup k' = some id := by
    intro k' id hid
    rcases eq_or_ne k' k with rfl | hne
    · rw [AList.lookup_insert, Option.some.injEq] at hid
      exact .inl ⟨rfl, hid.symm⟩
    · rw [AList.lookup_insert_ne hne] at hid
      exact .inr ⟨hne, hid⟩
  constructor
  · intro k' id hid
    rw [owner_append]
    rcases hmap k' id hid with ⟨rfl, rfl⟩ | ⟨-, hid⟩
    · exact .inr ⟨rfl, rfl⟩
    · exact .inl (hg.map_owner k' id hid)
  · intro k' id hid
    exact owner_append.mpr (.inl (hg.batch_owner k' id hid))
  · intro id hid
    have hlt := hg.retired_owner id hid
    simp only [List.length_append]
    omega
  · intro k' id hid
    rcases owner_append.mp hid with hid | ⟨rfl, rfl⟩
    · rcases hg.placed k' id hid with hin | hin
      · refine .inl ?_
        rw [AList.lookup_insert_ne, hin]
        rintro rfl
        rw [h] at hin
        cases hin
      · exact .inr hin
    · exact .inl (AList.lookup_insert _)
  · intro k' id id' hid hid'
    rcases hmap k' id' hid' with ⟨rfl, rfl⟩ | ⟨-, hid'⟩
    · exact owner_lt (hg.batch_owner k' id hid)
    · exact hg.batch_lt_map k' id id' hid hid'
  · intro k' id id' hin hid hid'
    have hlt := hg.retired_owner id hin
    rcases hmap k' id' hid' with ⟨rfl, rfl⟩ | ⟨-, hid'⟩
    · exact hlt
    · rcases owner_append.mp hid with hid | ⟨rfl, -⟩
      · exact hg.retired_lt_map k' id id' hin hid hid'
      · exact absurd hlt (lt_irrefl _)
  · intro k' id id' hin hid hid'
    rcases owner_append.mp hid with hid | ⟨rfl, -⟩
    · exact hg.retired_lt_batch k' id id' hin hid hid'
    · exact absurd (hg.retired_owner _ hin) (lt_irrefl _)
  · refine hg.sorted.imp_of_mem ?_
    intro id id' hin hin' hlt k' hid hid'
    rcases owner_append.mp hid with hid | ⟨rfl, -⟩
    · rcases owner_append.mp hid' with hid' | ⟨rfl, -⟩
      · exact hlt k' hid hid'
      · exact absurd (hg.retired_owner _ hin') (lt_irrefl _)
    · exact absurd (hg.retired_owner _ hin) (lt_irrefl _)

theorem Sound.replace
    (hg : g.Sound) (h : g.batch.entries = []) :
    Sound { g with map := ∅, batch := g.map } := by
  have hbatch := lookup_of_entries_nil h
  refine ⟨by simp, hg.map_owner, hg.retired_owner, ?_, by simp, by simp,
    hg.retired_lt_map, hg.sorted⟩
  intro k id hid
  rcases hg.placed k id hid with hin | hin | hin
  · exact .inr (.inl hin)
  · rw [hbatch k] at hin
    cases hin
  · exact .inr (.inr hin)

theorem Sound.retire
    (hg : g.Sound) {k : κ} {id : Nat} (h : g.batch.lookup k = some id) :
    Sound { g with batch := g.batch.erase k, retired := g.retired ++ [id] } := by
  have howner := hg.batch_owner k id h
  have hbatch : ∀ k' id', (g.batch.erase k).lookup k' = some id' →
      k' ≠ k ∧ g.batch.lookup k' = some id' := by
    intro k' id' hid'
    rcases eq_or_ne k' k with rfl | hne
    · rw [AList.lookup_erase] at hid'
      cases hid'
    · rw [AList.lookup_erase_ne hne] at hid'
      exact ⟨hne, hid'⟩
  constructor
  · exact hg.map_owner
  · intro k' id' hid'
    exact hg.batch_owner k' id' (hbatch k' id' hid').2
  · intro id' hin
    rcases List.mem_append.mp hin with hin | hin
    · exact hg.retired_owner id' hin
    · rw [List.mem_singleton.mp hin]
      exact owner_lt howner
  · intro k' id' hid'
    rcases hg.placed k' id' hid' with hin | hin | hin
    · exact .inl hin
    · rcases eq_or_ne k' k with rfl | hne
      · rw [h, Option.some.injEq] at hin
        exact .inr (.inr (by simp [hin]))
      · refine .inr (.inl ?_)
        rw [AList.lookup_erase_ne hne, hin]
    · exact .inr (.inr (List.mem_append_left _ hin))
  · intro k' id₁ id₂ hid₁ hid₂
    exact hg.batch_lt_map k' id₁ id₂ (hbatch k' id₁ hid₁).2 hid₂
  · intro k' id₁ id₂ hin hid₁ hid₂
    rcases List.mem_append.mp hin with hin | hin
    · exact hg.retired_lt_map k' id₁ id₂ hin hid₁ hid₂
    · cases List.mem_singleton.mp hin
      cases howner.symm.trans hid₁
      exact hg.batch_lt_map _ _ id₂ h hid₂
  · intro k' id₁ id₂ hin hid₁ hid₂
    obtain ⟨hne, hid₂⟩ := hbatch k' id₂ hid₂
    rcases List.mem_append.mp hin with hin | hin
    · exact hg.retired_lt_batch k' id₁ id₂ hin hid₁ hid₂
    · cases List.mem_singleton.mp hin
      exact absurd (Option.some.inj (hid₁.symm.trans howner)) hne
  · rw [List.pairwise_append]
    refine ⟨hg.sorted, List.pairwise_singleton _ _, ?_⟩
    intro id₁ hin id₂ hid₂ k' hid₁ hid₂'
    cases List.mem_singleton.mp hid₂
    cases howner.symm.trans hid₂'
    exact hg.retired_lt_batch _ id₁ _ hin hid₁ h

theorem sound_step : (step (κ := κ)).Invariant Sound := by
  intro g a g' hg hstep
  cases a with
  | create k =>
      simp only [step] at hstep
      split at hstep
      · cases hstep
      · rename_i h
        cases hstep
        exact hg.create h
  | replace =>
      simp only [step] at hstep
      split at hstep
      · rename_i h
        cases hstep
        exact hg.replace h
      · cases hstep
  | retire k =>
      simp only [step] at hstep
      split at hstep
      · cases hstep
      · rename_i id h
        cases hstep
        exact hg.retire h

/-- An object keeps its key. -/
theorem owner_mono
    {g' : Generations κ} {a : Act κ} (hstep : step g a = some g') {k : κ}
    {id : Nat} (h : g.owner[id]? = some k) : g'.owner[id]? = some k := by
  cases a with
  | create k' =>
      simp only [step] at hstep
      split at hstep
      · cases hstep
      · cases hstep
        exact owner_append.mpr (.inl h)
  | replace =>
      simp only [step] at hstep
      split at hstep
      · cases hstep
        exact h
      · cases hstep
  | retire k' =>
      simp only [step] at hstep
      split at hstep
      · cases hstep
      · cases hstep
        exact h

/-- The object in the map is the newest one of its key. -/
theorem Sound.latest
    (hg : g.Sound) {k : κ} {id id' : Nat} (hid : g.owner[id]? = some k)
    (hid' : g.map.lookup k = some id') : id ≤ id' := by
  rcases hg.placed k id hid with hin | hin | hin
  · cases hin.symm.trans hid'
    exact le_refl _
  · exact Nat.le_of_lt (hg.batch_lt_map k id id' hin hid')
  · exact Nat.le_of_lt (hg.retired_lt_map k id id' hin hid hid')

theorem Sound.nodup (hg : g.Sound) : g.retired.Nodup := by
  refine hg.sorted.imp_of_mem ?_
  rintro id _ hin - hlt rfl
  have hid := List.getElem?_eq_getElem (hg.retired_owner id hin)
  exact absurd (hlt _ hid hid) (lt_irrefl _)

theorem sublist_pair_or
    {l : List Nat} {a b : Nat} (ha : a ∈ l) (hb : b ∈ l) (hne : a ≠ b) :
    [a, b].Sublist l ∨ [b, a].Sublist l := by
  induction l with
  | nil => cases ha
  | cons c l ih =>
      rcases List.mem_cons.mp ha with rfl | ha'
      · rcases List.mem_cons.mp hb with rfl | hb'
        · exact absurd rfl hne
        · exact .inl (List.Sublist.cons_cons _ (List.singleton_sublist.mpr hb'))
      · rcases List.mem_cons.mp hb with rfl | hb'
        · exact .inr (List.Sublist.cons_cons _ (List.singleton_sublist.mpr ha'))
        · exact (ih ha' hb').imp (.cons c) (.cons c)

/-- An older object of the same key is retired before. -/
theorem Sound.older_first
    (hg : g.Sound) {k : κ} {id id' : Nat} (hid : g.owner[id]? = some k)
    (hid' : g.owner[id']? = some k) (hlt : id < id') (hin' : id' ∈ g.retired) :
    [id, id'].Sublist g.retired := by
  rcases hg.placed k id hid with hin | hin | hin
  · exact absurd (hg.latest hid' hin) (by omega)
  · exact absurd (hg.retired_lt_batch k id' id hin' hid' hin) (by omega)
  · rcases sublist_pair_or hin hin' (Nat.ne_of_lt hlt) with hsub | hsub
    · exact hsub
    · have hback := List.pairwise_iff_forall_sublist.mp hg.sorted hsub k hid' hid
      exact absurd hback (by omega)

end Steps

end Generations

end Nmfs
