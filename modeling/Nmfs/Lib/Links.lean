import Mathlib.Logic.Relation

/-!
# Graphs whose edges have names

`g v n` is where the edge with the name `n` leads from the node `v`; a node has
one edge at most for each name.  A state that grows and shrinks by one edge at a
time stays acyclic if no edge closes a cycle, and what can be reached from a root
stays reachable if an edge is moved to a place that does not lie below it.

* `Acyclic.link`: a new edge.
* `reach_relink`: an edge that is moved.
* `reach_unlink`: an edge to a node without edges that is removed.
-/

namespace Nmfs

/-- A graph with nodes in `V` and names in `N`. -/
abbrev Links (V N : Type) := V → N → Option V

namespace Links

variable {V N : Type}

def Edge (g : Links V N) (u v : V) : Prop := ∃ n, g u n = some v

/-- A path with at least one edge. -/
def Below (g : Links V N) (u v : V) : Prop := Relation.TransGen g.Edge u v

/-- A path, which may be empty. -/
def Reach (g : Links V N) (u v : V) : Prop := Relation.ReflTransGen g.Edge u v

def Acyclic (g : Links V N) : Prop := ∀ v, ¬ g.Below v v

section Paths

variable {g g' : Links V N} {root q u v x : V}

/-- A node without edges leads only to itself. -/
theorem eq_of_reach_leaf (hleaf : ∀ n, g x n = none) (h : g.Reach x v) : v = x := by
  induction h with
  | refl => rfl
  | tail _ hedge ih =>
      subst ih
      obtain ⟨n, hn⟩ := hedge
      rw [hleaf] at hn
      cases hn

theorem Acyclic.mono
    (h : g.Acyclic) (hsub : ∀ u v, g'.Edge u v → g.Edge u v) : g'.Acyclic := by
  intro v hv
  exact h v (Relation.TransGen.mono hsub v v hv)

/-- What a path in the larger graph is made of. -/
theorem below_of_link
    (hnew : ∀ u v, g'.Edge u v → g.Edge u v ∨ u = q ∧ v = x)
    (h : g'.Below u v) : g.Below u v ∨ g.Reach u q ∧ g.Reach x v := by
  induction h with
  | single hedge =>
      rcases hnew _ _ hedge with hold | ⟨rfl, rfl⟩
      · exact .inl (.single hold)
      · exact .inr ⟨.refl, .refl⟩
  | tail _ hedge ih =>
      rcases hnew _ _ hedge with hold | ⟨rfl, rfl⟩
      · rcases ih with hdirect | ⟨hq, hx⟩
        · exact .inl (.tail hdirect hold)
        · exact .inr ⟨hq, .tail hx hold⟩
      · rcases ih with hdirect | ⟨hq, hx⟩
        · exact .inr ⟨hdirect.to_reflTransGen, .refl⟩
        · exact .inr ⟨hq, .refl⟩

/-- A new edge from `q` to `x` closes no cycle if `q` is not reached from `x`. -/
theorem Acyclic.link
    (h : g.Acyclic) (hnew : ∀ u v, g'.Edge u v → g.Edge u v ∨ u = q ∧ v = x)
    (hfree : ¬ g.Reach x q) : g'.Acyclic := by
  intro v hv
  rcases below_of_link hnew hv with hold | ⟨hq, hx⟩
  · exact h v hold
  · exact hfree (hx.trans hq)

/-- Only nodes that are reached from `x` lose their path. -/
theorem reach_outside
    (hkeep : ∀ u v, g.Edge u v → v ≠ x → g'.Edge u v)
    (h : g.Reach root v) (hout : ¬ g.Reach x v) : g'.Reach root v := by
  induction h with
  | refl => exact .refl
  | tail _ hedge ih =>
      refine .tail (ih fun hx => hout (hx.tail hedge)) (hkeep _ _ hedge ?_)
      rintro rfl
      exact hout .refl

/-- The edge of `x` is moved to `q`, which is not reached from `x`. -/
theorem reach_relink
    (hkeep : ∀ u v, g.Edge u v → v ≠ x → g'.Edge u v)
    (hlink : g'.Edge q x) (hq : g.Reach root q) (hfree : ¬ g.Reach x q)
    (h : g.Reach root v) : g'.Reach root v := by
  have hx : g'.Reach root x := (reach_outside hkeep hq hfree).tail hlink
  induction h with
  | refl => exact .refl
  | @tail b c _ hedge ih =>
      by_cases hc : c = x
      · exact hc ▸ hx
      · exact ih.tail (hkeep _ _ hedge hc)

/-- The edges of a node that has none itself are removed. -/
theorem reach_unlink
    (hkeep : ∀ u v, g.Edge u v → v ≠ x → g'.Edge u v)
    (hleaf : ∀ n, g x n = none) (hv : v ≠ x) (h : g.Reach root v) :
    g'.Reach root v :=
  reach_outside hkeep h fun hx => hv (eq_of_reach_leaf hleaf hx)

end Paths

end Links

end Nmfs
