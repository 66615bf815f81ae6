import Mathlib.Data.List.Basic

/-!
# Machines that take one action at a time

A concurrent system is a function `step : σ → α → Option σ`: an action names
the thread or party that moves and carries everything the environment chooses,
and an action that is not possible in a state gives `none`.  An interleaving is
a list of actions, and `runFrom` executes it, so that runs can be computed.

* `Invariant.runFrom`: what every step preserves holds in every state of every
  run.
* `InvariantUnder.runFrom`: the same, where only the steps that satisfy a
  condition are known to preserve it.
* `Steps.run_total`: such a run goes to its end, if each of the steps can be taken.
* `Invariant.lift`: the invariants of a machine hold inside a larger one.
-/

namespace Nmfs

/-- The step function of a machine. -/
abbrev Stepper (σ α : Type) := σ → α → Option σ

namespace Stepper

variable {σ α : Type} (step : Stepper σ α)

/-- Execute a list of actions. -/
def runFrom : σ → List α → Option σ
  | s, [] => some s
  | s, a :: as => (step s a).bind fun s' => runFrom s' as

/-- Every action of a run satisfies `ok` in the state it is taken in. -/
def Steps (ok : σ → α → Prop) : σ → List α → Prop
  | _, [] => True
  | s, a :: as => ok s a ∧ ∀ s', step s a = some s' → Steps ok s' as

/-- `I` is preserved by every step. -/
def Invariant (I : σ → Prop) : Prop :=
  ∀ s a s', I s → step s a = some s' → I s'

/-- `I` is preserved by the steps that satisfy `ok`. -/
def InvariantUnder (ok : σ → α → Prop) (I : σ → Prop) : Prop :=
  ∀ s a s', I s → ok s a → step s a = some s' → I s'

@[simp] theorem runFrom_nil (s : σ) : runFrom step s [] = some s := rfl

theorem runFrom_cons
    {s s'' : σ} {a : α} {as : List α} :
    runFrom step s (a :: as) = some s'' ↔
      ∃ s', step s a = some s' ∧ runFrom step s' as = some s'' := by
  simp [runFrom, Option.bind_eq_some_iff]

theorem runFrom_append
    {s s'' : σ} {as bs : List α} :
    runFrom step s (as ++ bs) = some s'' ↔
      ∃ s', runFrom step s as = some s' ∧ runFrom step s' bs = some s'' := by
  induction as generalizing s with
  | nil => simp
  | cons a as ih =>
      rw [List.cons_append, runFrom_cons]
      constructor
      · rintro ⟨s₁, hstep, hrun⟩
        obtain ⟨s', hs', hrest⟩ := ih.mp hrun
        exact ⟨s', (runFrom_cons step).mpr ⟨s₁, hstep, hs'⟩, hrest⟩
      · rintro ⟨s', hs', hrest⟩
        obtain ⟨s₁, hstep, hrun⟩ := (runFrom_cons step).mp hs'
        exact ⟨s₁, hstep, ih.mpr ⟨s', hrun, hrest⟩⟩

variable {step}

/-- What every step preserves holds at the end of every run. -/
theorem Invariant.runFrom
    {I : σ → Prop} (hI : Invariant step I) {s s' : σ} {as : List α}
    (hs : I s) (hrun : step.runFrom s as = some s') : I s' := by
  induction as generalizing s with
  | nil =>
      simp only [runFrom_nil, Option.some.injEq] at hrun
      exact hrun ▸ hs
  | cons a as ih =>
      obtain ⟨s₁, hstep, hrest⟩ := (runFrom_cons step).mp hrun
      exact ih (hI s a s₁ hs hstep) hrest

/-- What the steps that satisfy `ok` preserve holds at the end of every run
of such steps. -/
theorem InvariantUnder.runFrom
    {ok : σ → α → Prop} {I : σ → Prop} (hI : InvariantUnder step ok I)
    {s s' : σ} {as : List α} (hs : I s) (hok : step.Steps ok s as)
    (hrun : step.runFrom s as = some s') : I s' := by
  induction as generalizing s with
  | nil =>
      simp only [runFrom_nil, Option.some.injEq] at hrun
      exact hrun ▸ hs
  | cons a as ih =>
      obtain ⟨s₁, hstep, hrest⟩ := (runFrom_cons step).mp hrun
      obtain ⟨ha, hnext⟩ := hok
      exact ih (hI s a s₁ hs ha hstep) (hnext s₁ hstep) hrest

/-- Where every step that satisfies `ok` can be taken and preserves `I`, every run
of such steps goes to its end. -/
theorem Steps.run_total
    {ok : σ → α → Prop} {I : σ → Prop}
    (h : ∀ s a, I s → ok s a → ∃ s', step s a = some s' ∧ I s') {s : σ} {as : List α}
    (hs : I s) (has : step.Steps ok s as) :
    ∃ s', step.runFrom s as = some s' ∧ I s' := by
  induction as generalizing s with
  | nil => exact ⟨s, rfl, hs⟩
  | cons a as ih =>
      obtain ⟨ha, hrest⟩ := has
      obtain ⟨s₁, hstep, h₁⟩ := h s a hs ha
      obtain ⟨s', hrun, hs'⟩ := ih h₁ (hrest s₁ hstep)
      exact ⟨s', (runFrom_cons step).mpr ⟨s₁, hstep, hrun⟩, hs'⟩

/-- A machine that has another one inside: its steps are steps of the inner
machine, or leave that as it is. -/
def Contains {τ β : Type} (step : Stepper σ α) (inner : Stepper τ β)
    (view : σ → τ) : Prop :=
  ∀ s a s', step s a = some s' →
    view s' = view s ∨ ∃ b, inner (view s) b = some (view s')

/-- What the inner machine preserves, the outer machine preserves. -/
theorem Invariant.lift
    {τ β : Type} {inner : Stepper τ β} {view : σ → τ}
    (hview : Contains step inner view) {I : τ → Prop}
    (hI : Invariant inner I) : Invariant step (fun s => I (view s)) := by
  intro s a s' hs hstep
  rcases hview s a s' hstep with hsame | ⟨b, hinner⟩
  · simpa only [hsame] using hs
  · exact hI _ b _ hs hinner

theorem Steps.cons
    {ok : σ → α → Prop} {s s' : σ} {a : α} {as : List α} (ha : ok s a)
    (hstep : step s a = some s') (has : step.Steps ok s' as) :
    step.Steps ok s (a :: as) := by
  refine ⟨ha, ?_⟩
  intro s₁ hstep₁
  rw [hstep] at hstep₁
  cases hstep₁
  exact has

theorem Steps.join
    {ok : σ → α → Prop} {s s' : σ} {as bs : List α} (has : step.Steps ok s as)
    (hrun : step.runFrom s as = some s') (hbs : step.Steps ok s' bs) :
    step.Steps ok s (as ++ bs) := by
  induction as generalizing s with
  | nil =>
      simp only [runFrom_nil, Option.some.injEq] at hrun
      exact hrun ▸ hbs
  | cons a as ih =>
      obtain ⟨s₁, hstep, hrest⟩ := (runFrom_cons step).mp hrun
      exact .cons has.1 hstep (ih (has.2 s₁ hstep) hrest)

/-- Two conditions that say the same about every step say the same about every
run. -/
theorem Steps.congr
    {ok ok' : σ → α → Prop}
    (h : ∀ s a s', step s a = some s' → (ok s a ↔ ok' s a)) {s s' : σ}
    {as : List α} (hrun : step.runFrom s as = some s') :
    step.Steps ok s as ↔ step.Steps ok' s as := by
  induction as generalizing s with
  | nil => exact Iff.rfl
  | cons a as ih =>
      obtain ⟨s₁, hstep, hrest⟩ := (runFrom_cons step).mp hrun
      constructor
      · rintro ⟨ha, has⟩
        exact .cons ((h s a s₁ hstep).mp ha) hstep ((ih hrest).mp (has s₁ hstep))
      · rintro ⟨ha, has⟩
        exact .cons ((h s a s₁ hstep).mpr ha) hstep ((ih hrest).mpr (has s₁ hstep))

theorem Steps.mono
    {ok ok' : σ → α → Prop} (h : ∀ s a, ok s a → ok' s a) {s : σ} {as : List α}
    (has : step.Steps ok s as) : step.Steps ok' s as := by
  induction as generalizing s with
  | nil => trivial
  | cons a as ih => exact ⟨h s a has.1, fun s' hstep => ih (has.2 s' hstep)⟩

theorem Steps.of_mem
    {ok : σ → α → Prop} {as : List α} (h : ∀ a ∈ as, ∀ s, ok s a) (s : σ) :
    step.Steps ok s as := by
  induction as generalizing s with
  | nil => trivial
  | cons a as ih =>
      exact ⟨h a List.mem_cons_self s,
        fun s' _ => ih (fun b hb => h b (List.mem_cons_of_mem _ hb)) s'⟩

end Stepper

end Nmfs
