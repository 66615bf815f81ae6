import Nmfs.Lib.Programs
import Nmfs.Lib.Transitions
import Mathlib.Algebra.Order.Ring.Nat

/-!
# Programs that take turns

Several programs over one interface share a state.  A step names the thread that
makes its next call; a schedule is a list of such numbers.

The proof rule, `Outline.runFrom`, gives every thread a stage.  A stage says what
is left of the program, the stages of all threads together say what the state is,
and a call moves one thread to a later stage.  Then every schedule leads through
such states, and none is longer than the stages allow.
-/

namespace Nmfs

/-- Programs and the state that they share. -/
structure Threads (I : Interface) (ε α σ : Type) where
  progs : List (Prog I ε α)
  state : σ

namespace Threads

variable {I : Interface} {ε α σ γ : Type} (h : Handler I σ)

/-- Thread `i` makes its next call. -/
def step : Stepper (Threads I ε α σ) Nat := fun s i =>
  (s.progs[i]?).bind fun q =>
    (q.step h s.state).map fun next => ⟨s.progs.set i next.1, next.2⟩

theorem step_eq_some
    {s s' : Threads I ε α σ} {i : Nat} :
    step h s i = some s' ↔ ∃ q q' t, s.progs[i]? = some q ∧
      q.step h s.state = some (q', t) ∧ s' = ⟨s.progs.set i q', t⟩ := by
  constructor
  · intro hstep
    obtain ⟨q, hq, hnext⟩ := Option.bind_eq_some_iff.mp hstep
    obtain ⟨⟨q', t⟩, hcall, rfl⟩ := Option.map_eq_some_iff.mp hnext
    exact ⟨q, q', t, hq, hcall, rfl⟩
  · rintro ⟨q, q', t, hq, hcall, rfl⟩
    rw [step, hq, Option.bind_some, hcall]
    rfl

section Views

variable {τ : Type} {h} {g : Handler I τ} {view : τ → σ}

/-- The threads, with a view of their state. -/
def seen (view : τ → σ) (s : Threads I ε α τ) : Threads I ε α σ :=
  ⟨s.progs, view s.state⟩

theorem step_seen
    (hcall : ∀ c u, Prod.map id view (g c u) = h c (view u)) (s : Threads I ε α τ)
    (i : Nat) : (step g s i).map (seen view) = step h (seen view s) i := by
  unfold step
  dsimp only [seen]
  cases s.progs[i]? with
  | none => rfl
  | some q =>
      rw [Option.bind_some, Option.bind_some, ← Prog.step_view hcall, Option.map_map,
        Option.map_map]
      rfl

/-- Handlers that agree under a view lead through the same schedules. -/
theorem runFrom_seen
    (hcall : ∀ c u, Prod.map id view (g c u) = h c (view u)) {s s' : Threads I ε α τ}
    {sched : List Nat} (hrun : Stepper.runFrom (step g) s sched = some s') :
    Stepper.runFrom (step h) (seen view s) sched = some (seen view s') := by
  induction sched generalizing s with
  | nil =>
      cases hrun
      rfl
  | cons i sched ih =>
      obtain ⟨s₁, hstep, hrest⟩ := (Stepper.runFrom_cons _).mp hrun
      refine (Stepper.runFrom_cons _).mpr ⟨seen view s₁, ?_, ih hrest⟩
      rw [← step_seen hcall, hstep]
      rfl

end Views

/-- Stages of the threads. -/
structure Outline (γ : Type) where
  /-- What is left of a program at a stage. -/
  At : γ → Prog I ε α → Prop
  /-- What the state is when the threads are at these stages. -/
  Inv : List γ → σ → Prop
  /-- How many calls a thread has left at most. -/
  rank : γ → Nat
  call : ∀ {gs : List γ} {s t : σ} {i : Nat} {g : γ} {q q' : Prog I ε α},
    Inv gs s → gs[i]? = some g → At g q → q.step h s = some (q', t) →
      ∃ g', At g' q' ∧ Inv (gs.set i g') t ∧ rank g' < rank g

namespace Outline

variable {h} (o : Outline (I := I) (ε := ε) (α := α) h γ)

/-- The calls that all threads have left. -/
def left (gs : List γ) : Nat := (gs.map o.rank).sum

theorem left_set
    {gs : List γ} {i : Nat} {g g' : γ} (hg : gs[i]? = some g)
    (hlt : o.rank g' < o.rank g) : o.left (gs.set i g') < o.left gs := by
  induction gs generalizing i with
  | nil => cases hg
  | cons g₀ gs ih =>
      cases i with
      | zero =>
          obtain rfl : g₀ = g := by simpa using hg
          simpa [left] using hlt
      | succ i =>
          have := ih (i := i) (by simpa using hg)
          simpa [left] using this

/-- The threads and the state are where the stages say. -/
structure Reached (gs : List γ) (s : Threads I ε α σ) : Prop where
  length : gs.length = s.progs.length
  thread : ∀ (i : Nat) g q, gs[i]? = some g → s.progs[i]? = some q → o.At g q
  inv : o.Inv gs s.state

/-- One step leads to a later stage. -/
theorem Reached.step
    {o : Outline (I := I) (ε := ε) (α := α) h γ} {gs : List γ}
    {s s' : Threads I ε α σ} {i : Nat} (hs : o.Reached gs s)
    (hstep : Threads.step h s i = some s') :
    ∃ gs', o.Reached gs' s' ∧ o.left gs' < o.left gs := by
  obtain ⟨q, q', t, hq, hcall, rfl⟩ := (step_eq_some h).mp hstep
  obtain ⟨hi, -⟩ := List.getElem?_eq_some_iff.mp hq
  obtain ⟨g, hg⟩ : ∃ g, gs[i]? = some g :=
    ⟨_, List.getElem?_eq_getElem (hs.length ▸ hi)⟩
  obtain ⟨g', hat, hinv, hlt⟩ := o.call hs.inv hg (hs.thread i g q hg hq) hcall
  refine ⟨gs.set i g', ⟨?_, ?_, hinv⟩, o.left_set hg hlt⟩
  · rw [List.length_set, List.length_set, hs.length]
  · intro j g₁ q₁ hg₁ hq₁
    dsimp only at hq₁
    rcases eq_or_ne i j with rfl | hne
    · rw [List.getElem?_set_self (hs.length ▸ hi)] at hg₁
      rw [List.getElem?_set_self hi] at hq₁
      cases hg₁
      cases hq₁
      exact hat
    · rw [List.getElem?_set_ne hne] at hg₁ hq₁
      exact hs.thread j g₁ q₁ hg₁ hq₁

/-- The rule for schedules. -/
theorem runFrom
    {gs : List γ} {s s' : Threads I ε α σ} {sched : List Nat} (hs : o.Reached gs s)
    (hrun : Stepper.runFrom (Threads.step h) s sched = some s') :
    ∃ gs', o.Reached gs' s' ∧ o.left gs' + sched.length ≤ o.left gs := by
  induction sched generalizing gs s with
  | nil =>
      simp only [Stepper.runFrom_nil, Option.some.injEq] at hrun
      exact ⟨gs, hrun ▸ hs, Nat.le_refl _⟩
  | cons i sched ih =>
      obtain ⟨s₁, hstep, hrest⟩ := (Stepper.runFrom_cons _).mp hrun
      obtain ⟨gs₁, hs₁, hlt⟩ := hs.step hstep
      obtain ⟨gs', hs', hle⟩ := ih hs₁ hrest
      refine ⟨gs', hs', ?_⟩
      rw [List.length_cons]
      omega

/-- Some schedule goes on until no thread can move. -/
theorem exists_schedule
    {gs : List γ} {s : Threads I ε α σ} (hs : o.Reached gs s) :
    ∃ sched s', Stepper.runFrom (Threads.step h) s sched = some s' ∧
      ∀ i, Threads.step h s' i = none := by
  induction hn : o.left gs using Nat.strongRecOn generalizing gs s with
  | ind n ih =>
      by_cases hstuck : ∀ i, Threads.step h s i = none
      · exact ⟨[], s, rfl, hstuck⟩
      · obtain ⟨i, hi⟩ := not_forall.mp hstuck
        obtain ⟨s₁, hstep⟩ := Option.ne_none_iff_exists'.mp hi
        obtain ⟨gs₁, hs₁, hlt⟩ := hs.step hstep
        obtain ⟨sched, s', hrun, hend⟩ := ih (o.left gs₁) (hn ▸ hlt) hs₁ rfl
        exact ⟨i :: sched, s', (Stepper.runFrom_cons _).mpr ⟨s₁, hstep, hrun⟩, hend⟩

end Outline

end Threads

end Nmfs
