import Nmfs.Lib.Programs

/-!
# Programs that do not go wrong, and programs that only read

A run is safe if it returns or throws.  Of a composition both parts have to be
safe, the second in the states that the first one returns in.  A program that
only reads leaves every state as it is.
-/

namespace Nmfs

namespace Prog

variable {I : Interface} {ε α β σ : Type} {h : Handler I σ} {s : σ}

/-- The run returns or throws. -/
def Safe (h : Handler I σ) (p : Prog I ε α) (s : σ) : Prop :=
  ∀ x, (run h p s).1 ≠ .faults x

@[simp] theorem safe_ret (a : α) : Safe h (ret a : Prog I ε α) s := nofun

@[simp] theorem safe_throw (e : ε) : Safe h (throw e : Prog I ε α) s := nofun

@[simp] theorem not_safe_fault (x : Fault) :
    ¬ Safe h (fault x : Prog I ε α) s := fun hsafe => hsafe x rfl

/-- A run that returns is safe. -/
theorem safe_of_ok
    {p : Prog I ε α} {a : α} {s' : σ} (hp : run h p s = (.ok a, s')) : Safe h p s := by
  intro x hx
  rw [hp] at hx
  cases hx

theorem safe_bind_iff {p : Prog I ε α} {f : α → Prog I ε β} :
    Safe h (p >>= f) s ↔
      Safe h p s ∧ ∀ a s', run h p s = (.ok a, s') → Safe h (f a) s' := by
  unfold Safe
  rw [run_bind]
  rcases run h p s with ⟨o, s'⟩
  cases o with
  | ok a =>
      constructor
      · intro hsafe
        refine ⟨nofun, ?_⟩
        intro a' s'' heq
        cases heq
        exact hsafe
      · rintro ⟨-, hnext⟩
        exact hnext a s' rfl
  | throws e => exact ⟨fun _ => ⟨nofun, nofun⟩, fun _ => nofun⟩
  | faults x =>
      constructor
      · intro hsafe
        exact absurd rfl (hsafe x)
      · rintro ⟨hsafe, -⟩
        exact absurd rfl (hsafe x)

/-- The first part is known to return. -/
theorem safe_bind_of_ok
    {p : Prog I ε α} {f : α → Prog I ε β} {a : α} {s' : σ}
    (hp : run h p s = (.ok a, s')) : Safe h (p >>= f) s ↔ Safe h (f a) s' := by
  unfold Safe
  rw [run_bind_ok h hp]

/-- Two second parts that are the same where the first part returns. -/
theorem run_bind_congr
    {p : Prog I ε α} {f g : α → Prog I ε β}
    (hfg : ∀ a s', run h p s = (.ok a, s') → run h (f a) s' = run h (g a) s') :
    run h (p >>= f) s = run h (p >>= g) s := by
  rw [run_bind, run_bind]
  rcases hrun : run h p s with ⟨o, s'⟩
  cases o with
  | ok a => exact hfg a s' hrun
  | throws e | faults x => rfl

/-- A handler for exceptions that does not go wrong either. -/
theorem safe_tryCatch_iff
    {p : Prog I ε α} {handle : ε → Prog I ε α}
    (hhandle : ∀ e s, Safe h (handle e) s) :
    Safe h (tryCatch p handle) s ↔ Safe h p s := by
  unfold Safe
  rw [run_tryCatch]
  rcases run h p s with ⟨o, s'⟩
  cases o with
  | ok a | faults x => exact Iff.rfl
  | throws e => exact ⟨fun _ => nofun, fun _ => hhandle e s'⟩

/-- A safe run ends in one of two ways. -/
theorem Safe.cases {p : Prog I ε α} (hsafe : Safe h p s) :
    (∃ a s', run h p s = (.ok a, s')) ∨ ∃ e s', run h p s = (.throws e, s') := by
  unfold Safe at hsafe
  rcases hrun : run h p s with ⟨o, s'⟩
  rw [hrun] at hsafe
  cases o with
  | ok a => exact .inl ⟨a, s', rfl⟩
  | throws e => exact .inr ⟨e, s', rfl⟩
  | faults x => exact absurd rfl (hsafe x)

/-- Every run leaves the state as it is. -/
def ReadOnly (h : Handler I σ) (p : Prog I ε α) : Prop := ∀ s, (run h p s).2 = s

theorem readOnly_ret (a : α) : ReadOnly h (ret a : Prog I ε α) := fun _ => rfl

theorem readOnly_throw (e : ε) : ReadOnly h (throw e : Prog I ε α) := fun _ => rfl

theorem readOnly_fault (x : Fault) : ReadOnly h (fault x : Prog I ε α) :=
  fun _ => rfl

theorem ReadOnly.bind
    {p : Prog I ε α} {f : α → Prog I ε β} (hp : ReadOnly h p)
    (hf : ∀ a, ReadOnly h (f a)) : ReadOnly h (p >>= f) := by
  intro s
  have hs := hp s
  rw [run_bind]
  rcases hrun : run h p s with ⟨o, s'⟩
  rw [hrun] at hs
  cases hs
  cases o with
  | ok a => exact hf a s'
  | throws e | faults x => rfl

theorem ReadOnly.eq
    {p : Prog I ε α} (hp : ReadOnly h p) {o : Outcome ε α} {s s' : σ}
    (hrun : run h p s = (o, s')) : s' = s := by
  have hs := hp s
  rwa [hrun] at hs

end Prog

end Nmfs
