import Nmfs.Lib.Programs

/-!
# Calls that can fail

A handler whose calls are numbered, and fail as a pattern says: a call whose
number has an error is answered by it and has no effect.

A program is fail-stop if it throws as soon as it gets such an answer.  Its run
is the one without failures as long as none of its calls fails
(`run_failing_of_none`), and throws otherwise (`FailStop.run_failing`).
-/

namespace Nmfs

variable {I : Interface} {ε α β σ τ E : Type}

/-- `h` with failing calls.  The state counts the calls; `err` is the answer
that carries an error. -/
def Handler.failing (h : Handler I σ) (err : (c : I.Call) → E → I.Reply c)
    (fails : Nat → Option E) : Handler I (σ × Nat)
  | c, (s, k) =>
      match fails k with
      | some e => (err c e, (s, k + 1))
      | none => ((h c s).1, ((h c s).2, k + 1))

namespace Prog

/-- The number of calls in a run. -/
def calls (h : Handler I σ) : Prog I ε α → σ → Nat
  | call c next, s => calls h (next (h c s).1) (h c s).2 + 1
  | _, _ => 0

/-- The number of those calls in a run that satisfy `P`. -/
def callsOf (P : I.Call → Bool) (h : Handler I σ) : Prog I ε α → σ → Nat
  | call c next, s =>
      callsOf P h (next (h c s).1) (h c s).2 + if P c then 1 else 0
  | _, _ => 0

/-- Throws at the first answer that carries an error. -/
def FailStop (err : (c : I.Call) → E → I.Reply c) : Prog I ε α → Prop
  | call c next =>
      (∀ e, ∃ x, next (err c e) = throw x) ∧ ∀ r, FailStop err (next r)
  | _ => True

section Calls

variable (h : Handler I σ)

@[simp] theorem calls_ret (a : α) (s : σ) :
    calls h (ret a : Prog I ε α) s = 0 := rfl

@[simp] theorem calls_throw (e : ε) (s : σ) :
    calls h (throw e : Prog I ε α) s = 0 := rfl

@[simp] theorem calls_fault (x : Fault) (s : σ) :
    calls h (fault x : Prog I ε α) s = 0 := rfl

@[simp] theorem calls_call
    (c : I.Call) (next : I.Reply c → Prog I ε α) (s : σ) :
    calls h (call c next) s = calls h (next (h c s).1) (h c s).2 + 1 := rfl

@[simp] theorem callsOf_ret (P : I.Call → Bool) (a : α) (s : σ) :
    callsOf P h (ret a : Prog I ε α) s = 0 := rfl

@[simp] theorem callsOf_call
    (P : I.Call → Bool) (c : I.Call) (next : I.Reply c → Prog I ε α) (s : σ) :
    callsOf P h (call c next) s =
      callsOf P h (next (h c s).1) (h c s).2 + if P c then 1 else 0 := rfl

/-- The second part adds its calls if the first part returns. -/
theorem calls_bind
    (p : Prog I ε α) (f : α → Prog I ε β) (s : σ) :
    calls h (p >>= f) s = calls h p s +
      match run h p s with
      | (.ok a, s') => calls h (f a) s'
      | _ => 0 := by
  induction p generalizing s with
  | ret a => exact (Nat.zero_add _).symm
  | throw e => rfl
  | fault x => rfl
  | call c next ih =>
      rw [call_bind, calls_call, calls_call, run_call, ih, Nat.add_right_comm]

theorem calls_bind_ok
    {p : Prog I ε α} {f : α → Prog I ε β} {s s' : σ} {a : α}
    (hp : run h p s = (.ok a, s')) :
    calls h (p >>= f) s = calls h p s + calls h (f a) s' := by
  rw [calls_bind, hp]

/-- A second part without calls adds none. -/
theorem calls_bind_ret
    (p : Prog I ε α) (b : α → β) (s : σ) :
    calls h (p >>= fun a => ret (b a)) s = calls h p s := by
  rw [calls_bind]
  rcases run h p s with ⟨_ | _ | _, s'⟩ <;> rfl

end Calls

section Failing

variable {err : (c : I.Call) → E → I.Reply c} {fails : Nat → Option E}

theorem failing_of_none
    (h : Handler I σ) {k : Nat} (hk : fails k = none) (c : I.Call) (s : σ) :
    h.failing err fails c (s, k) = ((h c s).1, ((h c s).2, k + 1)) := by
  simp only [Handler.failing, hk]

theorem failing_of_some
    (h : Handler I σ) {k : Nat} {e : E} (hk : fails k = some e) (c : I.Call)
    (s : σ) :
    h.failing err fails c (s, k) = (err c e, (s, k + 1)) := by
  simp only [Handler.failing, hk]

/-- Failures behind the last call of a run do not change it. -/
theorem run_failing_of_none
    {h : Handler I σ} (p : Prog I ε α) {s : σ} {k : Nat}
    (hfails : ∀ j < calls h p s, fails (k + j) = none) :
    run (h.failing err fails) p (s, k) =
      ((run h p s).1, ((run h p s).2, k + calls h p s)) := by
  induction p generalizing s k with
  | ret a => rfl
  | throw e => rfl
  | fault x => rfl
  | call c next ih =>
      have hk : fails k = none := hfails 0 (Nat.succ_pos _)
      rw [run_call, failing_of_none h hk, run_call]
      rw [ih]
      · rw [calls_call, Nat.add_assoc, Nat.add_comm 1]
      · intro j hj
        have hj' := hfails (j + 1) (Nat.succ_lt_succ hj)
        rwa [Nat.add_assoc, Nat.add_comm 1]

@[simp] theorem failStop_ret (a : α) : FailStop err (ret a : Prog I ε α) :=
  trivial

@[simp] theorem failStop_throw (e : ε) :
    FailStop err (throw e : Prog I ε α) := trivial

@[simp] theorem failStop_fault (x : Fault) :
    FailStop err (fault x : Prog I ε α) := trivial

theorem FailStop.bind
    {p : Prog I ε α} {f : α → Prog I ε β} (hp : FailStop err p)
    (hf : ∀ a, FailStop err (f a)) : FailStop err (p >>= f) := by
  induction p with
  | ret a => exact hf a
  | throw e => trivial
  | fault x => trivial
  | call c next ih =>
      refine ⟨?_, fun r => ih r (hp.2 r)⟩
      intro e
      obtain ⟨x, hx⟩ := hp.1 e
      refine ⟨x, ?_⟩
      change (next (err c e) >>= f) = throw x
      rw [hx, throw_bind]

/-- A call of the run that fails makes it throw. -/
theorem FailStop.run_failing
    {h : Handler I σ} {p : Prog I ε α} (hp : FailStop err p) {s : σ} {k : Nat}
    (hfails : ∃ j < calls h p s, fails (k + j) ≠ none) :
    ∃ x s', run (h.failing err fails) p (s, k) = (.throws x, s') := by
  induction p generalizing s k with
  | ret a => simp at hfails
  | throw e => simp at hfails
  | fault x => simp at hfails
  | call c next ih =>
      rw [run_call]
      cases hk : fails k with
      | some e =>
          obtain ⟨x, hx⟩ := hp.1 e
          exact ⟨x, (s, k + 1), by rw [failing_of_some h hk, hx, run_throw]⟩
      | none =>
          obtain ⟨j, hj, hne⟩ := hfails
          -- the failing call is a later one
          cases j with
          | zero => exact absurd hk hne
          | succ j =>
              rw [failing_of_none h hk]
              refine ih _ (hp.2 _) ⟨j, Nat.lt_of_succ_lt_succ hj, ?_⟩
              rwa [Nat.add_right_comm, Nat.add_assoc]

end Failing

section Views

variable {h : Handler I σ} {g : Handler I τ} {view : τ → σ}

/-- Handlers that agree under a view agree when the same calls fail. -/
theorem failing_view
    (hcall : ∀ c u, Prod.map id view (g c u) = h c (view u))
    (err : (c : I.Call) → E → I.Reply c) (fails : Nat → Option E) (c : I.Call)
    (u : τ × Nat) : Prod.map id (Prod.map view id) (g.failing err fails c u) =
      h.failing err fails c (Prod.map view id u) := by
  obtain ⟨u, k⟩ := u
  change _ = h.failing err fails c (view u, k)
  cases hk : fails k with
  | some e =>
      rw [failing_of_some g hk, failing_of_some h hk]
      rfl
  | none =>
      rw [failing_of_none g hk, failing_of_none h hk, ← hcall c u]
      rfl

theorem callsOf_view
    (hcall : ∀ c u, Prod.map id view (g c u) = h c (view u)) (P : I.Call → Bool)
    (p : Prog I ε α) (u : τ) : callsOf P g p u = callsOf P h p (view u) := by
  induction p generalizing u with
  | ret a => rfl
  | throw e => rfl
  | fault x => rfl
  | call c next ih =>
      rw [callsOf_call, callsOf_call, ih, ← hcall c u]
      rfl

end Views

end Prog

end Nmfs
