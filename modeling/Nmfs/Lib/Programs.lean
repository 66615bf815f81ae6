import Mathlib.Logic.Function.Basic

/-!
# Programs over an interface

A program that only acts through the calls of an interface is a finite tree:
it returns, throws, has gone wrong, or makes one call and continues with the
reply.  The same tree is used in two ways:

* `run` executes it alone, with a handler that answers the calls from a state;
* `step` executes a single call, so that several programs can be interleaved.

`Only` bounds the calls that a program can make, whatever the replies are.

The main theorem, `run_view`, lifts a law about single calls to programs: if a
handler answers every call as another one does of a view of its state, then so
do the runs of every program.
-/

namespace Nmfs

/-- The calls of an interface and the type of the reply to each of them. -/
structure Interface where
  Call : Type
  Reply : Call → Type

/-- Ways a program can go wrong without throwing. -/
inductive Fault where
  | undefinedBehaviour
  | divergence
deriving DecidableEq, Repr

/-- Programs over `I` that return an `α` or throw an `ε`. -/
inductive Prog (I : Interface) (ε α : Type) : Type
  | ret (a : α)
  | throw (e : ε)
  | fault (f : Fault)
  | call (c : I.Call) (next : I.Reply c → Prog I ε α)

/-- What is left when a program has ended. -/
inductive Outcome (ε α : Type) : Type
  | ok (a : α)
  | throws (e : ε)
  | faults (f : Fault)
deriving DecidableEq, Repr

/-- A handler answers a call from a state and updates the state. -/
abbrev Handler (I : Interface) (σ : Type) :=
  (c : I.Call) → σ → I.Reply c × σ

namespace Prog

variable {I : Interface} {ε α β γ σ τ : Type}

/-- Sequential composition. -/
def bind : Prog I ε α → (α → Prog I ε β) → Prog I ε β
  | ret a, f => f a
  | throw e, _ => throw e
  | fault x, _ => fault x
  | call c next, f => call c (fun r => bind (next r) f)

instance : Monad (Prog I ε) where
  pure := ret
  bind := bind

/-- One call, returning its reply. -/
def request (c : I.Call) : Prog I ε (I.Reply c) :=
  call c ret

/-- Run `p`; an exception is passed to `handle`. -/
def tryCatch (p : Prog I ε α) (handle : ε → Prog I ε α) : Prog I ε α :=
  match p with
  | ret a => ret a
  | throw e => handle e
  | fault x => fault x
  | call c next => call c (fun r => tryCatch (next r) handle)

/-- Execute a program alone. -/
def run (h : Handler I σ) : Prog I ε α → σ → Outcome ε α × σ
  | ret a, s => (.ok a, s)
  | throw e, s => (.throws e, s)
  | fault x, s => (.faults x, s)
  | call c next, s => run h (next (h c s).1) (h c s).2

/-- Execute the next call of a program, if it has not ended. -/
def step (h : Handler I σ) : Prog I ε α → σ → Option (Prog I ε α × σ)
  | call c next, s => some (next (h c s).1, (h c s).2)
  | _, _ => none

/-- Every call that a program can make satisfies `P`. -/
def Only (P : I.Call → Prop) : Prog I ε α → Prop
  | call c next => P c ∧ ∀ r, Only P (next r)
  | _ => True

@[simp] theorem pure_eq_ret (a : α) :
    (pure a : Prog I ε α) = ret a := rfl

@[simp] theorem ret_bind
    (a : α) (f : α → Prog I ε β) :
    (ret a >>= f) = f a := rfl

@[simp] theorem throw_bind
    (e : ε) (f : α → Prog I ε β) :
    (throw e >>= f) = throw e := rfl

@[simp] theorem fault_bind
    (x : Fault) (f : α → Prog I ε β) :
    (fault x >>= f) = fault x := rfl

@[simp] theorem call_bind
    (c : I.Call) (next : I.Reply c → Prog I ε α) (f : α → Prog I ε β) :
    (call c next >>= f) = call c (fun r => next r >>= f) := rfl

theorem bind_assoc'
    (p : Prog I ε α) (f : α → Prog I ε β) (g : β → Prog I ε γ) :
    (p >>= f >>= g) = (p >>= fun a => f a >>= g) := by
  induction p with
  | ret a => rfl
  | throw e => rfl
  | fault x => rfl
  | call c next ih =>
      simp only [call_bind]
      congr 1
      funext r
      exact ih r

section Run

variable (h : Handler I σ)

/-- Nothing comes behind the program. -/
theorem bind_ret (p : Prog I ε α) : p.bind ret = p := by
  induction p with
  | ret a => rfl
  | throw e => rfl
  | fault x => rfl
  | call c next ih =>
      simp only [bind]
      congr 1
      funext r
      exact ih r

@[simp] theorem run_ret (a : α) (s : σ) :
    run h (ret a : Prog I ε α) s = (.ok a, s) := rfl

@[simp] theorem run_throw (e : ε) (s : σ) :
    run h (throw e : Prog I ε α) s = (.throws e, s) := rfl

@[simp] theorem run_fault (x : Fault) (s : σ) :
    run h (fault x : Prog I ε α) s = (.faults x, s) := rfl

@[simp] theorem run_call
    (c : I.Call) (next : I.Reply c → Prog I ε α) (s : σ) :
    run h (call c next) s = run h (next (h c s).1) (h c s).2 := rfl

@[simp] theorem run_request (c : I.Call) (s : σ) :
    run h (request c : Prog I ε _) s = (.ok (h c s).1, (h c s).2) := rfl

/-- A composition runs its first part, and the second part if that returns. -/
theorem run_bind
    (p : Prog I ε α) (f : α → Prog I ε β) (s : σ) :
    run h (p >>= f) s =
      match run h p s with
      | (.ok a, s') => run h (f a) s'
      | (.throws e, s') => (.throws e, s')
      | (.faults x, s') => (.faults x, s') := by
  induction p generalizing s with
  | ret a => rfl
  | throw e => rfl
  | fault x => rfl
  | call c next ih =>
      simp only [call_bind, run_call]
      exact ih (h c s).1 (h c s).2

theorem run_bind_ok
    {p : Prog I ε α} {f : α → Prog I ε β} {s s' : σ} {a : α}
    (hp : run h p s = (.ok a, s')) :
    run h (p >>= f) s = run h (f a) s' := by
  rw [run_bind, hp]

theorem run_bind_throws
    {p : Prog I ε α} {f : α → Prog I ε β} {s s' : σ} {e : ε}
    (hp : run h p s = (.throws e, s')) :
    run h (p >>= f) s = (.throws e, s') := by
  rw [run_bind, hp]

theorem run_bind_faults
    {p : Prog I ε α} {f : α → Prog I ε β} {s s' : σ} {x : Fault}
    (hp : run h p s = (.faults x, s')) :
    run h (p >>= f) s = (.faults x, s') := by
  rw [run_bind, hp]

/-- A composition returns only if both parts do. -/
theorem run_bind_eq_ok
    {p : Prog I ε α} {f : α → Prog I ε β} {s s' : σ} {b : β}
    (hrun : run h (p >>= f) s = (.ok b, s')) :
    ∃ a s₁, run h p s = (.ok a, s₁) ∧ run h (f a) s₁ = (.ok b, s') := by
  rcases hp : run h p s with ⟨o, s₁⟩
  cases o with
  | ok a => exact ⟨a, s₁, rfl, by rwa [run_bind_ok h hp] at hrun⟩
  | throws e =>
      rw [run_bind_throws h hp] at hrun
      cases hrun
  | faults x =>
      rw [run_bind_faults h hp] at hrun
      cases hrun

/-- A part that goes wrong takes the whole with it. -/
theorem run_bind_fst_faults
    {p : Prog I ε α} {f : α → Prog I ε β} {s : σ} {x : Fault}
    (hp : (run h p s).1 = .faults x) :
    (run h (p >>= f) s).1 = .faults x := by
  rcases hr : run h p s with ⟨o, s'⟩
  rw [hr] at hp
  simp only at hp
  subst hp
  rw [run_bind_faults h hr]

/-- Running under a handler for exceptions. -/
theorem run_tryCatch
    (p : Prog I ε α) (handle : ε → Prog I ε α) (s : σ) :
    run h (tryCatch p handle) s =
      match run h p s with
      | (.throws e, s') => run h (handle e) s'
      | r => r := by
  induction p generalizing s with
  | ret a => rfl
  | throw e => rfl
  | fault x => rfl
  | call c next ih => exact ih (h c s).1 (h c s).2

end Run

section Only

variable {P : I.Call → Prop}

@[simp] theorem only_ret (a : α) : Only P (ret a : Prog I ε α) := trivial

@[simp] theorem only_throw (e : ε) : Only P (throw e : Prog I ε α) := trivial

@[simp] theorem only_fault (x : Fault) : Only P (fault x : Prog I ε α) := trivial

theorem Only.bind
    {p : Prog I ε α} {f : α → Prog I ε β} (hp : Only P p)
    (hf : ∀ a, Only P (f a)) : Only P (p >>= f) := by
  induction p with
  | ret a => exact hf a
  | throw e => trivial
  | fault x => trivial
  | call c next ih => exact ⟨hp.1, fun r => ih r (hp.2 r)⟩

theorem Only.tryCatch
    {p : Prog I ε α} {handle : ε → Prog I ε α} (hp : Only P p)
    (hh : ∀ e, Only P (handle e)) : Only P (tryCatch p handle) := by
  induction p with
  | ret a => trivial
  | throw e => exact hh e
  | fault x => trivial
  | call c next ih => exact ⟨hp.1, fun r => ih r (hp.2 r)⟩

theorem Only.mono
    {Q : I.Call → Prop} {p : Prog I ε α} (hp : Only P p)
    (hPQ : ∀ c, P c → Q c) : Only Q p := by
  induction p with
  | ret a => trivial
  | throw e => trivial
  | fault x => trivial
  | call c next ih => exact ⟨hPQ c hp.1, fun r => ih r (hp.2 r)⟩

/-- What all these calls preserve, the run preserves, however it ends. -/
theorem Only.run
    {h : Handler I σ} {R : σ → σ → Prop} (hrefl : ∀ s, R s s)
    (htrans : ∀ s s' s'', R s s' → R s' s'' → R s s'')
    (hcall : ∀ c s, P c → R s (h c s).2) {p : Prog I ε α} (hp : Only P p)
    (s : σ) : R s (p.run h s).2 := by
  induction p generalizing s with
  | ret a => exact hrefl s
  | throw e => exact hrefl s
  | fault x => exact hrefl s
  | call c next ih =>
      exact htrans _ _ _ (hcall c s hp.1) (ih _ (hp.2 _) _)

end Only

/-- **Views.**  If the answers to single calls agree under a view of the state,
then runs from a state and from its view end alike, in a state and its view. -/
theorem run_view
    {h : Handler I σ} {g : Handler I τ} {view : τ → σ}
    (hcall : ∀ c u, Prod.map id view (g c u) = h c (view u))
    (p : Prog I ε α) (u : τ) :
    Prod.map id view (run g p u) = run h p (view u) := by
  induction p generalizing u with
  | ret a => rfl
  | throw e => rfl
  | fault x => rfl
  | call c next ih =>
      rw [run_call, run_call, ih, ← hcall c u]
      rfl

theorem step_view
    {h : Handler I σ} {g : Handler I τ} {view : τ → σ}
    (hcall : ∀ c u, Prod.map id view (g c u) = h c (view u))
    (p : Prog I ε α) (u : τ) :
    (step g p u).map (Prod.map id view) = step h p (view u) := by
  cases p with
  | ret a => rfl
  | throw e => rfl
  | fault x => rfl
  | call c next =>
      rw [step, step, ← hcall c u]
      rfl

end Prog

end Nmfs
