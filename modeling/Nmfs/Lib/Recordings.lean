import Nmfs.Lib.Programs

/-!
# Recorded calls

A handler that keeps a record of the calls it has answered.  It answers them as
before (`run_recording`), so that what is proved about a recorded run holds of
the plain one.
-/

namespace Nmfs

variable {I : Interface} {ε α σ τ : Type}

/-- `h` with a record of its calls, the first one first. -/
def Handler.recording (h : Handler I σ) : Handler I (σ × List I.Call)
  | c, (s, made) => ((h c s).1, ((h c s).2, made ++ [c]))

namespace Prog

theorem recording_apply
    (h : Handler I σ) (c : I.Call) (s : σ) (made : List I.Call) :
    h.recording c (s, made) = ((h c s).1, ((h c s).2, made ++ [c])) := rfl

/-- The record changes neither the result nor the state. -/
theorem run_recording
    (h : Handler I σ) (p : Prog I ε α) (s : σ) (made : List I.Call) :
    (run h.recording p (s, made)).1 = (run h p s).1 ∧
      (run h.recording p (s, made)).2.1 = (run h p s).2 := by
  induction p generalizing s made with
  | ret a => exact ⟨rfl, rfl⟩
  | throw e => exact ⟨rfl, rfl⟩
  | fault x => exact ⟨rfl, rfl⟩
  | call c next ih =>
      rw [run_call, recording_apply, run_call]
      exact ih (h c s).1 (h c s).2 (made ++ [c])

/-- Two handlers that agree under a view make the same calls. -/
theorem run_recording_view
    {h : Handler I σ} {g : Handler I τ} {view : τ → σ}
    (hcall : ∀ c u, Prod.map id view (g c u) = h c (view u))
    (p : Prog I ε α) (u : τ) (made : List I.Call) :
    Prod.map id (Prod.map view id) (run g.recording p (u, made)) =
      run h.recording p (view u, made) := by
  refine run_view (fun c x => ?_) p (u, made)
  obtain ⟨u, made⟩ := x
  change ((g c u).1, (view (g c u).2, made ++ [c])) = h.recording c (view u, made)
  rw [recording_apply, ← hcall c u]
  rfl

end Prog

end Nmfs
