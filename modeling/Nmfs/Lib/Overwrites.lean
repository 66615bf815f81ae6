import Mathlib.Data.Option.Basic

/-!
# Overwriting a cell

A log of blind writes: each record overwrites a cell with a value that does not
depend on what the cell holds, or leaves it alone.  What is in the cell at the
end is the last value that has been written, or the first content where nothing
has been.

Hence a log may be replayed over the result of any part of it (`after_replay`).
-/

namespace Nmfs

namespace Overwrites

variable {β : Type}

/-- The content of a cell after some records; `none` is a record that leaves the
cell alone. -/
def after (x : β) : List (Option β) → β
  | [] => x
  | w :: ws => after (w.getD x) ws

theorem after_append (x : β) (ws vs : List (Option β)) :
    after x (ws ++ vs) = after (after x ws) vs := by
  induction ws generalizing x with
  | nil => rfl
  | cons w ws ih => exact ih (w.getD x)

/-- Nothing has been written. -/
theorem after_of_none
    {ws : List (Option β)} (h : ∀ w ∈ ws, w = none) (x : β) : after x ws = x := by
  induction ws with
  | nil => rfl
  | cons w ws ih =>
      rw [after, h w List.mem_cons_self]
      exact ih fun w' hw' => h w' (List.mem_cons_of_mem w hw')

/-- What has been written does not depend on what was there before. -/
theorem after_of_some
    {ws : List (Option β)} {v : β} (h : some v ∈ ws) (x y : β) :
    after x ws = after y ws := by
  induction ws generalizing x y with
  | nil => cases h
  | cons w ws ih =>
      rcases List.mem_cons.mp h with rfl | h'
      · rfl
      · exact ih h' _ _

/-- Replaying a log over what a part of it has left. -/
theorem after_replay
    {ws vs : List (Option β)} (hsub : ∀ w ∈ vs, w ∈ ws) (x : β) :
    after (after x vs) ws = after x ws := by
  by_cases h : ∃ v, some v ∈ ws
  · obtain ⟨v, hv⟩ := h
    exact after_of_some hv _ _
  · have hnone : ∀ w ∈ ws, w = none := by
      intro w hw
      cases w with
      | none => rfl
      | some v => exact absurd ⟨v, hw⟩ h
    rw [after_of_none fun w hw => hnone w (hsub w hw)]

/-- A value that the log ends with may be written in front of it. -/
theorem after_settled
    {ws : List (Option β)} {x y : β} (h : after x ws = y) : after y ws = y := by
  rw [← h]
  exact after_replay (fun _ hw => hw) x

end Overwrites

end Nmfs
