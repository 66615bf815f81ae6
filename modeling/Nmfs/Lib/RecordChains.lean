import Mathlib.Data.List.Basic

/-!
# Chains of records

Records that tell their own size lie one behind the other.  A reader that knows
nothing else finds the next record by the size of the last one; the chain is
intact if this walk meets the records where they were put.
-/

namespace Nmfs

namespace RecordChain

variable {β : Type}

/-- Where each of the records starts, the first one at `start`. -/
def offsets : Nat → List (List β) → List Nat
  | _, [] => []
  | start, r :: rs => start :: offsets (start + r.length) rs

/-- Follow the sizes from `index` to the end of `c`.  The reader gives up where
no size can be read, and when it has met `left` records. -/
def walk (size : List β → Option Nat) (c : List β) :
    (left index : Nat) → Option (List Nat)
  | 0, _ => none
  | left + 1, index =>
      if index = c.length then some []
      else
        (size (c.drop index)).bind fun n =>
          (walk size c left (index + n)).map (index :: ·)

variable {size : List β → Option Nat}

@[simp] theorem length_offsets (start : Nat) (rs : List (List β)) :
    (offsets start rs).length = rs.length := by
  induction rs generalizing start with
  | nil => rfl
  | cons r rs ih => simp [offsets, ih]

theorem offsets_append
    (start : Nat) (rs rs' : List (List β)) :
    offsets start (rs ++ rs') =
      offsets start rs ++ offsets (start + rs.flatten.length) rs' := by
  induction rs generalizing start with
  | nil => simp [offsets]
  | cons r rs ih => simp [offsets, ih, Nat.add_assoc]

/-- Only the lengths matter. -/
theorem offsets_congr
    {ι : Type} {f g : ι → List β} (hfg : ∀ i, (f i).length = (g i).length)
    (start : Nat) (l : List ι) :
    offsets start (l.map f) = offsets start (l.map g) := by
  induction l generalizing start with
  | nil => rfl
  | cons i l ih => simp only [List.map_cons, offsets, hfg i, ih]

/-- Two chains of records of the same lengths are the same record by record. -/
theorem eq_of_flatten_eq
    {ι : Type} {f g : ι → List β} (hfg : ∀ i, (f i).length = (g i).length)
    {l : List ι} (h : (l.map f).flatten = (l.map g).flatten) :
    ∀ i ∈ l, f i = g i := by
  induction l with
  | nil => simp
  | cons i l ih =>
      simp only [List.map_cons, List.flatten_cons] at h
      obtain ⟨hi, hl⟩ := List.append_inj h (hfg i)
      intro j hj
      rcases List.mem_cons.mp hj with rfl | hj
      · exact hi
      · exact ih hl j hj

/-- Records that tell their size are met where they are. -/
theorem walk_flatten
    {rs : List (List β)} (hsize : ∀ r ∈ rs, ∀ rest, size (r ++ rest) = some r.length)
    (hne : ∀ r ∈ rs, r ≠ []) (as : List β) {left : Nat} (hleft : rs.length < left) :
    walk size (as ++ rs.flatten) left as.length = some (offsets as.length rs) := by
  induction rs generalizing as left with
  | nil =>
      cases left with
      | zero => cases hleft
      | succ left => simp [walk, offsets]
  | cons r rs ih =>
      cases left with
      | zero => cases hleft
      | succ left =>
          have hr : 0 < r.length :=
            List.length_pos_of_ne_nil (hne r List.mem_cons_self)
          have hend : as.length ≠ (as ++ (r :: rs).flatten).length := by
            rw [List.length_append, List.flatten_cons, List.length_append]
            omega
          have hleft' : rs.length < left := by simpa using hleft
          have hih := ih (fun r' hr' => hsize r' (List.mem_cons_of_mem _ hr'))
            (fun r' hr' => hne r' (List.mem_cons_of_mem _ hr')) (as ++ r) hleft'
          rw [walk, if_neg hend, List.drop_left, List.flatten_cons,
            hsize r List.mem_cons_self, Option.bind_some]
          simp only [List.length_append, List.append_assoc] at hih
          rw [hih]
          rfl

/-- If they are met where they are, then they tell their size. -/
theorem size_of_walk
    {rs : List (List β)} (hne : ∀ r ∈ rs, r ≠ []) (as : List β) {left : Nat}
    (hwalk : walk size (as ++ rs.flatten) left as.length =
      some (offsets as.length rs)) :
    ∀ r ∈ rs, ∃ rest, size (r ++ rest) = some r.length := by
  induction rs generalizing as left with
  | nil => simp
  | cons r rs ih =>
      cases left with
      | zero => cases hwalk
      | succ left =>
          have hr : 0 < r.length :=
            List.length_pos_of_ne_nil (hne r List.mem_cons_self)
          have hend : as.length ≠ (as ++ (r :: rs).flatten).length := by
            rw [List.length_append, List.flatten_cons, List.length_append]
            omega
          rw [walk, if_neg hend, List.drop_left, List.flatten_cons] at hwalk
          obtain ⟨n, hn, hwalk⟩ := Option.bind_eq_some_iff.mp hwalk
          obtain ⟨os, hos, heq⟩ := Option.map_eq_some_iff.mp hwalk
          simp only [offsets, List.cons.injEq, true_and] at heq
          subst heq
          -- the walk goes on behind the record, so that is the size it read
          have hnext : n = r.length := by
            cases left with
            | zero => cases hos
            | succ left =>
                rw [walk] at hos
                split at hos
                · rename_i hend
                  cases rs with
                  | nil => simpa using hend
                  | cons r' rs => cases hos
                · obtain ⟨m, -, hos⟩ := Option.bind_eq_some_iff.mp hos
                  obtain ⟨os, -, heq⟩ := Option.map_eq_some_iff.mp hos
                  cases rs with
                  | nil => cases heq
                  | cons r' rs =>
                      simp only [offsets, List.cons.injEq] at heq
                      omega
          subst hnext
          intro r' hr'
          rcases List.mem_cons.mp hr' with rfl | hr'
          · exact ⟨_, hn⟩
          · have hos' : walk size ((as ++ r) ++ rs.flatten) left
                (as ++ r).length = some (offsets (as ++ r).length rs) := by
              simpa only [List.length_append, List.append_assoc] using hos
            exact ih (fun r' hr' => hne r' (List.mem_cons_of_mem _ hr'))
              (as ++ r) hos' r' hr'

end RecordChain

end Nmfs
