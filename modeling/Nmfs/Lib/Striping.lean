import Nmfs.Lib.ByteStrings
import Mathlib.Logic.Function.Basic

/-!
# A byte string striped over objects of one size

A content `c` is stored in numbered objects of at most `S` bytes: object `k`
holds the bytes of the window `[k * S, k * S + S)`.  Nothing records the
length of `c`; it is implied by the objects that exist.

`Striped S c n objs` says that exactly the objects below `n` exist, that all
but the last are full, and that the last one may be short or even empty (an
empty last object is what cutting at a window boundary leaves behind).  Two
operations keep the representation: writing one chunk of a window, without
leaving a gap (`Striped.write`), and cutting one object and dropping those
behind it (`Striped.cut`).
-/

namespace Nmfs

open Bytes

/-- `c` is striped over the objects below `n`. -/
structure Striped (S : Nat) (c : Bytes) (n : Nat)
    (objs : Nat → Option Bytes) : Prop where
  some_of_lt : ∀ k, k < n → objs k = some (slice c (k * S) S)
  none_of_ge : ∀ k, n ≤ k → objs k = none
  full_below : ∀ k, k < n → k * S ≤ c.length
  covers : c.length ≤ n * S

namespace Striped

variable {S n : Nat} {c : Bytes} {objs : Nat → Option Bytes}

/-- The empty content needs no object. -/
theorem empty (S : Nat) : Striped S [] 0 (fun _ => none) where
  some_of_lt := by intro k hk; omega
  none_of_ge := by intro k _; rfl
  full_below := by intro k hk; omega
  covers := by simp

/-- Reading an object, absent ones counting as empty, reads the window. -/
theorem getD_eq_slice
    (h : Striped S c n objs) (k : Nat) :
    (objs k).getD [] = slice c (k * S) S := by
  by_cases hk : k < n
  · rw [h.some_of_lt k hk, Option.getD_some]
  · have hge : n ≤ k := Nat.le_of_not_lt hk
    have hlen : c.length ≤ k * S :=
      Nat.le_trans h.covers (Nat.mul_le_mul_right S hge)
    rw [h.none_of_ge k hge, Option.getD_none, slice_of_length_le hlen]

theorem isSome_iff
    (h : Striped S c n objs) (k : Nat) :
    (objs k).isSome ↔ k < n := by
  by_cases hk : k < n
  · simp [h.some_of_lt k hk, hk]
  · simp [h.none_of_ge k (Nat.le_of_not_lt hk), hk]

/-- The content determines the objects up to the empty last one. -/
theorem eq_nil_of_zero
    (h : Striped S c 0 objs) : c = [] := by
  have := h.covers
  simp only [Nat.zero_mul, Nat.le_zero_eq, List.length_eq_zero_iff] at this
  exact this

/-- The objects determine the content. -/
theorem content_unique
    {c' : Bytes} {n' : Nat} (h : Striped S c n objs) (h' : Striped S c' n' objs)
    (hS : 0 < S) : c = c' := by
  apply List.ext_getElem?
  intro i
  have hwindow : slice c (i / S * S) S = slice c' (i / S * S) S := by
    rw [← h.getD_eq_slice, ← h'.getD_eq_slice]
  have hmod : i % S < S := Nat.mod_lt i hS
  have hi : i / S * S + i % S = i := by
    rw [Nat.mul_comm]
    exact Nat.div_add_mod i S
  have hbyte := congrArg (fun bs => bs[i % S]?) hwindow
  simpa only [getElem?_slice, hmod, if_true, hi] using hbyte

/-- An existing object tells where the content ends, unless it is full and
more objects follow. -/
theorem end_of_some
    (h : Striped S c n objs) {k : Nat} (hk : k < n) :
    k * S + (slice c (k * S) S).length = min c.length (k * S + S) := by
  have := h.full_below k hk
  rw [length_slice]
  omega

/-- A window other than that of the written chunk is not touched. -/
theorem slice_write_ne
    {S : Nat} {c d : Bytes} {k j o : Nat}
    (hoff : k * S + o ≤ c.length) (hd : o + d.length ≤ S)
    (hj : j ≠ k) :
    slice (overwrite c (k * S + o) d) (j * S) S = slice c (j * S) S := by
  apply slice_overwrite_outside hoff
  rcases Nat.lt_or_gt_of_ne hj with hlt | hgt
  · left
    have := Nat.mul_le_mul_right S hlt
    rw [Nat.succ_mul] at this
    omega
  · right
    have := Nat.mul_le_mul_right S hgt
    rw [Nat.succ_mul] at this
    omega

/-- **Writing a chunk.** A nonempty chunk inside window `k` that starts at or
below the end of the content is written into object `k`. -/
theorem write
    (h : Striped S c n objs) {k o : Nat} {d : Bytes}
    (hoff : k * S + o ≤ c.length) (hd : o + d.length ≤ S) (hne : d ≠ []) :
    Striped S (overwrite c (k * S + o) d) (max n (k + 1))
      (Function.update objs k
        (some (overwrite ((objs k).getD []) o d))) := by
  have hpos : 0 < d.length := List.length_pos_iff.mpr hne
  have hkn : k ≤ n := by
    by_contra hlt
    have := Nat.mul_le_mul_right S (Nat.lt_of_not_le hlt)
    rw [Nat.succ_mul] at this
    have := h.covers
    omega
  have hself : slice (overwrite c (k * S + o) d) (k * S) S =
      overwrite ((objs k).getD []) o d := by
    rw [h.getD_eq_slice, slice_overwrite_inside hoff hd]
  constructor
  · intro j hj
    by_cases hjk : j = k
    · subst j
      rw [Function.update_self, hself]
    · rw [Function.update_of_ne hjk, h.some_of_lt j (by omega),
        slice_write_ne hoff hd hjk]
  · intro j hj
    rw [Function.update_of_ne (by omega)]
    exact h.none_of_ge j (by omega)
  · intro j hj
    rw [length_overwrite]
    by_cases hjn : j < n
    · have := h.full_below j hjn
      omega
    · have : j = k := by omega
      subst j
      omega
  · rw [length_overwrite]
    have hk1 : (k + 1) * S ≤ max n (k + 1) * S :=
      Nat.mul_le_mul_right S (Nat.le_max_right _ _)
    have hn1 : n * S ≤ max n (k + 1) * S :=
      Nat.mul_le_mul_right S (Nat.le_max_left _ _)
    have := h.covers
    rw [Nat.succ_mul] at hk1
    omega

/-- **Cutting.** Cutting object `k` (if it exists) inside its window and
dropping the objects behind it cuts the content. -/
theorem cut
    (h : Striped S c n objs) {k o : Nat}
    (hoff : k * S + o ≤ c.length) (ho : o < S) :
    Striped S (c.take (k * S + o)) (min n (k + 1))
      (fun j => if j ≤ k then
          (objs j).map (fun b => if j = k then b.take o else b)
        else none) := by
  have hlen : (c.take (k * S + o)).length = k * S + o := by
    simp [hoff]
  constructor
  · intro j hj
    have hjk : j ≤ k := by omega
    rw [if_pos hjk, h.some_of_lt j (by omega), Option.map_some]
    congr 1
    apply List.ext_getElem?
    intro i
    by_cases hjeq : j = k
    · subst j
      rw [if_pos rfl, List.getElem?_take, getElem?_slice,
        getElem?_slice, List.getElem?_take]
      by_cases hi : i < o
      · rw [if_pos hi, if_pos (by omega), if_pos (by omega),
          if_pos (by omega)]
      · rw [if_neg hi, if_neg (show ¬ k * S + i < k * S + o by omega)]
        split <;> rfl
    · have hlt : j < k := by omega
      have := Nat.mul_le_mul_right S hlt
      rw [Nat.succ_mul] at this
      rw [if_neg hjeq, getElem?_slice, getElem?_slice, List.getElem?_take]
      by_cases hi : i < S
      · rw [if_pos hi, if_pos hi, if_pos (by omega)]
      · rw [if_neg hi, if_neg hi]
  · intro j hj
    by_cases hjk : j ≤ k
    · rw [if_pos hjk, h.none_of_ge j (by omega), Option.map_none]
    · rw [if_neg hjk]
  · intro j hj
    rw [hlen]
    have := Nat.mul_le_mul_right S (show j ≤ k by omega)
    omega
  · rw [hlen]
    have := h.covers
    rcases Nat.le_total n (k + 1) with hle | hle
    · rw [Nat.min_eq_left hle]
      omega
    · rw [Nat.min_eq_right hle, Nat.succ_mul]
      omega

/-- Reading a chunk of window `k` from its object. -/
theorem read
    (h : Striped S c n objs) {k o len : Nat} {b : Bytes}
    (hk : objs k = some b) (hlen : o + len ≤ S) :
    slice b o len = slice c (k * S + o) len := by
  have hb : b = slice c (k * S) S := by
    rw [← h.getD_eq_slice, hk, Option.getD_some]
  rw [hb, slice_slice c hlen]

end Striped

end Nmfs
