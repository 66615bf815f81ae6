import Mathlib.Algebra.Order.Ring.Nat
import Mathlib.Data.List.Basic

/-!
# Byte strings: ranges, zero-extension and overwriting

A file, an object or a buffer is a finite list of bytes.  This module fixes
the three operations every layer of a store is described with:

* `slice`: the bytes of a range, as far as they exist;
* `resize`: cut to a length, or extend to it with zero bytes;
* `overwrite`: zero-extend up to an offset, then replace or extend.

The laws say how two overwrites in a row compose, and what an overwrite does
to a window of the string.
-/

namespace Nmfs

/-- The content of a file, an object or a buffer. -/
abbrev Bytes := List UInt8

namespace Bytes

/-- The bytes of the range `[off, off + len)`, as far as they exist. -/
def slice (bs : Bytes) (off len : Nat) : Bytes :=
  (bs.drop off).take len

/-- The first `n` bytes, zero-padded to length `n`. -/
def resize (bs : Bytes) (n : Nat) : Bytes :=
  bs.take n ++ List.replicate (n - bs.length) 0

/-- Zero-extend to `off`, then replace or extend by `val`. -/
def overwrite (bs : Bytes) (off : Nat) (val : Bytes) : Bytes :=
  resize bs off ++ val ++ bs.drop (off + val.length)

@[simp] theorem length_slice
    (bs : Bytes) (off len : Nat) :
    (slice bs off len).length = min len (bs.length - off) := by
  simp [slice]

@[simp] theorem length_resize
    (bs : Bytes) (n : Nat) :
    (resize bs n).length = n := by
  simp [resize]
  omega

@[simp] theorem length_overwrite
    (bs : Bytes) (off : Nat) (val : Bytes) :
    (overwrite bs off val).length =
      max (off + val.length) bs.length := by
  simp [overwrite]
  omega

theorem getElem?_slice
    (bs : Bytes) (off len i : Nat) :
    (slice bs off len)[i]? =
      if i < len then bs[off + i]? else none := by
  simp [slice, List.getElem?_take]

theorem getElem?_resize
    (bs : Bytes) (n i : Nat) :
    (resize bs n)[i]? =
      if i < n then some (bs[i]?.getD 0) else none := by
  unfold resize
  rw [List.getElem?_append, List.length_take]
  by_cases hi : i < min n bs.length
  · have hlt : i < bs.length := by omega
    rw [if_pos hi, if_pos (by omega), List.getElem?_take,
      if_pos (by omega), List.getElem?_eq_getElem hlt, Option.getD_some]
  · rw [if_neg hi, List.getElem?_replicate]
    by_cases hn : i < n
    · rw [if_pos (by omega), if_pos hn,
        List.getElem?_eq_none (by omega), Option.getD_none]
    · rw [if_neg (by omega), if_neg hn]

/-- Reading one byte of an overwritten string. -/
theorem getElem?_overwrite
    (bs : Bytes) (off : Nat) (val : Bytes) (i : Nat) :
    (overwrite bs off val)[i]? =
      if i < off then some (bs[i]?.getD 0)
      else if i < off + val.length then val[i - off]?
      else bs[i]? := by
  unfold overwrite
  rw [List.append_assoc, List.getElem?_append, length_resize]
  by_cases h₁ : i < off
  · rw [if_pos h₁, if_pos h₁, getElem?_resize, if_pos h₁]
  · rw [if_neg h₁, if_neg h₁, List.getElem?_append]
    by_cases h₂ : i < off + val.length
    · rw [if_pos (by omega), if_pos h₂]
    · rw [if_neg (by omega), if_neg h₂, List.getElem?_drop]
      congr 1
      omega

/-- Below the old end an overwrite leaves the bytes before it alone. -/
theorem getElem?_overwrite_of_le
    {bs : Bytes} {off : Nat} (hoff : off ≤ bs.length)
    (val : Bytes) (i : Nat) :
    (overwrite bs off val)[i]? =
      if off ≤ i ∧ i < off + val.length then val[i - off]?
      else bs[i]? := by
  rw [getElem?_overwrite]
  by_cases h₁ : i < off
  · have hlt : i < bs.length := by omega
    rw [if_pos h₁, if_neg (by omega), List.getElem?_eq_getElem hlt,
      Option.getD_some]
  · rw [if_neg h₁]
    by_cases h₂ : i < off + val.length
    · rw [if_pos h₂, if_pos (by omega)]
    · rw [if_neg h₂, if_neg (by omega)]

theorem resize_of_le
    {bs : Bytes} {n : Nat} (hn : n ≤ bs.length) :
    resize bs n = bs.take n := by
  simp [resize, hn]

theorem resize_of_ge
    {bs : Bytes} {n : Nat} (hn : bs.length ≤ n) :
    resize bs n = bs ++ List.replicate (n - bs.length) 0 := by
  rw [resize, List.take_of_length_le hn]

/-- Writing nothing inside the string changes nothing. -/
theorem overwrite_nil
    {bs : Bytes} {off : Nat} (hoff : off ≤ bs.length) :
    overwrite bs off [] = bs := by
  simp [overwrite, resize_of_le hoff]

/-- Writing at the end appends. -/
theorem overwrite_length
    (bs val : Bytes) :
    overwrite bs bs.length val = bs ++ val := by
  simp [overwrite, resize_of_le (Nat.le_refl _)]

/-- An overwrite past the end is a zero-extension followed by an overwrite. -/
theorem overwrite_resize
    {bs : Bytes} {off : Nat} (hoff : bs.length ≤ off) (val : Bytes) :
    overwrite (resize bs off) off val = overwrite bs off val := by
  apply List.ext_getElem?
  intro i
  rw [getElem?_overwrite, getElem?_overwrite]
  by_cases h₁ : i < off
  · rw [if_pos h₁, if_pos h₁, getElem?_resize, if_pos h₁,
      Option.getD_some]
  · by_cases h₂ : i < off + val.length
    · simp [h₁, h₂]
    · simp only [h₁, h₂, if_false, getElem?_resize]
      rw [List.getElem?_eq_none (by omega)]

/-- Two overwrites in a row are one, when the second continues the first. -/
theorem overwrite_overwrite
    (bs : Bytes) (off : Nat) (v w : Bytes) :
    overwrite (overwrite bs off v) (off + v.length) w =
      overwrite bs off (v ++ w) := by
  apply List.ext_getElem?
  intro i
  rw [getElem?_overwrite_of_le (by rw [length_overwrite]; omega),
    getElem?_overwrite, getElem?_overwrite, List.length_append]
  by_cases h₁ : i < off
  · simp [h₁, show ¬ off + v.length ≤ i by omega]
  · by_cases h₂ : i < off + v.length
    · have hv : i - off < v.length := by omega
      simp only [h₁, h₂, if_false, if_true,
        show ¬ (off + v.length ≤ i ∧ i < off + v.length + w.length) by omega]
      rw [if_pos (by omega), List.getElem?_append_left hv]
    · by_cases h₃ : i < off + (v.length + w.length)
      · rw [if_pos (by omega), if_neg h₁, if_pos h₃,
          List.getElem?_append_right (by omega)]
        congr 1
        omega
      · rw [if_neg (by omega), if_neg h₁, if_neg h₂, if_neg h₁, if_neg h₃]

/-- Two overwrites inside the string that have no byte in common commute. -/
theorem overwrite_comm
    {bs : Bytes} {a b : Nat} {v w : Bytes} (ha : a ≤ bs.length) (hb : b ≤ bs.length)
    (hapart : a + v.length ≤ b ∨ b + w.length ≤ a) :
    overwrite (overwrite bs a v) b w = overwrite (overwrite bs b w) a v := by
  have ha' : a ≤ (overwrite bs b w).length := by
    rw [length_overwrite]
    exact Nat.le_trans ha (Nat.le_max_right _ _)
  have hb' : b ≤ (overwrite bs a v).length := by
    rw [length_overwrite]
    exact Nat.le_trans hb (Nat.le_max_right _ _)
  apply List.ext_getElem?
  intro i
  rw [getElem?_overwrite_of_le hb', getElem?_overwrite_of_le ha,
    getElem?_overwrite_of_le ha', getElem?_overwrite_of_le hb]
  by_cases hw : b ≤ i ∧ i < b + w.length
  · rw [if_pos hw, if_pos hw, if_neg (by omega)]
  · rw [if_neg hw, if_neg hw]

/-- Filling the gap behind the end with zeros is a zero-extension. -/
theorem overwrite_zeros
    {bs : Bytes} {off : Nat} (hoff : bs.length ≤ off) :
    overwrite bs bs.length (List.replicate (off - bs.length) 0) =
      resize bs off := by
  rw [overwrite_length, resize_of_ge hoff]

/-- Inside a window that contains the written range, an overwrite of the whole
string is an overwrite of the window. -/
theorem slice_overwrite_inside
    {bs : Bytes} {base size off : Nat} {val : Bytes}
    (hoff : base + off ≤ bs.length) (hval : off + val.length ≤ size) :
    slice (overwrite bs (base + off) val) base size =
      overwrite (slice bs base size) off val := by
  apply List.ext_getElem?
  intro i
  rw [getElem?_slice, getElem?_overwrite_of_le hoff,
    getElem?_overwrite_of_le (by rw [length_slice]; omega), getElem?_slice]
  by_cases h₁ : i < size
  · rw [if_pos h₁]
    by_cases h₂ : off ≤ i ∧ i < off + val.length
    · rw [if_pos (by omega), if_pos h₂]
      congr 1
      omega
    · rw [if_neg (by omega), if_neg h₂]
      simp [h₁]
  · rw [if_neg h₁, if_neg (by omega), if_neg h₁]

/-- A window that the written range does not meet is unchanged. -/
theorem slice_overwrite_outside
    {bs : Bytes} {base size off : Nat} {val : Bytes}
    (hoff : off ≤ bs.length)
    (hdisj : base + size ≤ off ∨ off + val.length ≤ base) :
    slice (overwrite bs off val) base size = slice bs base size := by
  apply List.ext_getElem?
  intro i
  rw [getElem?_slice, getElem?_slice, getElem?_overwrite_of_le hoff]
  by_cases h₁ : i < size
  · rw [if_pos h₁, if_pos h₁, if_neg (by omega)]
  · rw [if_neg h₁, if_neg h₁]

/-- Adjacent ranges join. -/
theorem slice_append_slice
    (bs : Bytes) (off m n : Nat) :
    slice bs off m ++ slice bs (off + m) n = slice bs off (m + n) := by
  simp only [slice]
  rw [List.take_add, List.drop_drop]

/-- Behind the end there is nothing. -/
theorem slice_of_length_le
    {bs : Bytes} {off : Nat} (hoff : bs.length ≤ off) (len : Nat) :
    slice bs off len = [] := by
  simp [slice, List.drop_eq_nil_of_le hoff]

/-- A range of a window is a range of the string. -/
theorem slice_slice
    (bs : Bytes) {base size off len : Nat} (hlen : off + len ≤ size) :
    slice (slice bs base size) off len = slice bs (base + off) len := by
  apply List.ext_getElem?
  intro i
  simp only [getElem?_slice]
  by_cases h : i < len
  · simp [h, show off + i < size by omega, Nat.add_assoc]
  · simp [h]

/-- The first part of a concatenation. -/
theorem slice_append_left
    {as : Bytes} (bs : Bytes) {len : Nat} (h : as.length = len) :
    slice (as ++ bs) 0 len = as := by
  subst h
  simp [slice]

/-- A range behind the first part of a concatenation. -/
theorem slice_append_right
    {as : Bytes} (bs : Bytes) {off : Nat} (h : as.length ≤ off) (len : Nat) :
    slice (as ++ bs) off len = slice bs (off - as.length) len := by
  rw [slice, slice, List.drop_append, List.drop_eq_nil_of_le h,
    List.nil_append]

/-- An overwrite inside the middle part of a concatenation. -/
theorem overwrite_append_inside
    (as : Bytes) {bs : Bytes} (cs : Bytes) {off : Nat} {val : Bytes}
    (hval : off + val.length ≤ bs.length) :
    overwrite (as ++ (bs ++ cs)) (as.length + off) val =
      as ++ (overwrite bs off val ++ cs) := by
  have hlen : (overwrite bs off val).length = bs.length := by
    rw [length_overwrite]
    omega
  apply List.ext_getElem?
  intro i
  rw [getElem?_overwrite_of_le (by simp; omega), List.getElem?_append,
    List.getElem?_append, List.getElem?_append, List.getElem?_append, hlen,
    getElem?_overwrite_of_le (by omega)]
  by_cases h₁ : i < as.length
  · simp [h₁, show ¬ as.length + off ≤ i by omega]
  · by_cases h₂ : off ≤ i - as.length ∧ i - as.length < off + val.length
    · simp only [h₁, if_false, h₂, and_self, if_true]
      rw [if_pos (by omega), if_pos (by omega)]
      congr 1
      omega
    · simp only [h₁, if_false, h₂]
      rw [if_neg (by omega)]

theorem overwrite_zero (old value : Bytes) :
    overwrite old 0 value = value ++ old.drop value.length := by
  simp [overwrite, resize]

/-- What is read after a value has been written at the beginning. -/
theorem resize_slice_overwrite
    (old : Bytes) {value : Bytes} {n : Nat} (h : value.length ≤ n) :
    ∃ rest, resize (slice (overwrite old 0 value) 0 n) n = value ++ rest := by
  have hslice : slice (overwrite old 0 value) 0 n =
      value ++ (old.drop value.length).take (n - value.length) := by
    rw [overwrite_zero, slice, List.drop_zero, List.take_append,
      List.take_of_length_le h]
  rw [hslice, resize, List.take_append, List.take_of_length_le h,
    List.append_assoc]
  exact ⟨_, rfl⟩

end Bytes

end Nmfs
