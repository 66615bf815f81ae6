import Nmfs.Rados.RadosIo

/-!
# Object names

An object name determines its category, key and object number, whatever
characters the key contains: the category is the first character, and the
object number is what follows the last `#`.
-/

namespace Nmfs

/-- Two lists that continue with the same separator are equal in parts, if the
separator does not occur behind it. -/
theorem append_cons_inj_of_not_mem
    {α : Type} {a : α} {l l' d d' : List α}
    (hd : a ∉ d) (hd' : a ∉ d')
    (h : l ++ a :: d = l' ++ a :: d') :
    l = l' ∧ d = d' := by
  rcases List.append_eq_append_iff.mp h with ⟨m, hl, hm⟩ | ⟨m, hl, hm⟩
  · cases m with
    | nil =>
        simp only [List.append_nil] at hl
        simp only [List.nil_append, List.cons.injEq, true_and] at hm
        exact ⟨hl.symm, hm⟩
    | cons b m =>
        simp only [List.cons_append, List.cons.injEq] at hm
        exact absurd (by rw [hm.2]; simp) hd
  · cases m with
    | nil =>
        simp only [List.append_nil] at hl
        simp only [List.nil_append, List.cons.injEq, true_and] at hm
        exact ⟨hl, hm.symm⟩
    | cons b m =>
        simp only [List.cons_append, List.cons.injEq] at hm
        exact absurd (by rw [hm.2]; simp) hd'

theorem hash_not_mem_toDigits (n : Nat) : '#' ∉ Nat.toDigits 10 n := by
  intro h
  have := Nat.isDigit_of_mem_toDigits (by decide) (by decide) h
  simp at this

theorem toDigits_inj {m n : Nat}
    (h : Nat.toDigits 10 m = Nat.toDigits 10 n) : m = n := by
  have := congrArg (fun l => Nat.ofDigitChars 10 l 0) h
  simpa only [Nat.ofDigitChars_ten_toDigits] using this

theorem getPrefix_append_inj
    {c c' : ObjCategory} {l l' : List Char}
    (h : getPrefix c ++ l = getPrefix c' ++ l') :
    c = c' ∧ l = l' := by
  cases c <;> cases c' <;> simp_all [getPrefix]

/-- **Object names are injective.** -/
theorem objName_inj
    {c c' : ObjCategory} {key key' : Key} {n n' : Nat}
    (h : objName c key n = objName c' key' n') :
    c = c' ∧ key = key' ∧ n = n' := by
  unfold objName getPostfix at h
  rw [List.append_assoc, List.append_assoc] at h
  obtain ⟨hc, h⟩ := getPrefix_append_inj h
  obtain ⟨hkey, hn⟩ := append_cons_inj_of_not_mem
    (hash_not_mem_toDigits n) (hash_not_mem_toDigits n') h
  exact ⟨hc, hkey, toDigits_inj hn⟩

@[simp] theorem objName_inj_num
    (c : ObjCategory) (key : Key) (n n' : Nat) :
    objName c key n = objName c key n' ↔ n = n' :=
  ⟨fun h => (objName_inj h).2.2, fun h => by rw [h]⟩

end Nmfs
