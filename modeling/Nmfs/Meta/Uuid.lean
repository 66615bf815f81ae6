import Nmfs.Rados.Pool

/-!
# Inode numbers

A `boost::uuids::uuid` is sixteen bytes.  `uuid_to_string` prints them in
hexadecimal with four dashes; the result is the key of every metadata object
and of the manager's table, so it has to be injective.
-/

namespace Nmfs

/-- `boost::uuids::uuid` -/
structure Uuid where
  data : Bytes
  size : data.length = 16
deriving DecidableEq

namespace Uuid

theorem ext_data {u v : Uuid} (h : u.data = v.data) : u = v := by
  cases u
  cases v
  simp only at h
  subst h
  rfl

/-- What is copied into an inode number has its size. -/
theorem size_resize (data : Bytes) : (Bytes.resize data 16).length = 16 :=
  Bytes.length_resize _ _

/-- An inode number that repeats one byte. -/
theorem size_sevens : (List.replicate 16 (7 : UInt8)).length = 16 :=
  List.length_replicate

theorem size_nines : (List.replicate 16 (9 : UInt8)).length = 16 :=
  List.length_replicate

/-- `nil_uuid()` -/
def nil : Uuid where
  data := List.replicate 16 0
  size := by simp

/-- `uuid::is_nil` -/
def isNil (u : Uuid) : Bool := u = nil

/-- `get_root_ino` -/
def root : Uuid where
  data := List.replicate 15 0 ++ [1]
  size := by simp

end Uuid

/-- The two hexadecimal digits of a byte. -/
def hexByte (b : UInt8) : Key :=
  [Nat.digitChar (b.toNat / 16), Nat.digitChar (b.toNat % 16)]

def hexBytes (bs : Bytes) : Key := bs.flatMap hexByte

/-- `to_string(uuid)` -/
def uuidToString (id : Uuid) : Key :=
  hexBytes (Bytes.slice id.data 0 4) ++ '-' ::
    (hexBytes (Bytes.slice id.data 4 2) ++ '-' ::
      (hexBytes (Bytes.slice id.data 6 2) ++ '-' ::
        (hexBytes (Bytes.slice id.data 8 2) ++ '-' ::
          hexBytes (Bytes.slice id.data 10 6))))

theorem digitChar_inj
    {m n : Nat} (hm : m < 16) (hn : n < 16)
    (h : Nat.digitChar m = Nat.digitChar n) : m = n := by
  have key : ∀ i < 16, ∀ j < 16, Nat.digitChar i = Nat.digitChar j → i = j := by
    decide
  exact key m hm n hn h

theorem hexByte_inj
    {a b : UInt8} (h : hexByte a = hexByte b) : a = b := by
  have ha := a.toNat_lt
  have hb := b.toNat_lt
  simp only [hexByte, List.cons.injEq, and_true] at h
  have hdiv := digitChar_inj (by omega) (by omega) h.1
  have hmod := digitChar_inj (by omega) (by omega) h.2
  apply UInt8.toNat_inj.mp
  omega

@[simp] theorem length_hexBytes (bs : Bytes) :
    (hexBytes bs).length = 2 * bs.length := by
  induction bs with
  | nil => rfl
  | cons b bs ih =>
      simp only [hexBytes, List.flatMap_cons, List.length_append,
        List.length_cons] at ih ⊢
      rw [ih]
      simp [hexByte]
      omega

theorem hexBytes_inj
    {as bs : Bytes} (h : hexBytes as = hexBytes bs) : as = bs := by
  induction as generalizing bs with
  | nil =>
      have hlen := congrArg List.length h
      rw [length_hexBytes, length_hexBytes] at hlen
      simp only [List.length_nil] at hlen
      exact (List.length_eq_zero_iff.mp (by omega)).symm
  | cons a as ih =>
      cases bs with
      | nil =>
          have hlen := congrArg List.length h
          simp at hlen
      | cons b bs =>
          simp only [hexBytes, List.flatMap_cons] at h
          have hlen : (hexByte a).length = (hexByte b).length := by
            simp [hexByte]
          obtain ⟨hhead, htail⟩ := List.append_inj h hlen
          rw [hexByte_inj hhead, ih htail]

/-- Hexadecimal blocks of one size that are followed by a dash. -/
theorem hexBlock_inj
    {as bs : Bytes} {k l : Key} (hlen : as.length = bs.length)
    (h : hexBytes as ++ '-' :: k = hexBytes bs ++ '-' :: l) :
    as = bs ∧ k = l := by
  obtain ⟨hhead, htail⟩ := List.append_inj h (by simp [hlen])
  exact ⟨hexBytes_inj hhead, (List.cons.inj htail).2⟩

theorem uuidToString_inj
    {u v : Uuid} (h : uuidToString u = uuidToString v) : u = v := by
  have hu := u.size
  have hv := v.size
  obtain ⟨h₁, h⟩ := hexBlock_inj (by simp [hu, hv]) h
  obtain ⟨h₂, h⟩ := hexBlock_inj (by simp [hu, hv]) h
  obtain ⟨h₃, h⟩ := hexBlock_inj (by simp [hu, hv]) h
  obtain ⟨h₄, h⟩ := hexBlock_inj (by simp [hu, hv]) h
  have h₅ := hexBytes_inj h
  have hsplit : ∀ w : Uuid, w.data =
      Bytes.slice w.data 0 4 ++ Bytes.slice w.data 4 2 ++
        Bytes.slice w.data 6 2 ++ Bytes.slice w.data 8 2 ++
        Bytes.slice w.data 10 6 := by
    intro w
    have hw := w.size
    rw [Bytes.slice_append_slice w.data 0 4 2,
      Bytes.slice_append_slice w.data 0 6 2,
      Bytes.slice_append_slice w.data 0 8 2,
      Bytes.slice_append_slice w.data 0 10 6]
    simp [Bytes.slice, List.take_of_length_le, hw]
  apply Uuid.ext_data
  rw [hsplit u, hsplit v, h₁, h₂, h₃, h₄, h₅]

@[simp] theorem uuidToString_eq_iff {u v : Uuid} :
    uuidToString u = uuidToString v ↔ u = v :=
  ⟨uuidToString_inj, fun h => h ▸ rfl⟩

end Nmfs
