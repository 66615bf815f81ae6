import Nmfs.Lib.ByteStrings

/-!
# Little-endian integers

`leBytes n v` is the number `v` in `n` bytes, the lowest byte first; `leNat`
reads it back.
-/

namespace Nmfs

namespace Bytes

/-- `v` in `n` bytes; what does not fit is cut off. -/
def leBytes : Nat → Nat → Bytes
  | 0, _ => []
  | n + 1, v => UInt8.ofNat v :: leBytes n (v / 256)

def leNat : Bytes → Nat
  | [] => 0
  | b :: bs => b.toNat + 256 * leNat bs

@[simp] theorem length_leBytes (n v : Nat) : (leBytes n v).length = n := by
  induction n generalizing v with
  | zero => rfl
  | succ n ih => simp [leBytes, ih]

theorem leNat_leBytes (n v : Nat) : leNat (leBytes n v) = v % 256 ^ n := by
  induction n generalizing v with
  | zero => simp [leBytes, leNat, Nat.mod_one]
  | succ n ih =>
      rw [leBytes, leNat, ih, Nat.pow_succ', Nat.mod_mul]
      simp

theorem leNat_leBytes_of_lt
    {n v : Nat} (h : v < 256 ^ n) : leNat (leBytes n v) = v := by
  rw [leNat_leBytes, Nat.mod_eq_of_lt h]

theorem leNat_lt (bs : Bytes) : leNat bs < 256 ^ bs.length := by
  induction bs with
  | nil => simp [leNat]
  | cons b bs ih =>
      have hb := b.toNat_lt
      rw [leNat, List.length_cons, Nat.pow_succ']
      omega

/-- The bytes are those of the number that they stand for. -/
theorem leBytes_leNat (bs : Bytes) : leBytes bs.length (leNat bs) = bs := by
  induction bs with
  | nil => rfl
  | cons b bs ih =>
      have hb := b.toNat_lt
      have hdiv : (b.toNat + 256 * leNat bs) / 256 = leNat bs := by omega
      rw [List.length_cons, leNat, leBytes, hdiv, ih, List.cons.injEq]
      refine ⟨?_, rfl⟩
      apply UInt8.toNat_inj.mp
      simp

end Bytes

end Nmfs
