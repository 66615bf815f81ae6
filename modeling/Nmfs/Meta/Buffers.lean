import Nmfs.Lib.LittleEndian
import Nmfs.Rados.RadosIo

/-!
# Reading from a buffer

The decoders of the client walk through a buffer with an index.  The lemmas
are stated for what lies behind the index, so that a decoder is followed
through an encoding one part after the other.
-/

namespace Nmfs

namespace Buffer

open Bytes

/-- The bytes `raw[index]`, `raw[index + 1]`, ...; it is undefined behaviour to
read behind the end of the vector. -/
def bytesAt (raw : Bytes) (index n : Nat) : IoProg Bytes :=
  if index + n ≤ raw.length then .ret (slice raw index n)
  else .fault .undefinedBehaviour

/-- The signed integer in four bytes. -/
def int32 (bs : Bytes) : Int :=
  if leNat bs < 2 ^ 31 then leNat bs else leNat bs - 2 ^ 32

def int32At (raw : Bytes) (index : Nat) : IoProg Int := do
  let bs ← bytesAt raw index 4
  return int32 bs

/-- `std::string(&raw[index], size)`: a negative size becomes a huge one. -/
def stringAt (raw : Bytes) (index : Nat) (size : Int) : IoProg Bytes :=
  if size < 0 then .throw (.logicError "basic_string::_M_create")
  else bytesAt raw index size.toNat

/-- The size -1. -/
def endMark : Bytes := List.replicate 4 255

section Positions

variable {raw b c : Bytes} {index n : Nat}

/-- What lies at an index, and what lies behind it. -/
theorem drop_add_of_drop
    (h : raw.drop index = b ++ c) (hn : b.length = n) :
    raw.drop (index + n) = c := by
  rw [← List.drop_drop, h, List.drop_left' hn]

theorem bytesAt_of_drop
    (h : raw.drop index = b ++ c) (hpos : 0 < (b ++ c).length)
    (hn : b.length = n) : bytesAt raw index n = .ret b := by
  have hlen := congrArg List.length h
  rw [List.length_drop] at hlen
  rw [List.length_append] at hlen hpos
  rw [bytesAt, if_pos (by omega), slice, h, List.take_left' hn]

/-- Nothing is read behind the end. -/
theorem le_of_run_bytesAt
    {p p' : Pool} (hrun : (bytesAt raw index n).run Pool.handle p = (.ok b, p')) :
    index + n ≤ raw.length := by
  rw [bytesAt] at hrun
  split at hrun
  · assumption
  · cases hrun

theorem int32_leBytes (hn : n < 2 ^ 31) : int32 (leBytes 4 n) = n := by
  rw [int32, leNat_leBytes_of_lt (by omega), if_pos hn]

theorem int32_lt {bs : Bytes} (h : bs.length = 4) : int32 bs < 2 ^ 31 := by
  have hlt := leNat_lt bs
  rw [h] at hlt
  unfold int32
  split <;> omega

theorem int32At_of_drop
    (h : raw.drop index = leBytes 4 n ++ c) (hn : n < 2 ^ 31) :
    int32At raw index = .ret (n : Int) := by
  have hpos : 0 < (leBytes 4 n ++ c).length := by
    rw [List.length_append, length_leBytes]
    omega
  rw [int32At, bytesAt_of_drop h hpos (length_leBytes 4 n), Prog.ret_bind,
    int32_leBytes hn, Prog.pure_eq_ret]

theorem int32At_endMark
    (h : raw.drop index = endMark ++ c) : int32At raw index = .ret (-1) := by
  rw [int32At, bytesAt_of_drop h (by simp [endMark]) (by simp [endMark]),
    Prog.ret_bind]
  rfl

theorem stringAt_of_drop
    (h : raw.drop index = b ++ c) (hpos : 0 < (b ++ c).length) :
    stringAt raw index (b.length : Int) = .ret b := by
  rw [stringAt, if_neg (by omega), Int.toNat_natCast,
    bytesAt_of_drop h hpos rfl]

end Positions

end Buffer

end Nmfs
