import Nmfs.Lib.ByteStrings
import Nmfs.Lib.Faults

/-!
# A RADOS pool

The calls of `librados::IoCtx` that the client uses, and the pool they act on:
a map from object names to byte strings.  `librados` is not part of the
repository.  What the client relies on, as long as there is no storage error, is
a structure of laws, `Librados`:

* `read` gives the available bytes of the range, or `-ENOENT`;
* `write` creates the object, zero-pads a gap inside it and extends it;
* `trunc` sets the size of an existing object and is a no-op returning 0 on an
  absent one;
* `stat` and `remove` give `-ENOENT` on an absent object.

`Pool.handle` answers so from the pool itself.  A program runs with any
`Librados` as it does with `Pool.handle` (`Librados.run_eq`).  So the lemmas about
programs are about `Pool.handle`, and their results about any `Librados`; a machine
whose state holds a pool takes `Pool.handle`.
-/

namespace Nmfs

/-- A `std::string` used as a key or as an object name. -/
abbrev Key := List Char

/-- A negative return value of a librados call. -/
inductive Errno where
  | ENOENT
  | other (code : Nat)
deriving DecidableEq, Repr

/-- Calls on a `librados::IoCtx`. -/
inductive IoCall where
  | read (oid : Key) (len offset : Nat)
  | write (oid : Key) (data : Bytes) (offset : Nat)
  | trunc (oid : Key) (size : Nat)
  | stat (oid : Key)
  | remove (oid : Key)

/-- What a call gives back when it does not fail. -/
@[reducible] def IoCall.Result : IoCall → Type
  | .read _ _ _ => Bytes
  | .write _ _ _ => Unit
  | .trunc _ _ => Unit
  | .stat _ => Nat
  | .remove _ => Unit

/-- The interface of `librados::IoCtx`. -/
@[reducible] def IoCtx : Interface where
  Call := IoCall
  Reply c := Except Errno c.Result

/-- The objects of a pool. -/
abbrev Pool := Key → Option Bytes

namespace Pool

/-- A pool without objects. -/
def empty : Pool := fun _ => none

/-- Create or replace an object. -/
def put (p : Pool) (oid : Key) (data : Bytes) : Pool :=
  Function.update p oid (some data)

/-- Delete an object. -/
def erase (p : Pool) (oid : Key) : Pool :=
  Function.update p oid none

/-- The pool's answers when no storage error occurs. -/
def handle : Handler IoCtx Pool
  | .read oid len offset, p =>
      match p oid with
      | some b => (.ok (Bytes.slice b offset len), p)
      | none => (.error .ENOENT, p)
  | .write oid data offset, p =>
      (.ok (), p.put oid (Bytes.overwrite ((p oid).getD []) offset data))
  | .trunc oid size, p =>
      match p oid with
      | some b => (.ok (), p.put oid (Bytes.resize b size))
      | none => (.ok (), p)
  | .stat oid, p =>
      match p oid with
      | some b => (.ok b.length, p)
      | none => (.error .ENOENT, p)
  | .remove oid, p =>
      match p oid with
      | some _ => (.ok (), p.erase oid)
      | none => (.error .ENOENT, p)

@[simp] theorem put_self (p : Pool) (oid : Key) (data : Bytes) :
    p.put oid data oid = some data := by
  simp [put]

theorem put_of_ne
    {p : Pool} {oid oid' : Key} (h : oid' ≠ oid) (data : Bytes) :
    p.put oid data oid' = p oid' := by
  simp [put, h]

@[simp] theorem erase_self (p : Pool) (oid : Key) :
    p.erase oid oid = none := by
  simp [erase]

theorem erase_of_ne
    {p : Pool} {oid oid' : Key} (h : oid' ≠ oid) :
    p.erase oid oid' = p oid' := by
  simp [erase, h]

end Pool

/-- `librados`, as the client relies on it: the calls are answered from a state
that holds the objects of a pool. -/
structure Librados (σ : Type) where
  call : Handler IoCtx σ
  objects : σ → Pool
  read : ∀ oid len offset s, Prod.map id objects (call (.read oid len offset) s) =
    match objects s oid with
    | some b => (.ok (Bytes.slice b offset len), objects s)
    | none => (.error .ENOENT, objects s)
  write : ∀ oid data offset s, Prod.map id objects (call (.write oid data offset) s) =
    (.ok (), (objects s).put oid (Bytes.overwrite ((objects s oid).getD []) offset data))
  trunc : ∀ oid size s, Prod.map id objects (call (.trunc oid size) s) =
    match objects s oid with
    | some b => (.ok (), (objects s).put oid (Bytes.resize b size))
    | none => (.ok (), objects s)
  stat : ∀ oid s, Prod.map id objects (call (.stat oid) s) =
    match objects s oid with
    | some b => (.ok b.length, objects s)
    | none => (.error .ENOENT, objects s)
  remove : ∀ oid s, Prod.map id objects (call (.remove oid) s) =
    match objects s oid with
    | some _ => (.ok (), (objects s).erase oid)
    | none => (.error .ENOENT, objects s)

/-- A pool that answers for itself. -/
def Pool.librados : Librados Pool where
  call := Pool.handle
  objects := id
  read _ _ _ _ := rfl
  write _ _ _ _ := rfl
  trunc _ _ _ := rfl
  stat _ _ := rfl
  remove _ _ := rfl

namespace Librados

variable {σ ε α : Type} (L : Librados σ)

theorem call_eq (c : IoCall) (s : σ) :
    Prod.map id L.objects (L.call c s) = Pool.handle c (L.objects s) := by
  cases c with
  | read oid len offset => exact L.read oid len offset s
  | write oid data offset => exact L.write oid data offset s
  | trunc oid size => exact L.trunc oid size s
  | stat oid => exact L.stat oid s
  | remove oid => exact L.remove oid s

/-- Every program runs as it does on the pool. -/
theorem run_eq (q : Prog IoCtx ε α) (s : σ) :
    Prod.map id L.objects (q.run L.call s) = q.run Pool.handle (L.objects s) :=
  Prog.run_view L.call_eq q s

theorem run_objects
    {q : Prog IoCtx ε α} {s s' : σ} {o : Outcome ε α} (hrun : q.run L.call s = (o, s')) :
    q.run Pool.handle (L.objects s) = (o, L.objects s') := by
  rw [← L.run_eq, hrun]
  rfl

theorem run_of_objects
    {q : Prog IoCtx ε α} {s : σ} {o : Outcome ε α} {p' : Pool}
    (hrun : q.run Pool.handle (L.objects s) = (o, p')) :
    ∃ s', q.run L.call s = (o, s') ∧ L.objects s' = p' := by
  rcases heq : q.run L.call s with ⟨o', s'⟩
  have h := L.run_objects heq
  rw [hrun] at h
  cases h
  exact ⟨s', rfl, rfl⟩

theorem safe_iff
    {q : Prog IoCtx ε α} {s : σ} :
    Prog.Safe L.call q s ↔ Prog.Safe Pool.handle q (L.objects s) := by
  unfold Prog.Safe
  rw [← L.run_eq]
  rfl

end Librados

end Nmfs
