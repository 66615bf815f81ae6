import Nmfs.Rados.Pool

/-!
# `rados_io`: byte strings striped over objects

The functions of `lib/rados_io/rados_io.cpp`, as programs over the calls of
`librados::IoCtx`.  A byte string with a category and a key is kept in the
objects `prefix + key + "#0"`, `prefix + key + "#1"`, ..., each of `OBJ_SIZE`
bytes at most.  Its size is stored nowhere: `write` and `truncate` find it by
looking for the last object at or below the offset.

An `off_t` is a natural number here, since no caller passes a negative offset.
Its arithmetic is kept where it can leave the type: `next_bound` is computed
with signed addition, which is undefined behaviour from `2 ^ 63` on.
-/

namespace Nmfs

/-- `OBJ_BITS` -/
def objBits : Nat := 22

/-- `OBJ_SIZE`.  Irreducible, so that no proof counts up to it. -/
@[irreducible] def objSize : Nat := 4194304

theorem objSize_pos : 0 < objSize := by
  simp [objSize]

/-- One more than the largest `off_t`. -/
def offMax : Nat := 2 ^ 63

/-- `cursor >> OBJ_BITS` -/
def objNum (cursor : Nat) : Nat := cursor >>> objBits

/-- `cursor & OBJ_MASK` -/
def objBase (cursor : Nat) : Nat := (cursor >>> objBits) <<< objBits

/-- `cursor & (~OBJ_MASK)` -/
def objOffset (cursor : Nat) : Nat := cursor &&& (objSize - 1)

/-- `next_bound`.  Its signed addition is undefined when the result does not
fit into an `off_t`; the loops below check that. -/
def nextBound (cursor : Nat) : Nat := objBase cursor + objSize

/-- `sub_len` -/
def subLen (cursor stop : Nat) : Nat :=
  min (nextBound cursor - cursor) (stop - cursor)

/-- `off_t stop = offset + len`, computed in `size_t`.  A sum that converts to
a negative `off_t` is below every cursor, like 0. -/
def offStop (offset len : Nat) : Nat :=
  if (offset + len) % 2 ^ 64 < offMax then (offset + len) % 2 ^ 64 else 0

theorem lt_nextBound (cursor : Nat) :
    cursor < nextBound cursor := by
  have h := Nat.lt_div_mul_add (a := cursor) (b := objSize) objSize_pos
  simpa [nextBound, objBase, objBits, objSize, Nat.shiftRight_eq_div_pow,
    Nat.shiftLeft_eq] using h

inductive ObjCategory where
  | INODE
  | DENTRY
  | DATA
  | CLIENT
  | JOURNAL
deriving DecidableEq, Repr

/-- Exceptions thrown by the client's code. -/
inductive Exn where
  /-- `rados_io::no_such_object`; `value` is what had been read before, and
  `num_bytes` its length. -/
  | noSuchObject (value : Bytes)
  | runtimeError (what : String)
  | logicError (what : String)
  /-- `inode::no_entry` -/
  | noEntry (what : String)
  | badAlloc
deriving DecidableEq, Repr

abbrev IoProg := Prog IoCtx Exn

def getPrefix : ObjCategory → Key
  | .INODE => ['i', '$']
  | .DENTRY => ['e', '$']
  | .DATA => ['d', '$']
  | .CLIENT => ['c', '$']
  | .JOURNAL => ['j', '$']

def getPostfix (num : Nat) : Key := '#' :: Nat.toDigits 10 num

/-- `get_prefix(category) + key + get_postfix(num)` -/
def objName (category : ObjCategory) (key : Key) (num : Nat) : Key :=
  getPrefix category ++ key ++ getPostfix num

namespace RadosIo

/-- `room` is the size of the buffer behind `value`. -/
def readObj (key : Key) (room len offset : Nat) : IoProg Bytes :=
  if room < len then
    .fault .undefinedBehaviour
  else
    .call (.read key len offset) fun
      | .ok bl => .ret bl
      | .error .ENOENT => .throw (.noSuchObject [])
      | .error (.other _) =>
          .throw (.runtimeError "rados_io::read_obj() failed")

/-- Writes the first `len` bytes behind `value`. -/
def writeObj (key : Key) (value : Bytes) (len offset : Nat) : IoProg Nat :=
  if value.length < len then
    .fault .undefinedBehaviour
  else
    .call (.write key (value.take len) offset) fun
      | .ok _ => .ret len
      | .error _ => .throw (.runtimeError "rados_io::write_obj() failed")

/-- The loop of `zerofill`. -/
def zerofillLoop (category : ObjCategory) (key : Key) (zeros : Bytes)
    (stop cursor : Nat) : IoProg Unit :=
  if _h : cursor < stop then
    if nextBound cursor < offMax then do
      let _ ← writeObj (objName category key (objNum cursor)) zeros
        (subLen cursor stop) (objOffset cursor)
      zerofillLoop category key zeros stop (nextBound cursor)
    else
      .fault .undefinedBehaviour
  else
    .ret ()
termination_by stop - cursor
decreasing_by
  have := lt_nextBound cursor
  omega

def zerofill (category : ObjCategory) (key : Key) (len offset : Nat) :
    IoProg Unit :=
  zerofillLoop category key (List.replicate (min len objSize) 0)
    (offStop offset len) offset

def truncateObj (key : Key) (cutSize : Nat) : IoProg Unit :=
  .call (.trunc key cutSize) fun
    | .ok _ => .ret ()
    | .error _ => .throw (.runtimeError "rados_io::truncate_obj() failed")

/-- `catch (no_such_object &e)`: the exception gets the bytes read so far. -/
def addNumBytes (value : Bytes) : Exn → IoProg Bytes
  | .noSuchObject _ => .throw (.noSuchObject value)
  | e => .throw e

/-- The loop of `read`; `value` is what has been read so far, so that `sum` is
its length, and `len` is the size of the caller's buffer. -/
def readLoop (category : ObjCategory) (key : Key) (len stop cursor : Nat)
    (value : Bytes) : IoProg Bytes :=
  if _h : cursor < stop then
    if nextBound cursor < offMax then do
      let bl ← Prog.tryCatch
        (readObj (objName category key (objNum cursor)) (len - value.length)
          (subLen cursor stop) (objOffset cursor)) (addNumBytes value)
      readLoop category key len stop (nextBound cursor) (value ++ bl)
    else
      .fault .undefinedBehaviour
  else
    .ret value
termination_by stop - cursor
decreasing_by
  have := lt_nextBound cursor
  omega

/-- Returns the bytes put into the caller's buffer. -/
def read (category : ObjCategory) (key : Key) (len offset : Nat) :
    IoProg Bytes :=
  readLoop category key len (offStop offset len) offset []

/-- One iteration of the search below; `next` is the rest of it. -/
def statPrev (function : String) (category : ObjCategory) (key : Key)
    (prevObjNum : Nat) (next : IoProg (Option Nat)) : IoProg (Option Nat) :=
  .call (.stat (objName category key prevObjNum)) fun
    | .ok size => .ret (some ((prevObjNum <<< objBits) + size))
    | .error .ENOENT => next
    | .error (.other _) =>
        .throw (.runtimeError (function ++ " failed (stat() failed)"))

/-- The search for the last object at or below `prevObjNum`, shared by `write`
and `truncate`: the lower bound of the file size that this object gives, or
`none` when the last `stat` returned `-ENOENT`. -/
def lbFileSize (function : String) (category : ObjCategory) (key : Key) :
    Nat → IoProg (Option Nat)
  | 0 => statPrev function category key 0 (.ret none)
  | k + 1 =>
      statPrev function category key (k + 1)
        (lbFileSize function category key k)

/-- The loop of `write`; `sum` bytes of `value` have been written. -/
def writeLoop (category : ObjCategory) (key : Key) (value : Bytes)
    (stop cursor sum : Nat) : IoProg Nat :=
  if _h : cursor < stop then
    if nextBound cursor < offMax then do
      let n ← writeObj (objName category key (objNum cursor))
        (value.drop sum) (subLen cursor stop) (objOffset cursor)
      writeLoop category key value stop (nextBound cursor) (sum + n)
    else
      .fault .undefinedBehaviour
  else
    .ret sum
termination_by stop - cursor
decreasing_by
  have := lt_nextBound cursor
  omega

/-- The step of `write` that closes the gap behind the lower bound. -/
def fillGap (category : ObjCategory) (key : Key) (lb offset : Nat) :
    IoProg Unit :=
  if lb < offset then zerofill category key (offset - lb) lb else .ret ()

/-- Writes all of `value`, whose length is the argument `len` of the source. -/
def write (category : ObjCategory) (key : Key) (value : Bytes)
    (offset : Nat) : IoProg Nat := do
  let found ← lbFileSize "rados_io::write()" category key (objNum offset)
  -- no object at all means that the size is 0
  fillGap category key (found.getD 0) offset
  writeLoop category key value (offStop offset value.length) offset 0

def exist (category : ObjCategory) (key : Key) : IoProg Bool :=
  .call (.stat (objName category key 0)) fun
    | .ok _ => .ret true
    | .error .ENOENT => .ret false
    | .error (.other _) => .throw (.runtimeError "rados_io::exist() failed")

/-- The loop of `stat`.  `left` counts the values that the `uint64_t` object
number can still take. -/
def statLoop (category : ObjCategory) (key : Key) :
    (left objNum size : Nat) → IoProg (Option Nat)
  | 0, _, _ => .fault .divergence
  | left + 1, objNum, size =>
    .call (.stat (objName category key objNum)) fun
      | .error .ENOENT => .ret (if objNum = 0 then none else some size)
      | .error (.other _) => .throw (.runtimeError "rados_io::stat() failed")
      | .ok n => statLoop category key left (objNum + 1) (size + n)

/-- `none` is the return value `false`, which comes with size 0. -/
def stat (category : ObjCategory) (key : Key) : IoProg (Option Nat) :=
  statLoop category key (2 ^ 64) 0 0

/-- The loop of `remove`. -/
def removeLoop (category : ObjCategory) (key : Key) :
    (left objNum : Nat) → IoProg Unit
  | 0, _ => .fault .divergence
  | left + 1, objNum =>
    .call (.remove (objName category key objNum)) fun
      | .error .ENOENT => .ret ()
      | .error (.other _) => .throw (.runtimeError "rados_io::remove() failed")
      | .ok _ => removeLoop category key left (objNum + 1)

def remove (category : ObjCategory) (key : Key) : IoProg Unit :=
  removeLoop category key (2 ^ 64) 0

/-- The last loop of `truncate`.  The result of `ioctx.remove` is ignored, and
a `stat` that fails otherwise than with `-ENOENT` is passed over. -/
def removeRest (category : ObjCategory) (key : Key) :
    (left objNum : Nat) → IoProg Unit
  | 0, _ => .fault .divergence
  | left + 1, objNum =>
    let objNum := objNum + 1
    .call (.stat (objName category key objNum)) fun
      | .ok _ =>
          .call (.remove (objName category key objNum)) fun _ =>
            removeRest category key left objNum
      | .error .ENOENT => .ret ()
      | .error (.other _) => removeRest category key left objNum

def truncate (category : ObjCategory) (key : Key) (offset : Nat) :
    IoProg Nat := do
  let found ← lbFileSize "rados_io::truncate()" category key (objNum offset)
  match found with
  | none =>
      zerofill category key offset 0
      return 0
  | some lb =>
      if lb < offset then
        zerofill category key (offset - lb) lb
        return 0
      else
        let n := objNum offset
        truncateObj (objName category key n) (offset - (n <<< objBits))
        removeRest category key (2 ^ 64 - 1 - n) n
        return 0

end RadosIo

end Nmfs
