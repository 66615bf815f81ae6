import Nmfs.Meta.Inode
import Nmfs.Meta.Dentry

/-!
# Transactions

A `transaction` collects the changes of one directory between two commits: the
inode of the directory itself, the entries that have been added or removed,
and the inodes of the files that have been changed.

Every method first looks at `committed`, and returns -1 if the transaction has
been committed in the meantime; the journal then tries again with the next
transaction.  A method that finds a contradiction throws, and keeps what it has
recorded before.

The order of a `tsl::robin_map` is not specified and may change with every
insertion; see `Reachable.rehash`.
-/

namespace Nmfs

/-- `transaction::self_status` -/
inductive SelfStatus where
  | S_UNCHANGED
  | S_CREATED
  | S_DELETED
deriving DecidableEq, Repr

/-- A file that has been changed, or (`none`) deleted. -/
abbrev FInodes := AList (fun _ : Uuid => Option Inode)

/-- An entry that has been added (`true`) or deleted. -/
abbrev TxDentries := AList (fun _ : Name => Bool × Uuid)

structure Transaction where
  committed : Bool
  /-- the offset in the journal object, once the transaction is committed -/
  offset : Nat
  status : SelfStatus
  sIno : Uuid
  sInode : Option Inode
  dentries : TxDentries
  fInodes : FInodes

/-- What a method returns: 0, -1, or an exception. -/
inductive TxResult where
  | done
  | committed
  | throws (e : Exn)
deriving DecidableEq, Repr

namespace Transaction

/-- The constructor. -/
def new (selfIno : Uuid) : Transaction where
  committed := false
  offset := 0
  status := .S_UNCHANGED
  sIno := selfIno
  sInode := none
  dentries := ∅
  fInodes := ∅

/-- `dentries.insert`, and the assignment behind it. -/
def setDentry (tx : Transaction) (name : Name) (alive : Bool) (ino : Uuid) :
    Transaction :=
  { tx with dentries := tx.dentries.insert name (alive, ino) }

def setFInode (tx : Transaction) (ino : Uuid) (i : Option Inode) :
    Transaction :=
  { tx with fInodes := tx.fInodes.insert ino i }

/-- The last part of the methods that change an entry: only the times of the
directory change, unless its inode has not been recorded yet. -/
def recordSelf (tx : Transaction) (selfInode : Inode) : Transaction :=
  { tx with sInode := some (match tx.sInode with
    | some s =>
        (s.setMtime selfInode.core.mtime).setCtime selfInode.core.ctime
    | none => selfInode.copy) }

/-- The entry has been added or removed in this transaction before. -/
def hasDentry (tx : Transaction) (name : Name) (alive : Bool) : Bool :=
  match tx.dentries.lookup name with
  | some (alive', _) => alive' = alive
  | none => false

section Methods

variable (tx : Transaction)

def mkself (selfInode : Inode) : TxResult × Transaction :=
  if tx.committed then (.committed, tx)
  else
    (.done, { tx with sInode := some selfInode.copy, status := .S_CREATED })

def rmself : TxResult × Transaction :=
  if tx.committed then (.committed, tx)
  else (.done, { tx with status := .S_DELETED })

def chself (selfInode : Inode) : TxResult × Transaction :=
  if tx.committed then (.committed, tx)
  else (.done, { tx with sInode := some selfInode.copy })

def mkdir (selfInode : Inode) (dName : Name) (dIno : Uuid) :
    TxResult × Transaction :=
  if tx.committed then (.committed, tx)
  else if tx.hasDentry dName true then
    (.throws (.logicError
      "transaction::mkdir() failed (directory already exists)"), tx)
  else (.done, (tx.setDentry dName true dIno).recordSelf selfInode)

def rmdir (selfInode : Inode) (dName : Name) (dIno : Uuid) :
    TxResult × Transaction :=
  if tx.committed then (.committed, tx)
  else if tx.hasDentry dName false then
    (.throws (.logicError
      "transaction::rmdir() failed (directory doesn't exist)"), tx)
  else (.done, (tx.setDentry dName false dIno).recordSelf selfInode)

def mvdir (selfInode : Inode) (srcDName : Name) (srcDIno : Uuid)
    (dstDName : Name) (_dstDIno : Uuid) : TxResult × Transaction :=
  if tx.committed then (.committed, tx)
  else if tx.hasDentry srcDName false then
    (.throws (.logicError
      "transaction::mvdir() failed (src directory doesn't exist)"), tx)
  else
    (.done, ((tx.setDentry srcDName false srcDIno).setDentry dstDName true
      srcDIno).recordSelf selfInode)

/-- If the file is recorded already, the entry has been set nevertheless. -/
def mkreg (selfInode : Inode) (fName : Name) (fInode : Inode) :
    TxResult × Transaction :=
  if tx.committed then (.committed, tx)
  else if tx.hasDentry fName true then
    (.throws (.logicError
      "transaction::mkreg() failed (file already exists)"), tx)
  else
    let tx' := (tx.setDentry fName true fInode.core.ino).recordSelf selfInode
    match tx.fInodes.lookup fInode.core.ino with
    | some (some _) =>
        (.throws (.logicError
          "transaction::mkreg() failed (file already exists)"), tx')
    | _ => (.done, tx'.setFInode fInode.core.ino (some fInode.copy))

def rmreg (selfInode : Inode) (fName : Name) (fInode : Inode) :
    TxResult × Transaction :=
  if tx.committed then (.committed, tx)
  else if tx.hasDentry fName false then
    (.throws (.logicError
      "transaction::rmreg() failed (file doesn't exist)"), tx)
  else
    let tx' := (tx.setDentry fName false fInode.core.ino).recordSelf selfInode
    match tx.fInodes.lookup fInode.core.ino with
    | some none =>
        (.throws (.logicError
          "transaction::rmreg() failed (file doesn't exist)"), tx')
    | _ => (.done, tx'.setFInode fInode.core.ino none)

/-- A file that is replaced is marked as deleted. -/
def mvreg (selfInode : Inode) (srcFName : Name) (srcFIno : Uuid)
    (dstFName : Name) (dstFIno : Uuid) : TxResult × Transaction :=
  if tx.committed then (.committed, tx)
  else if tx.hasDentry srcFName false then
    (.throws (.logicError
      "transaction::mvreg() failed (src file doesn't exist)"), tx)
  else
    let tx' := ((tx.setDentry srcFName false srcFIno).setDentry dstFName true
      srcFIno).recordSelf selfInode
    (.done, if dstFIno.isNil then tx' else tx'.setFInode dstFIno none)

def chreg (fInode : Inode) : TxResult × Transaction :=
  if tx.committed then (.committed, tx)
  else (.done, tx.setFInode fInode.core.ino (some fInode.copy))

end Methods

end Transaction

/-- A call of a method, with its arguments. -/
inductive TxOp where
  | mkself (selfInode : Inode)
  | rmself
  | chself (selfInode : Inode)
  | mkdir (selfInode : Inode) (dName : Name) (dIno : Uuid)
  | rmdir (selfInode : Inode) (dName : Name) (dIno : Uuid)
  | mvdir (selfInode : Inode) (srcDName : Name) (srcDIno : Uuid)
      (dstDName : Name) (dstDIno : Uuid)
  | mkreg (selfInode : Inode) (fName : Name) (fInode : Inode)
  | rmreg (selfInode : Inode) (fName : Name) (fInode : Inode)
  | mvreg (selfInode : Inode) (srcFName : Name) (srcFIno : Uuid)
      (dstFName : Name) (dstFIno : Uuid)
  | chreg (fInode : Inode)

namespace TxOp

def apply (tx : Transaction) : TxOp → TxResult × Transaction
  | .mkself selfInode => tx.mkself selfInode
  | .rmself => tx.rmself
  | .chself selfInode => tx.chself selfInode
  | .mkdir selfInode dName dIno => tx.mkdir selfInode dName dIno
  | .rmdir selfInode dName dIno => tx.rmdir selfInode dName dIno
  | .mvdir selfInode srcDName srcDIno dstDName dstDIno =>
      tx.mvdir selfInode srcDName srcDIno dstDName dstDIno
  | .mkreg selfInode fName fInode => tx.mkreg selfInode fName fInode
  | .rmreg selfInode fName fInode => tx.rmreg selfInode fName fInode
  | .mvreg selfInode srcFName srcFIno dstFName dstFIno =>
      tx.mvreg selfInode srcFName srcFIno dstFName dstFIno
  | .chreg fInode => tx.chreg fInode

/-- Some methods, one after the other. -/
def applyAll (tx : Transaction) : List TxOp → Transaction
  | [] => tx
  | op :: ops => applyAll (op.apply tx).2 ops

/-- The inode of the directory that a method is given. -/
def selfInode? : TxOp → Option Inode
  | .mkself selfInode | .chself selfInode | .mkdir selfInode _ _
  | .rmdir selfInode _ _ | .mvdir selfInode _ _ _ _ | .mkreg selfInode _ _
  | .rmreg selfInode _ _ | .mvreg selfInode _ _ _ _ => some selfInode
  | .rmself | .chreg _ => none

end TxOp

namespace Inode

/-- The inode of a directory, as the constructors make it. -/
def IsDirectory (i : Inode) : Prop :=
  i.core.isDir = true ∧ i.core.linkTargetLen = 0

end Inode

namespace Transaction

/-- What the methods make of a new transaction. -/
inductive Reachable : Transaction → Prop
  | new (selfIno : Uuid) : Reachable (.new selfIno)
  | apply {tx : Transaction} (op : TxOp) (h : Reachable tx)
      (hself : ∀ s, op.selfInode? = some s → s.IsDirectory) :
      Reachable (op.apply tx).2
  | rehash {tx : Transaction} (dentries : TxDentries) (fInodes : FInodes)
      (h : Reachable tx) (hd : tx.dentries.entries.Perm dentries.entries)
      (hf : tx.fInodes.entries.Perm fInodes.entries) :
      Reachable { tx with dentries := dentries, fInodes := fInodes }

section Fields

variable (tx : Transaction) (name : Name) (alive : Bool) (ino : Uuid)
  (i : Option Inode) (selfInode : Inode)

@[simp] theorem setDentry_fInodes :
    (tx.setDentry name alive ino).fInodes = tx.fInodes := rfl

@[simp] theorem setDentry_sInode :
    (tx.setDentry name alive ino).sInode = tx.sInode := rfl

@[simp] theorem setDentry_lookup :
    (tx.setDentry name alive ino).dentries.lookup name = some (alive, ino) :=
  AList.lookup_insert _

theorem setDentry_lookup_ne {name' : Name} (h : name' ≠ name) :
    (tx.setDentry name alive ino).dentries.lookup name' =
      tx.dentries.lookup name' :=
  AList.lookup_insert_ne h

@[simp] theorem setFInode_dentries :
    (tx.setFInode ino i).dentries = tx.dentries := rfl

@[simp] theorem setFInode_sInode :
    (tx.setFInode ino i).sInode = tx.sInode := rfl

@[simp] theorem setFInode_lookup :
    (tx.setFInode ino i).fInodes.lookup ino = some i :=
  AList.lookup_insert _

theorem setFInode_lookup_ne {ino' : Uuid} (h : ino' ≠ ino) :
    (tx.setFInode ino i).fInodes.lookup ino' = tx.fInodes.lookup ino' :=
  AList.lookup_insert_ne h

@[simp] theorem recordSelf_dentries :
    (tx.recordSelf selfInode).dentries = tx.dentries := rfl

@[simp] theorem recordSelf_fInodes :
    (tx.recordSelf selfInode).fInodes = tx.fInodes := rfl

end Fields

/-- The files are recorded under their inode numbers, and the inode of the
directory is one of a directory. -/
structure Sound (tx : Transaction) : Prop where
  files : ∀ ino i, tx.fInodes.lookup ino = some (some i) → i.core.ino = ino
  self : ∀ s, tx.sInode = some s → s.IsDirectory

section Sound

variable {tx : Transaction}

theorem Sound.setDentry (h : tx.Sound) (name : Name) (alive : Bool) (ino : Uuid) :
    (tx.setDentry name alive ino).Sound :=
  ⟨h.files, h.self⟩

theorem Sound.recordSelf
    (h : tx.Sound) {selfInode : Inode} (hself : selfInode.IsDirectory) :
    (tx.recordSelf selfInode).Sound where
  files := h.files
  self := by
    intro s hs
    simp only [Transaction.recordSelf, Option.some.injEq] at hs
    subst hs
    split
    · rename_i s hs
      exact h.self s hs
    · exact hself

theorem Sound.setFInode
    (h : tx.Sound) {ino : Uuid} {fi : Option Inode}
    (hi : ∀ i, fi = some i → i.core.ino = ino) : (tx.setFInode ino fi).Sound where
  files := by
    intro ino' i hi'
    by_cases hne : ino' = ino
    · subst hne
      rw [setFInode_lookup] at hi'
      exact hi i (Option.some.inj hi')
    · rw [setFInode_lookup_ne _ _ _ hne] at hi'
      exact h.files ino' i hi'
  self := h.self

theorem Sound.apply
    (h : tx.Sound) (op : TxOp)
    (hself : ∀ s, op.selfInode? = some s → s.IsDirectory) :
    (op.apply tx).2.Sound := by
  cases op with
  | mkself s =>
      simp only [TxOp.apply, mkself]
      split
      · exact h
      · refine ⟨h.files, ?_⟩
        rintro s' hs
        cases hs
        exact hself s rfl
  | rmself =>
      simp only [TxOp.apply, rmself]
      split
      · exact h
      · exact ⟨h.files, h.self⟩
  | chself s =>
      simp only [TxOp.apply, chself]
      split
      · exact h
      · refine ⟨h.files, ?_⟩
        rintro s' hs
        cases hs
        exact hself s rfl
  | mkdir s name ino =>
      simp only [TxOp.apply, mkdir]
      split
      · exact h
      · split
        · exact h
        · exact (h.setDentry name true ino).recordSelf (hself s rfl)
  | rmdir s name ino =>
      simp only [TxOp.apply, rmdir]
      split
      · exact h
      · split
        · exact h
        · exact (h.setDentry name false ino).recordSelf (hself s rfl)
  | mvdir s src srcIno dst dstIno =>
      simp only [TxOp.apply, mvdir]
      split
      · exact h
      · split
        · exact h
        · exact ((h.setDentry src false srcIno).setDentry dst true
            srcIno).recordSelf (hself s rfl)
  | mkreg s name f =>
      have hset := (h.setDentry name true f.core.ino).recordSelf (hself s rfl)
      simp only [TxOp.apply, mkreg]
      split
      · exact h
      · split
        · exact h
        · split
          · exact hset
          · exact hset.setFInode (by rintro i ⟨⟩; rfl)
  | rmreg s name f =>
      have hset := (h.setDentry name false f.core.ino).recordSelf (hself s rfl)
      simp only [TxOp.apply, rmreg]
      split
      · exact h
      · split
        · exact h
        · split
          · exact hset
          · exact hset.setFInode (by simp)
  | mvreg s src srcIno dst dstIno =>
      have hset := ((h.setDentry src false srcIno).setDentry dst true
        srcIno).recordSelf (hself s rfl)
      simp only [TxOp.apply, mvreg]
      split
      · exact h
      · split
        · exact h
        · split
          · exact hset
          · exact hset.setFInode (by simp)
  | chreg f =>
      simp only [TxOp.apply, chreg]
      split
      · exact h
      · exact h.setFInode (by rintro i ⟨⟩; rfl)

theorem Reachable.sound (h : Reachable tx) : tx.Sound := by
  induction h with
  | new selfIno => exact ⟨by simp [Transaction.new], by simp [Transaction.new]⟩
  | apply op h hself ih => exact ih.apply op hself
  | rehash dentries fInodes h hd hf ih =>
      refine ⟨?_, ih.self⟩
      intro ino i hi
      exact ih.files ino i ((AList.perm_lookup hf).trans hi)

end Sound

end Transaction

end Nmfs
