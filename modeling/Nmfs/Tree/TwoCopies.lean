import Nmfs.Journal.Replay
import Nmfs.Rpc.Attributes
import Nmfs.Rpc.CrossRename
import Nmfs.Tree.ChildMaps
import Nmfs.Tree.Growth

/-!
# The two copies of a directory's inode

A directory that a client has loaded from the store exists there twice: its own
table has an inode of it, and the table of its parent another one, among the
children.  `chmod`, `chown`, `utimens` and what happens in the directory change
the first; a rename takes the second and has the journal write it.

The two write one INODE object, by transactions of different directories.  As
long as they agree at the rename, the object ends with the attributes of the
directory, in whatever order the transactions are checkpointed
(`renamed_keeps_attributes`).
-/

namespace Nmfs

namespace TxOp

/-- The inode of a file that a method records. -/
def fInode? : TxOp → Option Inode
  | .mkreg _ _ fInode | .chreg fInode => some fInode
  | .mkself _ | .rmself | .chself _ | .mkdir _ _ _ | .rmdir _ _ _
  | .mvdir _ _ _ _ _ | .rmreg _ _ _ | .mvreg _ _ _ _ _ => none

section Effects

open Transaction

variable {op : TxOp} {tx : Transaction}

theorem setFInode_cases
    {ino : Uuid} {fi : Option Inode} {ino' : Uuid} {i : Inode}
    (h : (tx.setFInode ino fi).fInodes.lookup ino' = some (some i)) :
    tx.fInodes.lookup ino' = some (some i) ∨ (ino' = ino ∧ fi = some i) := by
  by_cases hne : ino' = ino
  · subst hne
    rw [setFInode_lookup] at h
    exact .inr ⟨rfl, Option.some.inj h⟩
  · rw [setFInode_lookup_ne _ _ _ hne] at h
    exact .inl h

/-- A recorded file has been recorded before, or is the one of the call. -/
theorem apply_fInodes
    {ino : Uuid} {i : Inode}
    (h : (op.apply tx).2.fInodes.lookup ino = some (some i)) :
    tx.fInodes.lookup ino = some (some i) ∨
      ∃ f, op.fInode? = some f ∧ ino = f.core.ino ∧ i = f.copy := by
  revert h
  cases op with
  | mkself s | chself s | rmself | mkdir s n ino' | rmdir s n ino'
  | mvdir s n ino' n' ino'' =>
      simp only [apply, Transaction.mkself, Transaction.chself,
        Transaction.rmself, Transaction.mkdir, Transaction.rmdir,
        Transaction.mvdir]
      repeat' split
      all_goals exact Or.inl
  | mkreg s n f =>
      simp only [apply, Transaction.mkreg]
      repeat' split
      · exact Or.inl
      · exact Or.inl
      · exact Or.inl
      · intro h
        rcases setFInode_cases h with h' | ⟨hino, hi⟩
        · exact .inl h'
        · exact .inr ⟨f, rfl, hino, (Option.some.inj hi).symm⟩
  | rmreg s n f =>
      simp only [apply, Transaction.rmreg]
      repeat' split
      · exact Or.inl
      · exact Or.inl
      · exact Or.inl
      · intro h
        rcases setFInode_cases h with h' | ⟨-, hi⟩
        · exact .inl h'
        · cases hi
  | mvreg s n ino' n' ino'' =>
      simp only [apply, Transaction.mvreg]
      repeat' split
      · exact Or.inl
      · exact Or.inl
      · exact Or.inl
      · intro h
        rcases setFInode_cases h with h' | ⟨-, hi⟩
        · exact .inl h'
        · cases hi
  | chreg f =>
      simp only [apply, Transaction.chreg]
      split
      · exact Or.inl
      · intro h
        rcases setFInode_cases h with h' | ⟨hino, hi⟩
        · exact .inl h'
        · exact .inr ⟨f, rfl, hino, (Option.some.inj hi).symm⟩

/-- The inode `s'` is that of the directory, as a call that is given `s` leaves
it: a copy, or only the times are taken over. -/
inductive Recorded (old : Option Inode) (s : Inode) : Inode → Prop
  | copy : Recorded old s s.copy
  | times {s₀ : Inode} (h : old = some s₀) :
      Recorded old s ((s₀.setMtime s.core.mtime).setCtime s.core.ctime)

theorem recorded_recordSelf (tx : Transaction) (s : Inode) :
    ∃ s', (tx.recordSelf s).sInode = some s' ∧ Recorded tx.sInode s s' := by
  unfold Transaction.recordSelf
  cases h : tx.sInode with
  | none => exact ⟨_, rfl, .copy⟩
  | some s₀ => exact ⟨_, rfl, .times rfl⟩

/-- What a call does to the inode of the directory.  If it is done, it has
taken the inode that it is given. -/
theorem apply_sInode (op : TxOp) (tx : Transaction) :
    ((op.apply tx).2.sInode = tx.sInode ∧
      ((op.apply tx).1 = .done → op.selfInode? = none)) ∨
      ∃ s s', op.selfInode? = some s ∧ (op.apply tx).2.sInode = some s' ∧
        Recorded tx.sInode s s' := by
  have hrecord : ∀ (tx' : Transaction) (s : Inode), tx'.sInode = tx.sInode →
      ∃ s', (tx'.recordSelf s).sInode = some s' ∧ Recorded tx.sInode s s' := by
    intro tx' s h
    rw [← h]
    exact recorded_recordSelf tx' s
  cases op with
  | rmself =>
      simp only [apply, Transaction.rmself]
      split <;> exact .inl ⟨rfl, fun _ => rfl⟩
  | chreg f =>
      simp only [apply, Transaction.chreg]
      split <;> exact .inl ⟨rfl, fun _ => rfl⟩
  | mkself s =>
      simp only [apply, Transaction.mkself]
      split
      · exact .inl ⟨rfl, by rintro ⟨⟩⟩
      · exact .inr ⟨s, _, rfl, rfl, .copy⟩
  | chself s =>
      simp only [apply, Transaction.chself]
      split
      · exact .inl ⟨rfl, by rintro ⟨⟩⟩
      · exact .inr ⟨s, _, rfl, rfl, .copy⟩
  | mkdir s n ino =>
      simp only [apply, Transaction.mkdir]
      repeat' split
      · exact .inl ⟨rfl, by rintro ⟨⟩⟩
      · exact .inl ⟨rfl, by rintro ⟨⟩⟩
      · obtain ⟨s', hs', hrec⟩ := hrecord (tx.setDentry n true ino) s rfl
        exact .inr ⟨s, s', rfl, hs', hrec⟩
  | rmdir s n ino =>
      simp only [apply, Transaction.rmdir]
      repeat' split
      · exact .inl ⟨rfl, by rintro ⟨⟩⟩
      · exact .inl ⟨rfl, by rintro ⟨⟩⟩
      · obtain ⟨s', hs', hrec⟩ := hrecord (tx.setDentry n false ino) s rfl
        exact .inr ⟨s, s', rfl, hs', hrec⟩
  | mvdir s n ino n' ino' =>
      simp only [apply, Transaction.mvdir]
      repeat' split
      · exact .inl ⟨rfl, by rintro ⟨⟩⟩
      · exact .inl ⟨rfl, by rintro ⟨⟩⟩
      · obtain ⟨s', hs', hrec⟩ := hrecord
          ((tx.setDentry n false ino).setDentry n' true ino) s rfl
        exact .inr ⟨s, s', rfl, hs', hrec⟩
  | mkreg s n f =>
      simp only [apply, Transaction.mkreg]
      obtain ⟨s', hs', hrec⟩ := hrecord (tx.setDentry n true f.core.ino) s rfl
      repeat' split
      · exact .inl ⟨rfl, by rintro ⟨⟩⟩
      · exact .inl ⟨rfl, by rintro ⟨⟩⟩
      · exact .inr ⟨s, s', rfl, hs', hrec⟩
      · exact .inr ⟨s, s', rfl, hs', hrec⟩
  | rmreg s n f =>
      simp only [apply, Transaction.rmreg]
      obtain ⟨s', hs', hrec⟩ := hrecord (tx.setDentry n false f.core.ino) s rfl
      repeat' split
      · exact .inl ⟨rfl, by rintro ⟨⟩⟩
      · exact .inl ⟨rfl, by rintro ⟨⟩⟩
      · exact .inr ⟨s, s', rfl, hs', hrec⟩
      · exact .inr ⟨s, s', rfl, hs', hrec⟩
  | mvreg s n ino n' ino' =>
      simp only [apply, Transaction.mvreg]
      obtain ⟨s', hs', hrec⟩ := hrecord
        ((tx.setDentry n false ino).setDentry n' true ino) s rfl
      repeat' split
      · exact .inl ⟨rfl, by rintro ⟨⟩⟩
      · exact .inl ⟨rfl, by rintro ⟨⟩⟩
      · exact .inr ⟨s, s', rfl, hs', hrec⟩
      · exact .inr ⟨s, s', rfl, hs', hrec⟩

end Effects

end TxOp

namespace Transaction

/-- What a transaction may write to the INODE object of `d`: its own directory's
transaction the inode that it has recorded, those of other directories only a
core that is `ok`. -/
structure Spares (d : Uuid) (ok : Core → Prop) (tx : Transaction) : Prop where
  files : ∀ ino i, tx.fInodes.lookup ino = some (some i) → i.core.ino = ino
  own : tx.sIno = d → tx.status ≠ .S_DELETED ∧
    (∀ s, tx.sInode = some s → s.core.ino = d) ∧
    ∀ i, tx.fInodes.lookup d ≠ some (some i)
  other : tx.sIno ≠ d → (∀ s, tx.sInode = some s → s.core.ino ≠ d) ∧
    ∀ i, tx.fInodes.lookup d = some (some i) → ok i.core

end Transaction

namespace TxOp

/-- A call for the directory `ino` that writes nothing else either. -/
structure Suits (d : Uuid) (ok : Core → Prop) (ino : Uuid) (op : TxOp) :
    Prop where
  own : ino = d → op ≠ .rmself ∧
    (∀ s, op.selfInode? = some s → s.core.ino = d) ∧
    ∀ f, op.fInode? = some f → f.core.ino ≠ d
  other : ino ≠ d → (∀ s, op.selfInode? = some s → s.core.ino ≠ d) ∧
    ∀ f, op.fInode? = some f → f.core.ino = d → ok f.core

end TxOp

section Spares

open Transaction TxOp

variable {d : Uuid} {ok ok' : Core → Prop} {tx : Transaction}

theorem Transaction.Spares.new (ino : Uuid) : Spares d ok (.new ino) where
  files := by simp [Transaction.new]
  own := fun _ => ⟨nofun, nofun, by simp [Transaction.new]⟩
  other := fun _ => ⟨nofun, by simp [Transaction.new]⟩

theorem Transaction.Spares.mono (h : Spares d ok tx) (hok : ∀ c, ok c → ok' c) :
    Spares d ok' tx :=
  ⟨h.files, h.own, fun hne => ⟨(h.other hne).1,
    fun i hi => hok _ ((h.other hne).2 i hi)⟩⟩

theorem TxOp.Recorded.core_ino
    {old : Option Inode} {s s' : Inode} (h : Recorded old s s') :
    s'.core.ino = s.core.ino ∨ ∃ s₀, old = some s₀ ∧ s'.core.ino = s₀.core.ino := by
  cases h with
  | copy => exact .inl rfl
  | times h => exact .inr ⟨_, h, rfl⟩

theorem Transaction.Spares.apply
    (h : Spares d ok tx) {op : TxOp} (hop : Suits d ok tx.sIno op) :
    Spares d ok (op.apply tx).2 where
  files := by
    intro ino i hi
    rcases apply_fInodes hi with hi' | ⟨f, -, hino, rfl⟩
    · exact h.files ino i hi'
    · exact hino.symm
  own := by
    intro hd
    rw [(op.apply_frame tx).1] at hd
    obtain ⟨hdel, hself, hfile⟩ := h.own hd
    obtain ⟨hne, hself', hfile'⟩ := hop.own hd
    refine ⟨fun hstatus => hdel (apply_deleted hne hstatus), ?_, ?_⟩
    · intro s hs
      rcases apply_sInode op tx with ⟨hsame, -⟩ | ⟨s₁, s₂, hs₁, hs₂, hrec⟩
      · exact hself s (hsame ▸ hs)
      · rw [hs₂] at hs
        cases hs
        rcases hrec.core_ino with hino | ⟨s₀, hs₀, hino⟩
        · rw [hino]
          exact hself' s₁ hs₁
        · rw [hino]
          exact hself s₀ hs₀
    · intro i hi
      rcases apply_fInodes hi with hi' | ⟨f, hf, hino, -⟩
      · exact hfile i hi'
      · exact hfile' f hf hino.symm
  other := by
    intro hd
    rw [(op.apply_frame tx).1] at hd
    obtain ⟨hself, hfile⟩ := h.other hd
    obtain ⟨hself', hfile'⟩ := hop.other hd
    constructor
    · intro s hs
      rcases apply_sInode op tx with ⟨hsame, -⟩ | ⟨s₁, s₂, hs₁, hs₂, hrec⟩
      · exact hself s (hsame ▸ hs)
      · rw [hs₂] at hs
        cases hs
        rcases hrec.core_ino with hino | ⟨s₀, hs₀, hino⟩
        · rw [hino]
          exact hself' s₁ hs₁
        · rw [hino]
          exact hself s₀ hs₀
    · intro i hi
      rcases apply_fInodes hi with hi' | ⟨f, hf, hino, rfl⟩
      · exact hfile i hi'
      · exact hfile' f hf hino.symm

/-- All current transactions fit. -/
def Journal.Spares (d : Uuid) (ok : Core → Prop) (j : Journal) : Prop :=
  ∀ ino, Transaction.Spares d ok (j.getEntry ino)

theorem Journal.Spares.call
    {j : Journal} (h : j.Spares d ok) {ino : Uuid} {op : TxOp}
    (hop : Suits d ok ino op) : (j.call ino op).2.Spares d ok := by
  intro ino'
  by_cases hne : ino' = ino
  · subst hne
    rw [Journal.call_getEntry]
    exact (h ino').apply (by rwa [(j.getEntry_owner ino').1])
  · rw [Journal.call_getEntry_ne _ _ _ hne]
    exact h ino'

/-- What it does to the INODE object of `d`. -/
theorem Transaction.Spares.inodeWrite_own (h : Spares d ok tx) (hd : tx.sIno = d) :
    tx.inodeWrite d = tx.sInode.map some := by
  obtain ⟨-, hself, hfile⟩ := h.own hd
  unfold Transaction.inodeWrite
  rcases hl : tx.fInodes.lookup d with _ | _ | i
  · cases hs : tx.sInode with
    | none => rfl
    | some s => exact if_pos (hself s hs)
  · cases hs : tx.sInode with
    | none => rfl
    | some s => exact if_pos (hself s hs)
  · exact absurd hl (hfile i)

theorem Transaction.Spares.inodeWrite_other
    (h : Spares d ok tx) (hd : tx.sIno ≠ d) :
    tx.inodeWrite d = none ∨
      ∃ i, tx.inodeWrite d = some (some i) ∧ ok i.core := by
  obtain ⟨hself, hfile⟩ := h.other hd
  unfold Transaction.inodeWrite
  rcases hl : tx.fInodes.lookup d with _ | _ | i
  · cases hs : tx.sInode with
    | none => exact .inl rfl
    | some s => exact .inl (if_neg (hself s hs))
  · cases hs : tx.sInode with
    | none => exact .inl rfl
    | some s => exact .inl (if_neg (hself s hs))
  · exact .inr ⟨i, rfl, hfile i hl⟩

end Spares

/-- The commit of one transaction: `commit::operator()` goes through the map
that it has taken. -/
def Journal.commitEntry (j : Journal) (ino : Uuid) : Journal where
  map := j.map.erase ino
  log := j.log ++ ((j.map.lookup ino).map fun tx =>
    { tx with committed := true }).toList
  owner := j.owner_erase ino

/-- A client that has loaded a directory, the directory that lists it, and
another one.  `queues` has the transactions that have been committed and not yet
checkpointed. -/
structure LoadedDir where
  own : DentryTable
  src : DentryTable
  dst : DentryTable
  client : Client
  queues : Uuid → List Transaction
  store : MetaStore
  data : Pool
  renamed : Bool

namespace LoadedDir

open Directory DentryTable Nmfs.Path

/-- What happens at the client; the environment chooses the arguments, the clock
and the inode numbers. -/
inductive Act where
  | attr (op : AttrOp) (clock : Timespec × Timespec)
  | create (r : Request)
  | mkdir (r : Request)
  | symlink (r : Request)
  | unlink (child : Name) (ts : Timespec)
  | rmdirTop (target : DentryTable)
  | rmdirDown (targetIno : Uuid) (child : Name) (ts : Timespec)
  | renameSame (oldPath newPath : Bytes) (flags : UInt32) (ts : Timespec)
  | renameAcross (newName : Name) (flags : UInt32)
  | commit (ino : Uuid)
  | checkpoint (ino : Uuid)

/-- A table of the client as the operations see it. -/
def directory (s : LoadedDir) (t : DentryTable) : Directory :=
  ⟨t, s.client.journal, s.client.uid, s.client.gid⟩

def setJournal (s : LoadedDir) (j : Journal) : LoadedDir :=
  { s with client := { s.client with journal := j } }

/-- An operation in the directory has returned; an exception other than for a
missing entry would end the client, and that one changes nothing. -/
def returned (s : LoadedDir) : Reply × Directory → Option LoadedDir
  | (.ret _, x) => some { s.setJournal x.journal with own := x.table }
  | (.throws _, _) => none

/-- FUSE passes no mode that makes a directory something else. -/
def changedAttr (s : LoadedDir) : AttrResult → Option LoadedDir
  | (.ok _, x) =>
      if x.dir.table.thisDirInode.core.isDir then
        some { s.setJournal x.dir.journal with
          own := x.dir.table
          data := x.data }
      else none
  | _ => none

/-- The rename of the entry `name` to a name of the same directory. -/
def renamedSame (s : LoadedDir) (name : Name) (oldPath newPath : Bytes)
    (flags : UInt32) (ts : Timespec) : Option LoadedDir :=
  if getFilenameFromPath oldPath = .ok name then
    match (s.directory s.src).localRenameSameParent oldPath newPath flags ts with
    | (.ret 0, x) =>
        some { s.setJournal x.journal with
          src := x.table
          renamed := true }
    | _ => none
  else none

/-- The rename of the entry `name` to a name of the other directory. -/
def renamedAcross (s : LoadedDir) (name newName : Name) (flags : UInt32) :
    Option LoadedDir :=
  match Parents.rename ⟨s.src, s.dst, fun _ => s.client⟩ 0 0 0 name newName
      flags with
  | ⟨.ret 0, _, p⟩ =>
      some { s with
        src := p.src
        dst := p.dst
        client := p.clients 0
        renamed := true }
  | _ => none

def commit (s : LoadedDir) (ino : Uuid) : Option LoadedDir :=
  (s.client.journal.map.lookup ino).map fun tx =>
    { s.setJournal (s.client.journal.commitEntry ino) with
      queues := Function.update s.queues ino
        (s.queues ino ++ [{ tx with committed := true }]) }

/-- The transactions of a directory are checkpointed in order. -/
def checkpoint (s : LoadedDir) (ino : Uuid) : Option LoadedDir :=
  match s.queues ino with
  | [] => none
  | tx :: rest =>
      match s.store.sync tx with
      | .ok m => some { s with
          store := m
          queues := Function.update s.queues ino rest }
      | .error _ => none

/-- The directory `d` is listed as `name`.  Operations come before its rename;
they allocate no inode number twice, and remove no directory but their target. -/
def step (d : Uuid) (name : Name) : Stepper LoadedDir Act := fun s a =>
  match a with
  | .commit ino => s.commit ino
  | .checkpoint ino => s.checkpoint ino
  | .attr op clock =>
      if s.renamed then none
      else s.changedAttr (op.atLeader .self clock ⟨s.directory s.own, s.data⟩)
  | .create r =>
      if s.renamed ∨ r.newIno = d then none
      else s.returned ((s.directory s.own).localCreate r)
  | .mkdir r =>
      if s.renamed ∨ r.newIno = d then none
      else s.returned ((s.directory s.own).localMkdir r)
  | .symlink r =>
      if s.renamed ∨ r.newIno = d then none
      else s.returned ((s.directory s.own).localSymlink r)
  | .unlink child ts =>
      if s.renamed then none
      else s.returned ((s.directory s.own).localUnlink child ts)
  | .rmdirTop target =>
      if s.renamed ∨ target.dirIno = d then none
      else
        match (s.directory target).localRmdirTop with
        | (.ret _, x) => some (s.setJournal x.journal)
        | (.throws _, _) => none
  | .rmdirDown targetIno child ts =>
      if s.renamed then none
      else s.returned ((s.directory s.own).localRmdirDown targetIno child ts)
  | .renameSame oldPath newPath flags ts =>
      if s.renamed then none else s.renamedSame name oldPath newPath flags ts
  | .renameAcross newName flags =>
      if s.renamed then none else s.renamedAcross name newName flags

/-- The client has loaded the directory `d` from the store, and the other two
from the store as it is or was earlier; it has no transactions.  No directory is
its own child. -/
structure Loaded (d : Uuid) (name : Name) (s : LoadedDir) : Prop where
  store : s.store.WellFormed
  own : s.store.loadTable d = .ok s.own
  isDir : s.own.thisDirInode.core.isDir = true
  src : s.src.Built
  dst : s.dst.Built
  listed : s.src.childIno name = some d
  srcNe : s.src.dirIno ≠ d
  dstNe : s.dst.dirIno ≠ d
  notSelf : ∀ child, s.own.childIno child ≠ some d
  journal : ∀ ino, s.client.journal.map.lookup ino = none
  queues : ∀ ino, s.queues ino = []
  renamed : s.renamed = false

/-- All transactions have been checkpointed. -/
structure Drained (s : LoadedDir) : Prop where
  journal : ∀ ino, s.client.journal.map.lookup ino = none
  queues : ∀ ino, s.queues ino = []

/-- A rename finds the attributes of the directory in the table of its parent. -/
def CopiesAgree (name : Name) (s : LoadedDir) : Act → Prop
  | .renameSame _ _ _ _ | .renameAcross _ _ =>
      ∀ i, s.src.childInodes.lookup name = some i →
        i.core = s.own.thisDirInode.core
  | .attr _ _ | .create _ | .mkdir _ | .symlink _ | .unlink _ _ | .rmdirTop _
  | .rmdirDown _ _ _ | .commit _ | .checkpoint _ => True

section Operations

open Transaction TxOp

variable {d : Uuid} {x x' x'' : Directory}

/-- Before the rename the other directories write nothing to the INODE object. -/
def Nothing : Core → Prop := fun _ => False

/-- What the operations in the directory `d` keep, and that its transaction has
the attributes of its table whenever the operation has changed one of them. -/
structure Kept (d : Uuid) (x x' : Directory) : Prop where
  dirIno : x'.table.dirIno = d
  isDir : x'.table.thisDirInode.core.isDir = true
  children : ∀ child i, x'.table.childInodes.lookup child = some i →
    i.core.ino ≠ d
  spares : x'.journal.Spares d Nothing
  latest : (x'.table.thisDirInode.core = x.table.thisDirInode.core ∧
      (x'.journal.getEntry d).sInode = (x.journal.getEntry d).sInode) ∨
    ∃ s, (x'.journal.getEntry d).sInode = some s ∧
      s.core = x'.table.thisDirInode.core

theorem Kept.trans (h : Kept d x x') (h' : Kept d x' x'') : Kept d x x'' where
  dirIno := h'.dirIno
  isDir := h'.isDir
  children := h'.children
  spares := h'.spares
  latest := by
    rcases h'.latest with ⟨hcore, hself⟩ | hsome
    · rcases h.latest with ⟨hcore', hself'⟩ | ⟨s, hs, hscore⟩
      · exact .inl ⟨hcore.trans hcore', hself.trans hself'⟩
      · exact .inr ⟨s, hself.trans hs, hscore.trans hcore.symm⟩
    · exact .inr hsome

theorem Kept.refl (h : Kept d x x') : Kept d x' x' :=
  ⟨h.dirIno, h.isDir, h.children, h.spares, .inl ⟨rfl, rfl⟩⟩

/-- Only the times of the directory are different. -/
def TimesOnly (i i' : Inode) : Prop :=
  ∃ mtime ctime, i'.core = { i.core with
    mtime := mtime
    ctime := ctime }

theorem TimesOnly.refl (i : Inode) : TimesOnly i i := ⟨_, _, rfl⟩

/-- The transaction has the attributes of the table, if it has any. -/
def Matches (d : Uuid) (x : Directory) : Prop :=
  ∀ s, (x.journal.getEntry d).sInode = some s →
    s.core = x.table.thisDirInode.core

theorem core_eq_of_recorded
    {old : Option Inode} {i i' s : Inode} (h : Recorded old i' s)
    (hold : ∀ s₀, old = some s₀ → s₀.core = i.core) (htimes : TimesOnly i i') :
    s.core = i'.core := by
  cases h with
  | copy => rfl
  | @times s₀ h =>
      obtain ⟨mtime, ctime, hcore⟩ := htimes
      simp only [Inode.setMtime, Inode.setCtime, hold s₀ h, hcore]

/-- A call that is given the inode of the directory, after the table has
changed; it is not a call that throws. -/
theorem Kept.call_self
    (h : Kept d x x) (hmatches : Matches d x) {t : DentryTable}
    (htimes : TimesOnly x.table.thisDirInode t.thisDirInode)
    (hchildren : ∀ child i, t.childInodes.lookup child = some i →
      i.core.ino ≠ d)
    {op : TxOp} (hself : op.selfInode? = some t.thisDirInode)
    (hfile : ∀ f, op.fInode? = some f → f.core.ino ≠ d)
    {next : Directory → Reply × Directory} {n : Int}
    (hret : (({ x with table := t }).journalCall t.dirIno op next).1 = .ret n) :
    ({ x with table := t }).journalCall t.dirIno op next =
        next (({ x with table := t }).called t.dirIno op) ∧
      Kept d x (({ x with table := t }).called t.dirIno op) := by
  have hino : t.dirIno = d := by
    obtain ⟨mtime, ctime, hcore⟩ := htimes
    refine Eq.trans (congrArg Core.ino hcore) ?_
    exact h.dirIno
  have hsuits : Suits d Nothing t.dirIno op := by
    refine ⟨fun _ => ⟨?_, ?_, hfile⟩, fun hne => absurd hino hne⟩
    · rintro rfl
      cases hself
    · intro s hs
      rw [hself] at hs
      cases hs
      exact hino
  have hdone : (op.apply (x.journal.getEntry d)).1 = .done := by
    rcases journalCall_cases { x with table := t } t.dirIno op next with
      ⟨hdone, -⟩ | ⟨-, e, heq⟩
    · rw [hino] at hdone
      exact hdone
    · rw [heq] at hret
      cases hret
  refine ⟨journalCall_of_ret hret, hino, ?_, hchildren, h.spares.call hsuits, ?_⟩
  · obtain ⟨mtime, ctime, hcore⟩ := htimes
    refine Eq.trans (congrArg Core.isDir hcore) ?_
    exact h.isDir
  · rcases apply_sInode op (x.journal.getEntry d) with
      ⟨-, hno⟩ | ⟨s, s', hs, hs', hrec⟩
    · rw [hno hdone] at hself
      cases hself
    · rw [hself] at hs
      cases hs
      refine .inr ⟨s', ?_, core_eq_of_recorded hrec hmatches htimes⟩
      rw [hino]
      unfold Directory.called
      rw [Journal.call_getEntry]
      exact hs'

/-- A call that does not concern the inode of the directory. -/
theorem Kept.call_other
    (h : Kept d x x) {ino : Uuid} {op : TxOp} (hsuits : Suits d Nothing ino op)
    (hself : ino = d → op.selfInode? = none) : Kept d x (x.called ino op) where
  dirIno := h.dirIno
  isDir := h.isDir
  children := h.children
  spares := h.spares.call hsuits
  latest := by
    refine .inl ⟨rfl, ?_⟩
    unfold Directory.called
    by_cases hd : ino = d
    · subst hd
      rw [Journal.call_getEntry]
      rcases apply_sInode op (x.journal.getEntry ino) with
        ⟨hsame, -⟩ | ⟨s, s', hs, -⟩
      · exact hsame
      · rw [hself rfl] at hs
        cases hs
    · rw [Journal.call_getEntry_ne _ _ _ (Ne.symm hd)]

theorem children_insert
    {l : AList (fun _ : Name => Inode)} {child : Name} {i : Inode}
    (hi : i.core.ino ≠ d)
    (h : ∀ child i, l.lookup child = some i → i.core.ino ≠ d)
    (child' : Name) (i' : Inode)
    (hlookup : (l.insert child i).lookup child' = some i') :
    i'.core.ino ≠ d := by
  by_cases hne : child' = child
  · subst hne
    rw [AList.lookup_insert] at hlookup
    cases hlookup
    exact hi
  · rw [AList.lookup_insert_ne hne] at hlookup
    exact h child' i' hlookup

theorem children_create
    {t : DentryTable} {child : Name} {i : Inode} (hi : i.core.ino ≠ d)
    (h : ∀ child i, t.childInodes.lookup child = some i → i.core.ino ≠ d)
    (child' : Name) (i' : Inode)
    (hlookup : (t.createChildInode child i).2.childInodes.lookup child' =
      some i') : i'.core.ino ≠ d := by
  unfold createChildInode at hlookup
  split at hlookup
  · exact h child' i' hlookup
  · exact children_insert hi h child' i' hlookup

theorem children_delete
    {t : DentryTable} {child : Name}
    (h : ∀ child i, t.childInodes.lookup child = some i → i.core.ino ≠ d)
    (child' : Name) (i' : Inode)
    (hlookup : (t.deleteChildInode child).2.childInodes.lookup child' =
      some i') : i'.core.ino ≠ d := by
  unfold deleteChildInode at hlookup
  split at hlookup
  · by_cases hne : child' = child
    · subst hne
      unfold dropChild at hlookup
      rw [AList.lookup_erase] at hlookup
      cases hlookup
    · rw [dropChild_childInodes_ne t child hne] at hlookup
      exact h child' i' hlookup
  · exact h child' i' hlookup

theorem timesOnly_create (t : DentryTable) (child : Name) (i : Inode)
    (ts : Timespec) :
    TimesOnly t.thisDirInode
      ((t.createChildInode child i).2.touch ts).thisDirInode := by
  refine ⟨ts, ts, ?_⟩
  unfold touch
  rw [createChildInode_thisDirInode]
  rfl

theorem timesOnly_delete (t : DentryTable) (child : Name) (ts : Timespec) :
    TimesOnly t.thisDirInode
      ((t.deleteChildInode child).2.touch ts).thisDirInode := by
  refine ⟨ts, ts, ?_⟩
  unfold touch
  rw [deleteChildInode_thisDirInode]
  rfl

theorem kept_localCreate
    (h : Kept d x x) (hm : Matches d x) {r : Request} (hnew : r.newIno ≠ d)
    {n : Int} (hret : (x.localCreate r).1 = .ret n) :
    Kept d x (x.localCreate r).2 := by
  obtain ⟨heq, hkept⟩ := h.call_self hm
    (timesOnly_create x.table r.name (x.newRegInode r) r.ts)
    (fun child i hi => children_create hnew h.children child i hi) rfl
    (by rintro f ⟨⟩; exact hnew) hret
  unfold localCreate insertReg
  rw [heq]
  exact hkept

theorem kept_localMkdir
    (h : Kept d x x) (hm : Matches d x) {r : Request} (hnew : r.newIno ≠ d)
    {n : Int} (hret : (x.localMkdir r).1 = .ret n) :
    Kept d x (x.localMkdir r).2 := by
  obtain ⟨heq, hkept⟩ := h.call_self hm
    (timesOnly_create x.table r.name
      (x.newDirInode x.clientUid x.clientGid r) r.ts)
    (fun child i hi => children_create hnew h.children child i hi) rfl
    (by rintro f ⟨⟩) hret
  unfold localMkdir insertDir
  rw [heq]
  -- the transaction of the new directory is another one
  refine journalCall_snd (P := Kept d x) ?_ fun _ h => h
  refine hkept.trans (Kept.call_other hkept.refl ?_ ?_)
  · refine ⟨fun hd => absurd hd hnew, fun _ => ⟨?_, nofun⟩⟩
    rintro s ⟨⟩
    exact hnew
  · exact fun hd => absurd hd hnew

theorem kept_localSymlink
    (h : Kept d x x) (hm : Matches d x) {r : Request} (hnew : r.newIno ≠ d)
    {n : Int} (hret : (x.localSymlink r).1 = .ret n) :
    Kept d x (x.localSymlink r).2 := by
  unfold localSymlink insertSymlink at hret ⊢
  split
  · exact h
  · rename_i habsent
    rw [if_neg habsent] at hret
    obtain ⟨heq, hkept⟩ := h.call_self hm
      (by rw [createChildInode_thisDirInode]; exact .refl _)
      (fun child i hi => children_create hnew h.children child i hi) rfl
      (by rintro f ⟨⟩; exact hnew) hret
    rw [heq]
    exact hkept

theorem kept_localUnlink
    (h : Kept d x x) (hm : Matches d x) {child : Name} {ts : Timespec}
    {n : Int} (hret : (x.localUnlink child ts).1 = .ret n) :
    Kept d x (x.localUnlink child ts).2 := by
  revert hret
  unfold localUnlink removeReg
  split
  · exact fun _ => h
  · rename_i targetI hlookup
    dsimp only
    split
    · intro hret
      obtain ⟨heq, hkept⟩ := h.call_self hm
        (timesOnly_delete x.table child ts)
        (fun child i hi => children_delete h.children child i hi) rfl
        (by rintro f ⟨⟩) hret
      rw [heq]
      exact hkept
    · -- a link of the file is left, and only its inode changes
      intro _
      have hne := h.children child targetI hlookup
      refine journalCall_snd (P := Kept d x) ?_ fun _ h => h
      have hset : ∀ hsome, Kept d x { x with
          table := x.table.setChild child
            (targetI.setNlink (targetI.core.nlink - 1)) hsome } := fun _ =>
        { dirIno := h.dirIno
          isDir := h.isDir
          children := children_insert hne h.children
          spares := h.spares
          latest := .inl ⟨rfl, rfl⟩ }
      refine (hset (by simp [hlookup])).trans (Kept.call_other
        (hset (by simp [hlookup])).refl ⟨fun _ => ⟨?_, ?_, ?_⟩, fun _ =>
          ⟨?_, ?_⟩⟩ fun _ => rfl)
      · rintro ⟨⟩
      · rintro s ⟨⟩
      · rintro f ⟨⟩
        exact hne
      · rintro s ⟨⟩
      · rintro f ⟨⟩ hf
        exact absurd hf hne

theorem kept_localRmdirDown
    (h : Kept d x x) (hm : Matches d x) {targetIno : Uuid} {child : Name}
    {ts : Timespec} {n : Int}
    (hret : (x.localRmdirDown targetIno child ts).1 = .ret n) :
    Kept d x (x.localRmdirDown targetIno child ts).2 := by
  obtain ⟨heq, hkept⟩ := h.call_self hm
    (timesOnly_delete x.table child ts)
    (fun child i hi => children_delete h.children child i hi) rfl
    (by rintro f ⟨⟩) hret
  unfold localRmdirDown removeDir
  rw [heq]
  exact hkept

/-- A change of the directory itself is recorded as a whole. -/
theorem kept_change
    (h : Kept d x x) {f : Inode → Inode} (hino : ∀ i, (f i).core.ino = i.core.ino)
    {data : Pool} {n : Int} {s' : AttrState}
    (hres : AttrState.change ⟨x, data⟩ .self f = (.ok n, s'))
    (hdir : s'.dir.table.thisDirInode.core.isDir = true) : Kept d x s'.dir := by
  have hd : (f x.table.thisDirInode).core.ino = d :=
    (hino x.table.thisDirInode).trans h.dirIno
  have hcall := @journalCall_of_done
    { x with table := x.table.setTarget .self (f x.table.thisDirInode) }
    (f x.table.thisDirInode).core.ino (.chself (f x.table.thisDirInode))
    (fun d => (.ret 0, d)) (Journal.call_keeps_done (.chself _))
  change AttrState.record ⟨x, data⟩ .self (f x.table.thisDirInode) = _ at hres
  unfold AttrState.record at hres
  by_cases hf : (f x.table.thisDirInode).core.isDir = true
  · simp only [hf, if_true, hcall, Prod.mk.injEq] at hres
    obtain ⟨-, rfl⟩ := hres
    refine ⟨hd, hf, h.children, h.spares.call ⟨fun _ => ⟨nofun, ?_, nofun⟩,
      fun hne => absurd hd hne⟩, .inr ⟨(f x.table.thisDirInode).copy, ?_, rfl⟩⟩
    · rintro s ⟨⟩
      exact hd
    · unfold Directory.called
      rw [hd, Journal.call_getEntry]
      have hopen := (x.journal.getEntry_owner d).2
      simp only [TxOp.apply, Transaction.chself, hopen, Bool.false_eq_true,
        if_false]
  · -- it is no directory any more
    have hcall' := @journalCall_of_done
      { x with table := x.table.setTarget .self (f x.table.thisDirInode) }
      (f x.table.thisDirInode).pIno (.chreg (f x.table.thisDirInode))
      (fun d => (.ret 0, d)) (Journal.call_keeps_done (.chreg _))
    simp only [hf, Bool.false_eq_true, if_false, hcall', Prod.mk.injEq] at hres
    obtain ⟨-, rfl⟩ := hres
    exact absurd hdir hf

theorem kept_attr
    (h : Kept d x x) {op : AttrOp} {clock : Timespec × Timespec} {data : Pool}
    {n : Int} {s' : AttrState}
    (hres : op.atLeader .self clock ⟨x, data⟩ = (.ok n, s'))
    (hdir : s'.dir.table.thisDirInode.core.isDir = true) : Kept d x s'.dir := by
  cases op with
  | chmod mode =>
      exact @kept_change _ _ h (·.withMode mode) (fun _ => rfl) _ _ _ hres hdir
  | chown uid gid =>
      refine @kept_change _ _ h (·.withOwner uid gid) (fun i => ?_) _ _ _ hres
        hdir
      unfold Inode.withOwner
      dsimp only
      split <;> split <;> rfl
  | utimens tv =>
      refine @kept_change _ _ h (·.withTimes (Inode.chosenTime tv.1 clock.1)
        (Inode.chosenTime tv.2 clock.2)) (fun i => ?_) _ _ _ hres hdir
      unfold Inode.withTimes
      dsimp only
      split <;> split <;> rfl
  | truncate offset =>
      -- a directory is not truncated
      simp only [AttrOp.atLeader, AttrState.localTruncate, AttrState.withTarget,
        targetInode, h.isDir, if_true, Prod.mk.injEq] at hres
      obtain ⟨-, rfl⟩ := hres
      exact h

end Operations

section Renames

open Transaction TxOp

variable {d p : Uuid} {ok : Core → Prop} {e : Transaction} {x x' : Directory}

/-- What a half of a rename keeps, in another directory `p`: it writes nothing
to the INODE object of `d` but what is `ok`, and leaves the transaction of `d`
alone. -/
structure Apart (d p : Uuid) (ok : Core → Prop) (e : Transaction)
    (x : Directory) : Prop where
  dirIno : x.table.dirIno = p
  ne : p ≠ d
  spares : x.journal.Spares d ok
  entry : x.journal.getEntry d = e

theorem Apart.call
    (h : Apart d p ok e x) {t : DentryTable} (hdir : t.dirIno = p) {op : TxOp}
    (hself : op.selfInode? = some t.thisDirInode)
    (hfile : ∀ f, op.fInode? = some f → f.core.ino = d → ok f.core) :
    Apart d p ok e (({ x with table := t }).called t.dirIno op) where
  dirIno := hdir
  ne := h.ne
  spares := by
    refine h.spares.call ⟨fun hd => absurd (hdir.symm.trans hd) h.ne, fun _ =>
      ⟨?_, hfile⟩⟩
    rintro s hs
    rw [hself] at hs
    cases hs
    exact fun hd => h.ne (hdir.symm.trans hd)
  entry := by
    unfold Directory.called
    rw [Journal.call_getEntry_ne _ _ _ (by rw [hdir]; exact Ne.symm h.ne)]
    exact h.entry

theorem apart_takeTarget
    (h : Apart d p ok e x) (oldName : Name) (targetI : Inode) :
    Apart d p ok e (x.takeTarget oldName targetI).2 :=
  takeTarget_snd (P := Apart d p ok e)
    (h.call (by rw [deleteChildInode_dirIno]; exact h.dirIno) rfl nofun)

theorem apart_insertTarget
    (h : Apart d p ok e x) (newName : Name) {targetI : Inode}
    (hok : ok targetI.core) :
    Apart d p ok e (x.insertTarget newName targetI).2 := by
  refine journalCall_snd (P := Apart d p ok e) (h.call ?_ rfl ?_) fun _ h => h
  · rw [createChildInode_dirIno]
    exact h.dirIno
  · rintro f ⟨⟩ -
    exact hok

theorem apart_replaceTarget
    (h : Apart d p ok e x) (newName : Name)
    {next : Directory → Reply × Directory}
    (hnext : ∀ x, Apart d p ok e x → Apart d p ok e (next x).2) :
    Apart d p ok e (x.replaceTarget newName next).2 := by
  unfold replaceTarget
  split
  · exact h
  · refine journalCall_snd (P := Apart d p ok e) (h.call ?_ rfl nofun) hnext
    rw [deleteChildInode_dirIno]
    exact h.dirIno

theorem apart_moveTarget
    (h : Apart d p ok e x) (oldName newName : Name) {targetI : Inode}
    (hok : ok targetI.core) :
    Apart d p ok e (x.moveTarget oldName newName targetI).2 := by
  have hmove : ∀ x, Apart d p ok e x →
      Apart d p ok e (x.moveName oldName newName targetI).2 := by
    intro x h
    have htake := apart_takeTarget h oldName targetI
    have hfst := @takeTarget_ok x oldName targetI
    unfold moveName
    split
    · rename_i i x' heq
      cases hfst heq
      rw [heq] at htake
      exact apart_insertTarget htake newName hok
    · rename_i e' x' heq
      rw [heq] at htake
      exact htake
  unfold moveTarget
  split
  · exact apart_replaceTarget h newName hmove
  · exact hmove x h

end Renames

section Runs

open Transaction TxOp Overwrites

variable {d : Uuid} {name : Name} {s s' : LoadedDir}

/-- What transactions of other directories may write to the INODE object: after
the rename, the attributes of the directory. -/
def allowed (s : LoadedDir) (c : Core) : Prop :=
  s.renamed = true ∧ c = s.own.thisDirInode.core

/-- What the transactions of `d` are still to write to its INODE object. -/
def ownWrites (d : Uuid) (s : LoadedDir) : List (Option (Option Core)) :=
  (s.queues d ++ [s.client.journal.getEntry d]).map fun tx =>
    tx.sInode.map fun i => some i.core

/-- When the transactions of `d` have been written, its INODE object has the
attributes in its table; those of other directories do not change that. -/
structure Inv (d : Uuid) (s : LoadedDir) : Prop where
  dirIno : s.own.dirIno = d
  isDir : s.own.thisDirInode.core.isDir = true
  children : ∀ child i, s.own.childInodes.lookup child = some i → i.core.ino ≠ d
  srcNe : s.src.dirIno ≠ d
  dstNe : s.dst.dirIno ≠ d
  current : s.client.journal.Spares d s.allowed
  queued : ∀ ino, ∀ tx ∈ s.queues ino, tx.sIno = ino ∧ tx.Spares d s.allowed
  latest : Overwrites.after ((s.store.inodes d).map Inode.core) (s.ownWrites d) =
    some s.own.thisDirInode.core

theorem Loaded.inv (h : Loaded d name s) : Inv d s := by
  have hown := loadTable_eq h.own
  have hentry : ∀ ino, s.client.journal.getEntry ino = .new ino := by
    intro ino
    rw [Journal.getEntry, h.journal ino]
    rfl
  refine ⟨h.store.ino d _ hown.1, h.isDir, ?_, h.srcNe, h.dstNe, ?_, ?_, ?_⟩
  · intro child i hi hd
    have hchild := (Built.load h.store h.own).coherent child i hi
    rw [hd] at hchild
    exact h.notSelf child hchild
  · intro ino
    rw [hentry]
    exact .new ino
  · intro ino tx htx
    rw [h.queues ino] at htx
    cases htx
  · rw [ownWrites, h.queues, hentry, hown.1]
    rfl

theorem Inv.matches (h : Inv d s) : Matches d (s.directory s.own) := by
  intro i hi
  have hlatest := h.latest
  rw [ownWrites, List.map_append, after_append, List.map_singleton] at hlatest
  rw [show (s.client.journal.getEntry d).sInode = some i from hi] at hlatest
  exact Option.some.inj hlatest

/-- Before the rename nothing else may be written. -/
theorem Inv.kept (h : Inv d s) (hren : s.renamed = false) :
    Kept d (s.directory s.own) (s.directory s.own) where
  dirIno := h.dirIno
  isDir := h.isDir
  children := h.children
  spares := fun ino => (h.current ino).mono fun _ hc => by
    rw [allowed, hren] at hc
    exact absurd hc.1 (by decide)
  latest := .inl ⟨rfl, rfl⟩

/-- An operation in the directory. -/
theorem Inv.operate
    (h : Inv d s) (hren : s.renamed = false) {x : Directory}
    (hkept : Kept d (s.directory s.own) x) (data : Pool) :
    Inv d { s.setJournal x.journal with
      own := x.table
      data := data } where
  dirIno := hkept.dirIno
  isDir := hkept.isDir
  children := hkept.children
  srcNe := h.srcNe
  dstNe := h.dstNe
  current := fun ino => (hkept.spares ino).mono fun _ => False.elim
  queued := fun ino tx htx => ⟨(h.queued ino tx htx).1,
    (h.queued ino tx htx).2.mono fun _ hc => by
      rw [allowed, hren] at hc
      exact absurd hc.1 (by decide)⟩
  latest := by
    have hlatest := h.latest
    rw [ownWrites, List.map_append, after_append, List.map_singleton] at hlatest ⊢
    rcases hkept.latest with ⟨hcore, hself⟩ | ⟨i, hi, hcore⟩
    · rw [show x.table.thisDirInode.core = s.own.thisDirInode.core from hcore,
        ← hlatest]
      exact congrArg (fun o : Option Inode => Overwrites.after (Overwrites.after _ _)
        [o.map fun i => some i.core]) hself
    · change Overwrites.after _ [(x.journal.getEntry d).sInode.map _] =
        some x.table.thisDirInode.core
      rw [hi, ← hcore]
      rfl

/-- The rename, whose copy of the inode has the attributes of the directory. -/
theorem Inv.rename
    (h : Inv d s) {src dst : DentryTable} {client : Client}
    (hsrc : src.dirIno = s.src.dirIno) (hdst : dst.dirIno = s.dst.dirIno)
    (hspares : client.journal.Spares d (· = s.own.thisDirInode.core))
    (hentry : client.journal.getEntry d = s.client.journal.getEntry d) :
    Inv d { s with
      src := src
      dst := dst
      client := client
      renamed := true } where
  dirIno := h.dirIno
  isDir := h.isDir
  children := h.children
  srcNe := by
    rw [hsrc]
    exact h.srcNe
  dstNe := by
    rw [hdst]
    exact h.dstNe
  current := fun ino => (hspares ino).mono fun _ hc => ⟨rfl, hc⟩
  queued := fun ino tx htx => ⟨(h.queued ino tx htx).1,
    (h.queued ino tx htx).2.mono fun _ hc => ⟨rfl, hc.2⟩⟩
  latest := by
    have hlatest := h.latest
    unfold ownWrites at hlatest ⊢
    rw [hentry]
    exact hlatest

theorem Inv.commit
    (h : Inv d s) {ino : Uuid} (hstep : s.commit ino = some s') : Inv d s' := by
  unfold LoadedDir.commit at hstep
  cases hlookup : s.client.journal.map.lookup ino with
  | none =>
      rw [hlookup] at hstep
      cases hstep
  | some tx =>
      rw [hlookup] at hstep
      cases hstep
      have htx : s.client.journal.getEntry ino = tx := by
        rw [Journal.getEntry, hlookup]
        rfl
      have hself : (s.client.journal.commitEntry ino).getEntry ino = .new ino := by
        simp [Journal.getEntry, Journal.commitEntry]
      have hother : ∀ ino', ino' ≠ ino →
          (s.client.journal.commitEntry ino).getEntry ino' =
            s.client.journal.getEntry ino' := by
        intro ino' hne
        rw [Journal.getEntry, Journal.commitEntry, AList.lookup_erase_ne hne]
        rfl
      have hspares := h.current ino
      rw [htx] at hspares
      refine ⟨h.dirIno, h.isDir, h.children, h.srcNe, h.dstNe, ?_, ?_, ?_⟩
      · intro ino'
        change Spares d _ ((s.client.journal.commitEntry ino).getEntry ino')
        by_cases hne : ino' = ino
        · subst hne
          rw [hself]
          exact .new ino'
        · rw [hother ino' hne]
          exact h.current ino'
      · intro ino' tx' htx'
        by_cases hne : ino' = ino
        · subst hne
          simp only [Function.update_self, List.mem_append,
            List.mem_singleton] at htx'
          rcases htx' with htx' | rfl
          · exact h.queued ino' tx' htx'
          · exact ⟨(s.client.journal.owner ino' tx hlookup).1,
              hspares.files, hspares.own, hspares.other⟩
        · simp only [Function.update_of_ne hne] at htx'
          exact h.queued ino' tx' htx'
      · have hlatest := h.latest
        unfold ownWrites at hlatest ⊢
        change Overwrites.after ((s.store.inodes d).map Inode.core)
          (List.map _ ((Function.update s.queues ino (s.queues ino ++
            [{ tx with committed := true }]) d : List Transaction) ++
              [(s.client.journal.commitEntry ino).getEntry d])) =
          some s.own.thisDirInode.core
        by_cases hne : d = ino
        · subst hne
          rw [htx] at hlatest
          rw [Function.update_self, hself, List.map_append, after_append,
            ← hlatest]
          simp only [List.map_append, List.map_singleton]
          rfl
        · rw [Function.update_of_ne hne, hother d hne]
          exact hlatest

/-- What a checkpoint of another directory leaves in the INODE object. -/
theorem checkpoint_other
    {tx : Transaction} (htx : tx.Spares d s.allowed)
    (hne : tx.sIno ≠ d) {m : MetaStore} (hsync : s.store.sync tx = .ok m) :
    m.inodes d = s.store.inodes d ∨
      (m.inodes d).map Inode.core = some s.own.thisDirInode.core := by
  by_cases hdel : tx.status = .S_DELETED
  · exact .inl (MetaStore.sync_deleted hdel hsync (Ne.symm hne))
  · rw [MetaStore.sync_inodes htx.files hdel hsync d]
    rcases htx.inodeWrite_other hne with hnone | ⟨i, hi, hcore⟩
    · rw [hnone]
      exact .inl rfl
    · rw [hi]
      exact .inr (congrArg some hcore.2)

theorem Inv.checkpoint
    (h : Inv d s) {ino : Uuid} (hstep : s.checkpoint ino = some s') :
    Inv d s' := by
  unfold LoadedDir.checkpoint at hstep
  cases hqueue : s.queues ino with
  | nil =>
      rw [hqueue] at hstep
      cases hstep
  | cons tx rest =>
      rw [hqueue] at hstep
      dsimp only at hstep
      cases hsync : s.store.sync tx with
      | error e =>
          rw [hsync] at hstep
          cases hstep
      | ok m =>
          rw [hsync] at hstep
          cases hstep
          obtain ⟨hino, hspares⟩ := h.queued ino tx (by simp [hqueue])
          refine ⟨h.dirIno, h.isDir, h.children, h.srcNe, h.dstNe, h.current,
            ?_, ?_⟩
          · intro ino' tx' htx'
            by_cases hne : ino' = ino
            · subst hne
              simp only [Function.update_self] at htx'
              exact h.queued ino' tx' (by simp [hqueue, htx'])
            · simp only [Function.update_of_ne hne] at htx'
              exact h.queued ino' tx' htx'
          · have hlatest := h.latest
            unfold ownWrites at hlatest ⊢
            dsimp only
            by_cases hne : d = ino
            · subst hne
              have hwrite := MetaStore.sync_inodes hspares.files
                (hspares.own hino).1 hsync d
              rw [hspares.inodeWrite_own hino] at hwrite
              rw [hqueue, List.cons_append, List.map_cons,
                Overwrites.after] at hlatest
              rw [Function.update_self, ← hlatest, hwrite]
              cases tx.sInode <;> rfl
            · rw [Function.update_of_ne hne]
              rcases checkpoint_other hspares
                (fun hd => hne (hd.symm.trans hino)) hsync with hsame | hcore
              · rw [hsame]
                exact hlatest
              · -- the attributes are written in front of what is to come
                rw [hcore]
                exact after_settled hlatest

theorem Inv.directory_apart
    (h : Inv d s) {t : DentryTable} (hne : t.dirIno ≠ d) (hren : s.renamed = false) :
    Apart d t.dirIno (· = s.own.thisDirInode.core)
      (s.client.journal.getEntry d) (s.directory t) where
  dirIno := rfl
  ne := hne
  spares := fun ino => ((h.kept hren).spares ino).mono fun _ => False.elim
  entry := rfl

theorem getChildInode_eq
    {t : DentryTable} {targetI : Inode} (h : t.getChildInode name = .ok targetI) :
    t.childInodes.lookup name = some targetI := by
  unfold getChildInode at h
  split at h
  · rename_i i hi
    cases h
    exact hi
  · cases h

/-- A rename in the directory of the parent. -/
theorem Inv.renamedSame
    (h : Inv d s) (hren : s.renamed = false) {oldPath newPath : Bytes}
    {flags : UInt32} {ts : Timespec}
    (hcopies : ∀ i, s.src.childInodes.lookup name = some i →
      i.core = s.own.thisDirInode.core)
    (hstep : s.renamedSame name oldPath newPath flags ts = some s') :
    Inv d s' := by
  unfold LoadedDir.renamedSame at hstep
  split at hstep
  · rename_i hname
    have hapart : Apart d s.src.dirIno (· = s.own.thisDirInode.core)
        (s.client.journal.getEntry d)
        ((s.directory s.src).localRenameSameParent oldPath newPath flags
          ts).2 := by
      have hstart := h.directory_apart h.srcNe hren
      unfold localRenameSameParent
      split
      · exact hstart
      · rw [hname]
        split
        · rename_i oldName newName hold hnew
          cases hold
          split
          · exact hstart
          · rename_i targetI htarget
            have htouch : Apart d s.src.dirIno (· = s.own.thisDirInode.core)
                (s.client.journal.getEntry d)
                { s.directory s.src with table := s.src.touch ts } :=
              ⟨rfl, hstart.ne, hstart.spares, hstart.entry⟩
            have hcore : targetI.core = s.own.thisDirInode.core :=
              hcopies targetI (getChildInode_eq htarget)
            dsimp only
            split
            · exact apart_moveTarget htouch name newName hcore
            · exact htouch
        · exact hstart
        · exact hstart
    split at hstep
    · rename_i x heq
      rw [heq] at hapart
      cases hstep
      exact h.rename hapart.dirIno rfl hapart.spares hapart.entry
    · cases hstep
  · cases hstep

theorem apart_src
    {p : Uuid} {ok : Core → Prop} {e : Transaction} {x : Directory}
    (h : Apart d p ok e x) (oldName : Name) (flags : UInt32) :
    Apart d p ok e (x.localRenameNotSameParentSrc oldName flags).2 := by
  unfold localRenameNotSameParentSrc
  split
  · exact h
  · split
    · exact apart_takeTarget h oldName _
    · exact h

/-- The source half hands on the inode of the old name. -/
theorem src_ok
    {x x' : Directory} {flags : UInt32} {i : Inode}
    (h : x.localRenameNotSameParentSrc name flags = (.ok i, x')) :
    x.table.childInodes.lookup name = some i := by
  unfold localRenameNotSameParentSrc at h
  split at h
  · cases h
  · rename_i targetI htarget
    split at h
    · cases takeTarget_ok h
      exact getChildInode_eq htarget
    · cases h

theorem apart_dst
    {p : Uuid} {ok : Core → Prop} {e : Transaction} {x : Directory}
    (h : Apart d p ok e x) {targetI : Inode} (hok : ok targetI.core)
    (checkDstIno : Uuid) (newName : Name) (flags : UInt32) :
    Apart d p ok e
      (x.localRenameNotSameParentDst targetI checkDstIno newName flags).2 := by
  unfold localRenameNotSameParentDst
  split
  · unfold Directory.renameDst
    dsimp only
    split
    · exact apart_replaceTarget h newName fun x hx =>
        apart_insertTarget hx newName hok
    · exact apart_insertTarget h newName hok
  · exact h

/-- What a rename to another directory of the same client keeps. -/
structure ApartParents (d : Uuid) (ok : Core → Prop) (e : Transaction)
    (s : LoadedDir) (p : Parents) : Prop where
  src : p.src.dirIno = s.src.dirIno
  dst : p.dst.dirIno = s.dst.dirIno
  spares : (p.clients 0).journal.Spares d ok
  entry : (p.clients 0).journal.getEntry d = e

theorem Inv.apart_rename
    (h : Inv d s) (hren : s.renamed = false) (newName : Name) (flags : UInt32)
    (hcopies : ∀ i, s.src.childInodes.lookup name = some i →
      i.core = s.own.thisDirInode.core) :
    ApartParents d (· = s.own.thisDirInode.core) (s.client.journal.getEntry d) s
      (Parents.rename ⟨s.src, s.dst, fun _ => s.client⟩ 0 0 0 name newName
        flags).parents := by
  have hsrc := apart_src (h.directory_apart h.srcNe hren) name flags
  unfold Parents.rename
  simp only [decide_true, Parents.renameSrc, Parents.renameDst, if_true]
  have hdir : Parents.srcDirectory ⟨s.src, s.dst, fun _ => s.client⟩ 0 =
      s.directory s.src := rfl
  rw [hdir]
  cases hhalf : (s.directory s.src).localRenameNotSameParentSrc name flags with
  | mk r x =>
      rw [hhalf] at hsrc
      cases r with
      | error e =>
          refine ⟨hsrc.dirIno, rfl, ?_, ?_⟩
          · exact hsrc.spares
          · exact hsrc.entry
      | ok targetI =>
          have hcore : targetI.core = s.own.thisDirInode.core :=
            hcopies targetI (src_ok hhalf)
          dsimp only
          generalize Parents.checkDst _ true newName = checkDstIno
          have hmid : Apart d s.dst.dirIno (· = s.own.thisDirInode.core)
              (s.client.journal.getEntry d)
              ((Parents.putSrc ⟨s.src, s.dst, fun _ => s.client⟩ 0
                x).dstDirectory 0) :=
            ⟨rfl, h.dstNe, hsrc.spares, hsrc.entry⟩
          have hdst := apart_dst hmid hcore checkDstIno newName flags
          cases hlast : ((Parents.putSrc ⟨s.src, s.dst, fun _ => s.client⟩ 0
            x).dstDirectory 0).localRenameNotSameParentDst targetI checkDstIno
              newName flags with
          | mk r' x' =>
              rw [hlast] at hdst
              cases r' with
              | ret n => exact ⟨hsrc.dirIno, hdst.dirIno, hdst.spares, hdst.entry⟩
              | throws e =>
                  exact ⟨hsrc.dirIno, hdst.dirIno, hdst.spares, hdst.entry⟩

/-- A rename to the other directory. -/
theorem Inv.renamedAcross
    (h : Inv d s) (hren : s.renamed = false) {newName : Name} {flags : UInt32}
    (hcopies : ∀ i, s.src.childInodes.lookup name = some i →
      i.core = s.own.thisDirInode.core)
    (hstep : s.renamedAcross name newName flags = some s') : Inv d s' := by
  have hparents := h.apart_rename hren newName flags hcopies
  unfold LoadedDir.renamedAcross at hstep
  split at hstep
  · rename_i loc p heq
    rw [heq] at hparents
    cases hstep
    exact h.rename hparents.src hparents.dst hparents.spares hparents.entry
  · cases hstep

/-- An operation in the directory that returns. -/
theorem Inv.returned
    (h : Inv d s) (hren : s.renamed = false) {r : Reply × Directory}
    (hkept : ∀ n, r.1 = .ret n → Kept d (s.directory s.own) r.2)
    (hstep : s.returned r = some s') : Inv d s' := by
  obtain ⟨reply, x⟩ := r
  cases reply with
  | throws e => cases hstep
  | ret n =>
      cases hstep
      exact h.operate hren (hkept n rfl) s.data

/-- The removal of another directory. -/
theorem Inv.rmdirTop
    (h : Inv d s) (hren : s.renamed = false) {target : DentryTable}
    (hne : target.dirIno ≠ d) {n : Int} {x : Directory}
    (hres : (s.directory target).localRmdirTop = (.ret n, x)) :
    Inv d (s.setJournal x.journal) := by
  have hkept : Kept d (s.directory s.own)
      { s.directory s.own with journal := x.journal } := by
    unfold localRmdirTop removeSelf at hres
    split at hres
    · cases hres
      exact h.kept hren
    · have heq := journalCall_of_ret (congrArg Prod.fst hres)
      rw [hres] at heq
      cases heq
      exact (h.kept hren).call_other
        ⟨fun hd => absurd hd hne, fun _ => ⟨nofun, nofun⟩⟩
        fun hd => absurd hd hne
  exact h.operate hren hkept s.data

/-- Every step keeps the invariant, if the copies agree at a rename. -/
theorem inv_step : (step d name).InvariantUnder (CopiesAgree name) (Inv d) := by
  intro s a s' h hok hstep
  cases a with
  | commit ino => exact h.commit hstep
  | checkpoint ino => exact h.checkpoint hstep
  | attr op clock =>
      simp only [step] at hstep
      split at hstep
      · cases hstep
      · rename_i hren
        rw [Bool.not_eq_true] at hren
        unfold changedAttr at hstep
        split at hstep
        · rename_i n x heq
          split at hstep
          · rename_i hdir
            cases hstep
            exact h.operate hren (kept_attr (h.kept hren) heq hdir) x.data
          · cases hstep
        · cases hstep
  | create r =>
      simp only [step] at hstep
      split at hstep
      · cases hstep
      · rename_i hren
        obtain ⟨hren, hnew⟩ := not_or.mp hren
        rw [Bool.not_eq_true] at hren
        exact h.returned hren
          (fun _ => kept_localCreate (h.kept hren) h.matches hnew) hstep
  | mkdir r =>
      simp only [step] at hstep
      split at hstep
      · cases hstep
      · rename_i hren
        obtain ⟨hren, hnew⟩ := not_or.mp hren
        rw [Bool.not_eq_true] at hren
        exact h.returned hren
          (fun _ => kept_localMkdir (h.kept hren) h.matches hnew) hstep
  | symlink r =>
      simp only [step] at hstep
      split at hstep
      · cases hstep
      · rename_i hren
        obtain ⟨hren, hnew⟩ := not_or.mp hren
        rw [Bool.not_eq_true] at hren
        exact h.returned hren
          (fun _ => kept_localSymlink (h.kept hren) h.matches hnew) hstep
  | unlink child ts =>
      simp only [step] at hstep
      split at hstep
      · cases hstep
      · rename_i hren
        rw [Bool.not_eq_true] at hren
        exact h.returned hren
          (fun _ => kept_localUnlink (h.kept hren) h.matches) hstep
  | rmdirTop target =>
      simp only [step] at hstep
      split at hstep
      · cases hstep
      · rename_i hren
        obtain ⟨hren, hne⟩ := not_or.mp hren
        rw [Bool.not_eq_true] at hren
        split at hstep
        · rename_i n x heq
          cases hstep
          exact h.rmdirTop hren hne heq
        · cases hstep
  | rmdirDown targetIno child ts =>
      simp only [step] at hstep
      split at hstep
      · cases hstep
      · rename_i hren
        rw [Bool.not_eq_true] at hren
        exact h.returned hren
          (fun _ => kept_localRmdirDown (h.kept hren) h.matches) hstep
  | renameSame oldPath newPath flags ts =>
      simp only [step] at hstep
      split at hstep
      · cases hstep
      · rename_i hren
        rw [Bool.not_eq_true] at hren
        exact h.renamedSame hren hok hstep
  | renameAcross newName flags =>
      simp only [step] at hstep
      split at hstep
      · cases hstep
      · rename_i hren
        rw [Bool.not_eq_true] at hren
        exact h.renamedAcross hren hok hstep

/-- **Attributes of a renamed directory.** If the two copies of its inode agree
at the rename, then its INODE object holds the attributes last set, as soon as
all transactions have been checkpointed, in every run. -/
theorem renamed_keeps_attributes
    {acts : List Act} (hloaded : Loaded d name s)
    (hok : (step d name).Steps (CopiesAgree name) s acts)
    (hrun : (step d name).runFrom s acts = some s') (hdrained : s'.Drained) :
    (s'.store.inodes d).map Inode.core = some s'.own.thisDirInode.core := by
  have hlatest := (inv_step.runFrom hloaded.inv hok hrun).latest
  have hnew : s'.client.journal.getEntry d = .new d := by
    rw [Journal.getEntry, hdrained.journal]
    rfl
  rw [ownWrites, hdrained.queues, hnew] at hlatest
  exact hlatest

end Runs

section Examples

/-- The directory "/a", its inode as the store has it. -/
def dirA : Inode := .new .root 0 0 (sIFDIR ||| 0o755) inoA ⟨1700000000, 0⟩

def storeA : MetaStore where
  inodes := Function.update (Function.update (fun _ => none) .root
    (some Transaction.rootDir)) inoA (some dirA)
  dentries := Function.update (Function.update (fun _ => none) .root
    (some ((∅ : ChildList).insert [97] inoA))) inoA (some ∅)

theorem storeA_wellFormed : storeA.WellFormed where
  ino := by
    intro ino i hi
    unfold storeA at hi
    dsimp only at hi
    rcases eq_or_ne ino inoA with rfl | hne
    · cases hi
      rfl
    · rw [Function.update_of_ne hne] at hi
      rcases eq_or_ne ino .root with rfl | hne'
      · cases hi
        rfl
      · rw [Function.update_of_ne hne'] at hi
        cases hi
  noNil := by
    intro ino l name hl hnil
    unfold storeA at hl
    dsimp only at hl
    rcases eq_or_ne ino inoA with rfl | hne
    · rw [Function.update_self] at hl
      cases hl
      cases hnil
    · rw [Function.update_of_ne hne] at hl
      rcases eq_or_ne ino .root with rfl | hne'
      · rw [Function.update_self] at hl
        cases hl
        by_cases hname : name = [97]
        · subst hname
          rw [AList.lookup_insert] at hnil
          exact absurd hnil (by decide)
        · rw [AList.lookup_insert_ne hname] at hnil
          cases hnil
      · rw [Function.update_of_ne hne'] at hl
        cases hl

/-- A client that has loaded the root and "/a". -/
def loadedA : LoadedDir where
  own := .new dirA
  src := (DentryTable.new Transaction.rootDir).putChild [97] (dirA.setPIno .root)
  dst := .new (.new .root 0 0 (sIFDIR ||| 0o755) inoB ⟨1700000000, 0⟩)
  client := ⟨.new, 1000, 1000⟩
  queues := fun _ => []
  store := storeA
  data := .empty
  renamed := false

theorem loaded_loadedA : Loaded inoA [97] loadedA where
  store := storeA_wellFormed
  own := rfl
  isDir := by decide
  src := @Built.load storeA .root _ storeA_wellFormed rfl
  dst := .mkdir _
  listed := rfl
  srcNe := by decide
  dstNe := by decide
  notSelf := nofun
  journal := fun _ => rfl
  queues := fun _ => rfl
  renamed := rfl

/-- A change of the mode, the rename of "/a" to "/b", and then the transactions
of "/a" before those of the root. -/
def chmodThenRename (mode : UInt32) : List Act :=
  [.attr (.chmod mode) (⟨0, 0⟩, ⟨0, 0⟩),
    .renameSame [47, 97] [47, 98] 0 ⟨1700000001, 0⟩, .commit inoA,
    .commit .root, .checkpoint inoA, .checkpoint .root]

theorem lookup_of_isEmpty
    {j : Journal} (h : j.map.entries.isEmpty = true) (ino : Uuid) :
    j.map.lookup ino = none := by
  rw [List.isEmpty_iff] at h
  unfold AList.lookup
  rw [h]
  rfl

theorem update_drained
    {q : Uuid → List Transaction} {a b : Uuid} {l l' : List Transaction}
    (hq : ∀ ino, q ino = []) (ino : Uuid) :
    Function.update (Function.update (Function.update (Function.update q a l)
      b l') a []) b [] ino = [] := by
  rcases eq_or_ne ino b with rfl | hb
  · exact Function.update_self ..
  · rw [Function.update_of_ne hb]
    rcases eq_or_ne ino a with rfl | ha
    · exact Function.update_self ..
    · rw [Function.update_of_ne ha, Function.update_of_ne hb,
        Function.update_of_ne ha]
      exact hq ino

/-- With the mode that "/a" has already. -/
theorem renamed_keeps_mode :
    ∃ s', (step inoA [97]).runFrom loadedA (chmodThenRename 0o755) = some s' ∧
      (s'.store.inodes inoA).map Inode.core =
        some s'.own.thisDirInode.core := by
  refine ⟨_, rfl, ?_⟩
  refine @renamed_keeps_attributes inoA [97] loadedA _ (chmodThenRename 0o755)
    loaded_loadedA ?_ rfl ⟨?_, ?_⟩
  · refine .cons trivial rfl (.cons ?_ rfl (.cons trivial rfl (.cons trivial rfl
      (.cons trivial rfl (.cons trivial rfl trivial)))))
    intro i hi
    cases hi
    rfl
  · exact lookup_of_isEmpty (by decide)
  · intro ino
    dsimp only
    exact update_drained (fun _ => rfl) ino

/-- With another mode the INODE object gets the old one back. -/
theorem renamed_loses_mode :
    ∃ s', (step inoA [97]).runFrom loadedA (chmodThenRename 0o700) = some s' ∧
      s'.Drained ∧ s'.own.thisDirInode.core.mode = sIFDIR ||| 0o700 ∧
        (s'.store.inodes inoA).map (·.core.mode) = some (sIFDIR ||| 0o755) := by
  refine ⟨_, rfl, ⟨?_, ?_⟩, ?_, ?_⟩
  · exact lookup_of_isEmpty (by decide)
  · intro ino
    dsimp only
    exact update_drained (fun _ => rfl) ino
  · decide
  · decide

end Examples

end LoadedDir

end Nmfs
