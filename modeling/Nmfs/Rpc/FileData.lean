import Nmfs.Rados.FlatStore
import Nmfs.Rpc.ReadBack

/-!
# The data of a file

The size of a file is in its inode, at the leader of the directory, and its bytes
are in the data pool.  The leader writes the bytes and then changes the size; for
another client, the handler changes the size and the client writes the bytes.

Here both are one byte array: `FileStep.apply` says what an operation makes of it,
and whoever makes the operations, the size and the bytes follow it
(`file_is_bytes`).  Opening with `O_TRUNC` is not among the operations, since it
changes the size only.
-/

namespace Nmfs

open Bytes

/-- An operation on a file, by the leader of its directory or by another client. -/
inductive FileStep where
  | set (op : AttrOp) (remote : Bool) (clock : Timespec × Timespec)
  | write (remote : Bool) (buffer : Bytes) (offset : Nat) (flags : UInt32)

namespace FileStep

/-- The operation of `fuse_ops`, with its `catch` clauses. -/
def perform (name : Name) (s : AttrState) : FileStep → AttrResult
  | .set op false clock => EntryOp.attr (op.atLeader (.child name) clock s)
  | .set op true clock => EntryOp.attr (op.elsewhere (.child name) clock s)
  | .write false buffer offset flags =>
      EntryOp.attr (s.localWrite (.child name) buffer offset flags)
  | .write true buffer offset flags =>
      EntryOp.changes ((s.dir.table.remoteInode (.child name)).write s buffer offset flags)

/-- Where a write begins, if the file has these bytes. -/
def beginsAt (bs : Bytes) (offset : Nat) (flags : UInt32) : Nat :=
  if flagSet flags oAppend then bs.length else offset

/-- What an operation makes of the bytes. -/
def apply (bs : Bytes) : FileStep → Bytes
  | .set (.truncate size) _ _ => resize bs size
  | .set (.chmod _) _ _ | .set (.chown _ _) _ _ | .set (.utimens _) _ _ => bs
  | .write _ buffer offset flags => overwrite bs (beginsAt bs offset flags) buffer

/-- What it returns. -/
def returns : FileStep → Int
  | .set _ _ _ => 0
  | .write _ buffer _ _ => buffer.length

/-- The offsets do not overflow, and a mode has the type of the file, or none. -/
def InRange (bs : Bytes) : FileStep → Prop
  | .set (.truncate size) _ _ => size ≤ offEnd
  | .set (.chmod mode) _ _ => mode &&& sIFMT = 0 ∨ mode &&& sIFMT = sIFREG
  | .set (.chown _ _) _ _ | .set (.utimens _) _ _ => True
  | .write _ buffer offset flags => beginsAt bs offset flags + buffer.length ≤ offEnd

/-- All of the steps are in range, one after the other. -/
def AllInRange : List FileStep → Bytes → Prop
  | [], _ => True
  | step :: steps, bs => step.InRange bs ∧ AllInRange steps (step.apply bs)

/-- The answers, and the state at the end. -/
def performAll (name : Name) : List FileStep → AttrState → List (Outcome Exn Int) × AttrState
  | [], s => ([], s)
  | step :: steps, s =>
      let (o, s) := step.perform name s
      let (os, s) := performAll name steps s
      (o :: os, s)

/-- The object store behind an operation. -/
def store (key : Key) (f : FlatStore) : FileStep → FlatStore
  | .set (.truncate size) _ _ => f.truncate .DATA key size
  | .set (.chmod _) _ _ | .set (.chown _ _) _ _ | .set (.utimens _) _ _ => f
  | .write _ buffer offset flags =>
      f.write .DATA key buffer (beginsAt (f.content .DATA key) offset flags)

section Stores

variable {f : FlatStore} {key : Key}

theorem content_store (f : FlatStore) (key : Key) (step : FileStep) :
    (step.store key f).content .DATA key = step.apply (f.content .DATA key) := by
  match step with
  | .set (.truncate size) _ _ => exact FlatStore.content_truncate _ _ _ _
  | .set (.chmod _) _ _ => rfl
  | .set (.chown _ _) _ _ => rfl
  | .set (.utimens _) _ _ => rfl
  | .write _ _ _ _ => exact FlatStore.content_write _ _ _ _ _

/-- Nothing else is touched. -/
theorem store_of_ne
    {category : ObjCategory} {key' : Key} (h : ¬ (category = .DATA ∧ key' = key))
    (step : FileStep) : step.store key f category key' = f category key' := by
  match step with
  | .set (.truncate size) _ _ => exact FlatStore.truncate_of_ne h _
  | .set (.chmod _) _ _ => rfl
  | .set (.chown _ _) _ _ => rfl
  | .set (.utimens _) _ _ => rfl
  | .write _ _ _ _ => exact FlatStore.write_of_ne h _ _

theorem content_stores (f : FlatStore) (key : Key) (steps : List FileStep) :
    (steps.foldl (fun f step => step.store key f) f).content .DATA key =
      steps.foldl apply (f.content .DATA key) := by
  induction steps generalizing f with
  | nil => rfl
  | cons step steps ih =>
      rw [List.foldl_cons, List.foldl_cons, ih, content_store]

theorem stores_of_ne
    {category : ObjCategory} {key' : Key} (h : ¬ (category = .DATA ∧ key' = key))
    (steps : List FileStep) :
    steps.foldl (fun f step => step.store key f) f category key' = f category key' := by
  induction steps generalizing f with
  | nil => rfl
  | cons step steps ih => rw [List.foldl_cons, ih, store_of_ne h]

end Stores

end FileStep

/-- The inode of a file with so many bytes. -/
structure Inode.IsFile (i : Inode) (ino : Uuid) (size : Nat) : Prop where
  ino_eq : i.core.ino = ino
  reg : i.core.mode &&& sIFMT = sIFREG
  size_eq : i.core.size = Int64.ofNat size

/-- The name leads to the inode of a file, in both maps. -/
structure DentryTable.HasFile (t : DentryTable) (name : Name) (ino : Uuid)
    (size : Nat) : Prop where
  inode : ∃ i, t.targetInode (.child name) = some i ∧ i.IsFile ino size
  child : t.childIno name = some ino

/-- The size is that of the bytes. -/
structure AttrState.HoldsFile (s : AttrState) (name : Name) (ino : Uuid)
    (f : FlatStore) : Prop where
  entry : s.dir.table.HasFile name ino (f.content .DATA (uuidToString ino)).length
  data : Represents s.data f

section Files

variable {i i' : Inode} {t : DentryTable} {s : AttrState} {name : Name} {ino : Uuid}
  {f : FlatStore} {n size : Nat}

theorem size_toNat {n : Nat} (h : n ≤ offEnd) : (Int64.ofNat n).toUInt64.toNat = n := by
  have hlt : n < offMax := Nat.lt_of_le_of_lt h offEnd_lt_offMax
  rw [Int64.toUInt64_ofNat', UInt64.toNat_ofNat']
  refine Nat.mod_eq_of_lt (Nat.lt_trans hlt ?_)
  rw [offMax]
  decide

/-- A mask is applied to both. -/
theorem mode_or_and (a b mask : UInt32) : (a ||| b) &&& mask = (a &&& mask) ||| (b &&& mask) :=
  UInt32.toBitVec_inj.mp BitVec.and_or_distrib_right

namespace Inode.IsFile

theorem isDir (h : i.IsFile ino size) : i.core.isDir = false := by
  rw [Core.isDir, h.reg]
  decide

theorem setSize (h : i.IsFile ino n) : (i.setSize (Int64.ofNat size)).IsFile ino size :=
  ⟨h.ino_eq, h.reg, rfl⟩

/-- The type of the file stays. -/
theorem withMode
    (h : i.IsFile ino size) {mode : UInt32}
    (hmode : mode &&& sIFMT = 0 ∨ mode &&& sIFMT = sIFREG) :
    (i.withMode mode).IsFile ino size where
  ino_eq := h.ino_eq
  reg := by
    have hwith : (i.withMode mode).core.mode = mode ||| (i.core.mode &&& sIFMT) := rfl
    rw [hwith, h.reg, mode_or_and]
    rcases hmode with hmode | hmode <;> rw [hmode] <;> decide
  size_eq := h.size_eq

theorem withOwner (h : i.IsFile ino size) (uid gid : UInt32) :
    (i.withOwner uid gid).IsFile ino size := by
  unfold Inode.withOwner
  dsimp only
  split <;> split <;> exact ⟨h.ino_eq, h.reg, h.size_eq⟩

theorem withTimes (h : i.IsFile ino size) (atime mtime : Option Timespec) :
    (i.withTimes atime mtime).IsFile ino size := by
  cases atime <;> cases mtime <;> exact ⟨h.ino_eq, h.reg, h.size_eq⟩

end Inode.IsFile

theorem childIno_setTarget (t : DentryTable) (target : AttrTarget) (i : Inode)
    (name : Name) : (t.setTarget target i).childIno name = t.childIno name := by
  cases target with
  | self => rfl
  | child n =>
      unfold DentryTable.setTarget
      dsimp only
      split <;> rfl

/-- The inode of the file changes. -/
theorem DentryTable.HasFile.setTarget
    (h : t.HasFile name ino n) (hi : i'.IsFile ino size) :
    (t.setTarget (.child name) i').HasFile name ino size := by
  obtain ⟨i, hi₀, -⟩ := h.inode
  exact ⟨⟨i', AttrState.targetInode_setTarget hi₀, hi⟩,
    (childIno_setTarget t _ i' name).trans h.child⟩

/-- `path_traversal` makes a `remote_inode` with the number of the file. -/
theorem DentryTable.HasFile.remoteInode_ino (h : t.HasFile name ino size) :
    (t.remoteInode (.child name)).ino = ino := by
  rw [DentryTable.remoteInode, h.child, Option.getD_some]

namespace AttrState

theorem record_file
    (h : s.dir.table.HasFile name ino n) (hi : i'.IsFile ino size) :
    ∃ s', s.record (.child name) i' = (.ok 0, s') ∧
      s'.dir.table.HasFile name ino size ∧ s'.data = s.data := by
  obtain ⟨j, hj⟩ := s.record_ok (.child name) i'
  exact ⟨_, hj, h.setTarget hi, rfl⟩

theorem recordSize_file
    (h : s.dir.table.HasFile name ino n) (hi : i.IsFile ino n) (size : Nat) :
    ∃ s', s.recordSize (.child name) i size = (.ok 0, s') ∧
      s'.dir.table.HasFile name ino size ∧ s'.data = s.data := by
  obtain ⟨j, hj⟩ := s.recordSize_ok (.child name) i size
  exact ⟨_, hj, h.setTarget hi.setSize, rfl⟩

/-- The size is changed if a write ends behind it. -/
theorem recordSize_grows
    (h : s.dir.table.HasFile name ino n) (hi : i.IsFile ino n) (stop : Nat) :
    ∃ s', s'.dir.table.HasFile name ino (max stop n) ∧ s'.data = s.data ∧
      (n < stop → s.recordSize (.child name) i stop = (.ok 0, s')) ∧
      (¬ n < stop → s' = s) := by
  by_cases hlt : n < stop
  · obtain ⟨s', hs', hentry, hdata⟩ := recordSize_file h hi stop
    rw [Nat.max_eq_left (Nat.le_of_lt hlt)]
    exact ⟨s', hentry, hdata, fun _ => hs', fun hge => absurd hlt hge⟩
  · rw [Nat.max_eq_right (Nat.le_of_not_lt hlt)]
    exact ⟨s, h, rfl, fun hlt' => absurd hlt' hlt, fun _ => rfl⟩

namespace HoldsFile

theorem change
    (h : s.HoldsFile name ino f) {g : Inode → Inode}
    (hg : ∀ i size, i.IsFile ino size → (g i).IsFile ino size) :
    ∃ s', s.change (.child name) g = (.ok 0, s') ∧ s'.HoldsFile name ino f := by
  obtain ⟨i, hi, hfile⟩ := h.entry.inode
  obtain ⟨s', hs', hentry, hdata⟩ := record_file h.entry (hg i _ hfile)
  rw [AttrState.change, withTarget_of_some hi]
  exact ⟨s', hs', hentry, hdata ▸ h.data⟩

/-- The data come first. -/
theorem localTruncate
    (h : s.HoldsFile name ino f) (hsize : size ≤ offEnd) (now : Timespec) :
    ∃ s', s.localTruncate (.child name) size now = (.ok 0, s') ∧
      s'.HoldsFile name ino (f.truncate .DATA (uuidToString ino) size) := by
  obtain ⟨i, hi, hfile⟩ := h.entry.inode
  obtain ⟨p', hrun, hp'⟩ := h.data.run_truncate .DATA (uuidToString ino) hsize
  have hentry₀ : ({ s with data := p' } : AttrState).dir.table.HasFile name ino _ := h.entry
  have hfile' : (((i.setSize (Int64.ofNat size)).setMtime now).setCtime now).IsFile
      ino size := ⟨hfile.ino_eq, hfile.reg, rfl⟩
  obtain ⟨s', hs', hentry, hdata⟩ := record_file hentry₀ hfile'
  rw [AttrState.localTruncate, withTarget_of_some hi,
    if_neg (by rw [hfile.isDir]; decide), truncateData, hfile.ino_eq, hrun]
  dsimp only
  rw [hs']
  refine ⟨s', rfl, ?_, hdata ▸ hp'⟩
  rw [FlatStore.content_truncate, length_resize]
  exact hentry

/-- The size comes first. -/
theorem remoteTruncate
    (h : s.HoldsFile name ino f) (hsize : size ≤ offEnd) :
    ∃ s', s.remoteTruncate (s.dir.table.remoteInode (.child name)) size = (.ok 0, s') ∧
      s'.HoldsFile name ino (f.truncate .DATA (uuidToString ino) size) := by
  obtain ⟨i, hi, hfile⟩ := h.entry.inode
  obtain ⟨p', hrun, hp'⟩ := h.data.run_truncate .DATA (uuidToString ino) hsize
  have hfile' : (i.setSize (Int64.ofNat size)).IsFile ino size := hfile.setSize
  obtain ⟨s', hs', hentry, hdata⟩ := record_file h.entry hfile'
  have hhandler : s.rpcTruncate ⟨(s.dir.table.remoteInode (.child name)).fileName,
      (s.dir.table.remoteInode (.child name)).targetIsParent, size⟩ = (.ok 0, s') := by
    rw [rpcTruncate, target_remoteInode, withTarget_of_some hi,
      if_neg (by rw [hfile.isDir]; decide)]
    exact hs'
  rw [AttrState.remoteTruncate, hhandler, answered]
  dsimp only
  rw [if_pos rfl, truncateData, h.entry.remoteInode_ino, hdata, hrun]
  refine ⟨_, rfl, ?_, hp'⟩
  rw [FlatStore.content_truncate, length_resize]
  exact hentry

theorem writeOffset_eq
    (h : s.HoldsFile name ino f)
    (hfile : i.IsFile ino (f.content .DATA (uuidToString ino)).length) (offset : Nat)
    (flags : UInt32) : writeOffset i.core.size offset flags =
      FileStep.beginsAt (f.content .DATA (uuidToString ino)) offset flags := by
  rw [writeOffset, FileStep.beginsAt, hfile.size_eq, size_toNat (h.data.bounded _ _)]

/-- The sum of a `size_t` is that of the numbers. -/
theorem size_lt_iff
    (h : s.HoldsFile name ino f)
    (hfile : i.IsFile ino (f.content .DATA (uuidToString ino)).length) {stop : Nat}
    (hstop : stop ≤ offEnd) : i.core.size.toUInt64.toNat < stop % 2 ^ 64 ↔
      (f.content .DATA (uuidToString ino)).length < stop := by
  have hlt : stop < offMax := Nat.lt_of_le_of_lt hstop offEnd_lt_offMax
  have hmod : stop % 2 ^ 64 = stop :=
    Nat.mod_eq_of_lt (Nat.lt_trans hlt (by rw [offMax]; decide))
  rw [hfile.size_eq, size_toNat (h.data.bounded _ _), hmod]

theorem localWrite
    (h : s.HoldsFile name ino f) {buffer : Bytes} {offset : Nat} {flags : UInt32}
    (hrange : FileStep.beginsAt (f.content .DATA (uuidToString ino)) offset flags +
      buffer.length ≤ offEnd) :
    ∃ s', s.localWrite (.child name) buffer offset flags = (.ok buffer.length, s') ∧
      s'.HoldsFile name ino (f.write .DATA (uuidToString ino) buffer
        (FileStep.beginsAt (f.content .DATA (uuidToString ino)) offset flags)) := by
  obtain ⟨i, hi, hfile⟩ := h.entry.inode
  have hlt := h.size_lt_iff hfile hrange
  have hoff := h.writeOffset_eq hfile offset flags
  generalize FileStep.beginsAt (f.content .DATA (uuidToString ino)) offset flags = start
    at hrange hlt hoff ⊢
  obtain ⟨p', hrun, hp'⟩ := h.data.run_write .DATA (uuidToString ino) hrange
  have hentry₀ : ({ s with data := p' } : AttrState).dir.table.HasFile name ino _ := h.entry
  obtain ⟨s', hentry, hdata, hgrown, hstays⟩ :=
    recordSize_grows hentry₀ hfile (start + buffer.length)
  rw [← length_overwrite, ← FlatStore.content_write f .DATA] at hentry
  rw [AttrState.localWrite, withTarget_of_some hi]
  dsimp only
  rw [hoff, hfile.ino_eq, hrun]
  dsimp only
  by_cases hgrows : (f.content .DATA (uuidToString ino)).length < start + buffer.length
  · rw [if_pos (hlt.mpr hgrows), hgrown hgrows]
    exact ⟨s', rfl, hentry, hdata ▸ hp'⟩
  · rw [if_neg (fun hlt' => hgrows (hlt.mp hlt')), ← hstays hgrows]
    exact ⟨s', rfl, hentry, hdata ▸ hp'⟩

/-- The handler changes the size, and answers with the range. -/
theorem rpcWrite
    (h : s.HoldsFile name ino f) {len offset : Nat} {flags : UInt32}
    (hrange : FileStep.beginsAt (f.content .DATA (uuidToString ino)) offset flags + len ≤
      offEnd) :
    ∃ s', s.rpcWrite name offset len flags =
        (.ok ⟨0, FileStep.beginsAt (f.content .DATA (uuidToString ino)) offset flags, len⟩,
          s') ∧
      s'.dir.table.HasFile name ino
        (max (FileStep.beginsAt (f.content .DATA (uuidToString ino)) offset flags + len)
          (f.content .DATA (uuidToString ino)).length) ∧ s'.data = s.data := by
  obtain ⟨i, hi, hfile⟩ := h.entry.inode
  have hlookup : s.dir.table.childInodes.lookup name = some i := hi
  have hget : s.dir.table.getChildInode name = .ok i := by
    rw [DentryTable.getChildInode, hlookup]
  have hlt := h.size_lt_iff hfile hrange
  have hoff := h.writeOffset_eq hfile offset flags
  rw [writeOffset] at hoff
  generalize FileStep.beginsAt (f.content .DATA (uuidToString ino)) offset flags = start
    at hrange hlt hoff ⊢
  rw [AttrState.rpcWrite, hget]
  dsimp only
  rw [hoff]
  obtain ⟨s', hentry, hdata, hgrown, hstays⟩ := recordSize_grows h.entry hfile (start + len)
  refine ⟨s', ?_, hentry, hdata⟩
  by_cases hgrows : (f.content .DATA (uuidToString ino)).length < start + len
  · have hreg : s.recordReg name (i.setSize (Int64.ofNat (start + len))) = (.ok 0, s') :=
      hgrown hgrows
    rw [if_pos (hlt.mpr hgrows), hreg]
  · rw [if_neg (fun hlt' => hgrows (hlt.mp hlt')), hstays hgrows]

theorem remoteWrite
    (h : s.HoldsFile name ino f) {buffer : Bytes} {offset : Nat} {flags : UInt32}
    (hrange : FileStep.beginsAt (f.content .DATA (uuidToString ino)) offset flags +
      buffer.length ≤ offEnd) :
    ∃ s', (s.dir.table.remoteInode (.child name)).write s buffer offset flags =
        (.ok buffer.length, s') ∧
      s'.HoldsFile name ino (f.write .DATA (uuidToString ino) buffer
        (FileStep.beginsAt (f.content .DATA (uuidToString ino)) offset flags)) := by
  obtain ⟨s', hs', hentry, hdata⟩ := h.rpcWrite hrange
  obtain ⟨p', hrun, hp'⟩ := h.data.run_write .DATA (uuidToString ino) hrange
  have hname : (s.dir.table.remoteInode (.child name)).fileName = name := rfl
  rw [RemoteInode.write, hname, hs']
  dsimp only
  rw [h.entry.remoteInode_ino, List.take_length, hdata, hrun]
  refine ⟨_, rfl, ?_, hp'⟩
  rw [FlatStore.content_write, length_overwrite]
  exact hentry

/-- An operation returns, and the file follows it. -/
theorem step
    (h : s.HoldsFile name ino f) {step : FileStep}
    (hrange : step.InRange (f.content .DATA (uuidToString ino))) :
    ∃ s', step.perform name s = (.ok step.returns, s') ∧
      s'.HoldsFile name ino (step.store (uuidToString ino) f) := by
  match step with
  | .set (.chmod mode) false clock =>
      obtain ⟨s', hs', h'⟩ := h.change fun i size hi => hi.withMode hrange
      exact ⟨s', congrArg EntryOp.attr hs', h'⟩
  | .set (.chmod mode) true clock =>
      obtain ⟨s', hs', h'⟩ := h.change fun i size hi => hi.withMode hrange
      exact ⟨s', congrArg (fun x => EntryOp.attr (answered x)) hs', h'⟩
  | .set (.chown uid gid) false clock =>
      obtain ⟨s', hs', h'⟩ := h.change fun i size hi => hi.withOwner uid gid
      exact ⟨s', congrArg EntryOp.attr hs', h'⟩
  | .set (.chown uid gid) true clock =>
      obtain ⟨s', hs', h'⟩ := h.change fun i size hi => hi.withOwner uid gid
      exact ⟨s', congrArg (fun x => EntryOp.attr (answered x)) hs', h'⟩
  | .set (.utimens tv) false clock =>
      obtain ⟨s', hs', h'⟩ := h.change fun i size hi => hi.withTimes _ _
      exact ⟨s', congrArg EntryOp.attr hs', h'⟩
  | .set (.utimens tv) true clock =>
      obtain ⟨s', hs', h'⟩ := h.change fun i size hi => hi.withTimes _ _
      exact ⟨s', congrArg (fun x => EntryOp.attr (answered x)) hs', h'⟩
  | .set (.truncate size) false clock =>
      obtain ⟨s', hs', h'⟩ := h.localTruncate hrange clock.1
      exact ⟨s', congrArg EntryOp.attr hs', h'⟩
  | .set (.truncate size) true clock =>
      obtain ⟨s', hs', h'⟩ := h.remoteTruncate hrange
      exact ⟨s', congrArg EntryOp.attr hs', h'⟩
  | .write false buffer offset flags =>
      obtain ⟨s', hs', h'⟩ := h.localWrite hrange
      exact ⟨s', congrArg EntryOp.attr hs', h'⟩
  | .write true buffer offset flags =>
      obtain ⟨s', hs', h'⟩ := h.remoteWrite hrange
      exact ⟨s', congrArg EntryOp.changes hs', h'⟩

/-- So do all of them. -/
theorem run
    (h : s.HoldsFile name ino f) {steps : List FileStep}
    (hrange : FileStep.AllInRange steps (f.content .DATA (uuidToString ino))) :
    ∃ s', FileStep.performAll name steps s =
        (steps.map fun step => .ok step.returns, s') ∧
      s'.HoldsFile name ino
        (steps.foldl (fun f step => step.store (uuidToString ino) f) f) := by
  induction steps generalizing s f with
  | nil => exact ⟨s, rfl, h⟩
  | cons step steps ih =>
      obtain ⟨hstep, hrest⟩ := hrange
      obtain ⟨s₁, hs₁, h₁⟩ := h.step hstep
      rw [← FileStep.content_store] at hrest
      obtain ⟨s', hs', h'⟩ := ih h₁ hrest
      refine ⟨s', ?_, h'⟩
      rw [FileStep.performAll, hs₁]
      dsimp only
      rw [hs']
      rfl

end HoldsFile

/-- **A file is a byte array.**  Whoever makes the operations, each returns what it
should, the size in the inode is the number of the bytes, a read gives these, and
no other object has been touched. -/
theorem file_is_bytes
    (h : s.HoldsFile name ino f) {steps : List FileStep} {bs : Bytes}
    (hrange : FileStep.AllInRange steps (f.content .DATA (uuidToString ino)))
    (hbs : steps.foldl FileStep.apply (f.content .DATA (uuidToString ino)) = bs) :
    ∃ s' i, FileStep.performAll name steps s =
        (steps.map fun step => .ok step.returns, s') ∧
      s'.Has (.child name) i ∧ i.IsFile ino bs.length ∧
      (∀ len offset, offset + len ≤ offEnd →
        Delivers Pool.librados s'.data .DATA (uuidToString ino) len offset
          (slice bs offset len)) ∧
      ∃ f', Represents s'.data f' ∧ f'.content .DATA (uuidToString ino) = bs ∧
        ∀ category key, ¬ (category = .DATA ∧ key = uuidToString ino) →
          f' category key = f category key := by
  obtain ⟨s', hs', h'⟩ := h.run hrange
  have hcontent := FileStep.content_stores f (uuidToString ino) steps
  rw [hbs] at hcontent
  obtain ⟨i, hi, hfile⟩ := h'.entry.inode
  rw [hcontent] at hfile
  refine ⟨s', i, hs', hi, hfile, ?_, _, h'.data, hcontent, ?_⟩
  · intro len offset hend
    have hmax := Nat.lt_of_le_of_lt hend offEnd_lt_offMax
    have hreads := (Represents.delivers_iff (L := Pool.librados) h'.data .DATA
      (uuidToString ino) hmax).mpr (.inr (.inl hend))
    rw [hcontent] at hreads
    exact hreads
  · exact fun category key hne => FileStep.stores_of_ne hne steps

end AttrState

end Files

section Examples

open AttrState Directory

theorem fileLeader_holdsFile : fileLeader.HoldsFile [97] inoA FlatStore.empty where
  entry := ⟨⟨_, rfl, by decide, by decide, by decide⟩, by decide⟩
  data := Represents.empty

/-- Another client writes, the leader appends, and the file is cut. -/
def writeAppendCut : List FileStep :=
  [.write true [1, 2] 0 0, .write false [3, 4] 0 oAppend, .set (.truncate 3) true
    (⟨0, 0⟩, ⟨0, 0⟩)]

theorem file_is_bytes_writeAppendCut :
    ∃ s' i, FileStep.performAll [97] writeAppendCut fileLeader =
        ([.ok 2, .ok 2, .ok 0], s') ∧
      s'.Has (.child [97]) i ∧ i.IsFile inoA 3 ∧
      Delivers Pool.librados s'.data .DATA (uuidToString inoA) 4 0 [1, 2, 3] := by
  have hrange : FileStep.AllInRange writeAppendCut
      (FlatStore.empty.content .DATA (uuidToString inoA)) :=
    ⟨le_offEnd (by decide), le_offEnd (by decide), le_offEnd (by decide), trivial⟩
  have hbs : writeAppendCut.foldl FileStep.apply
      (FlatStore.empty.content .DATA (uuidToString inoA)) = [1, 2, 3] := by decide
  obtain ⟨s', i, hs', hi, hfile, hreads, -⟩ :=
    file_is_bytes fileLeader_holdsFile hrange hbs
  exact ⟨s', i, hs', hi, hfile, hreads 4 0 (le_offEnd (by decide))⟩

end Examples

end Nmfs
