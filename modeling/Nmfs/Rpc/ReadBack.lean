import Nmfs.Rpc.MissingEntry

/-!
# Attributes, as they are read back

A `stat` buffer is filled by `fill_stat`, or by `rpc_client::getattr` from a
response of `rpc_getattr`.  The two are written line by line, and both have the
same slip: the last line puts the nanoseconds of the change time into
`st_ctim.tv_sec`.  So `st_ctim.tv_nsec` keeps what the buffer has had.

What should be read is followed beside the inode: `AttrStep.effect` says on a
`stat` what an operation sets.
-/

namespace Nmfs

namespace Inode

/-- The seconds of `st_ctim` are set twice. -/
def fillStat (i : Inode) (s : Stat) : Stat where
  mode := i.core.mode
  uid := i.core.uid
  gid := i.core.gid
  ino := i.core.ino.getPostfixFromUuid
  nlink := i.core.nlink
  size := i.core.size
  atim := i.core.atime
  mtim := i.core.mtime
  ctim := ⟨i.core.ctime.nsec, s.ctim.nsec⟩

/-- The attributes of an inode, as a `stat` can report them. -/
def attributes (i : Inode) : Stat where
  mode := i.core.mode
  uid := i.core.uid
  gid := i.core.gid
  ino := i.core.ino.getPostfixFromUuid
  nlink := i.core.nlink
  size := i.core.size
  atim := i.core.atime
  mtim := i.core.mtime
  ctim := i.core.ctime

end Inode

/-- The handler's answer to a request for the target. -/
def AttrOp.handle (op : AttrOp) (target : AttrTarget) (clock : Timespec × Timespec)
    (s : AttrState) : AttrResult :=
  let i := s.dir.table.remoteInode target
  match op with
  | .chmod mode => s.rpcChmod ⟨i.fileName, i.targetIsParent, mode⟩
  | .chown uid gid => s.rpcChown ⟨i.fileName, i.targetIsParent, (uid, gid)⟩
  | .utimens tv => s.rpcUtimens ⟨i.fileName, i.targetIsParent, tv⟩ clock
  | .truncate offset => s.rpcTruncate ⟨i.fileName, i.targetIsParent, offset⟩

/-- Where a write begins. -/
def writeOffset (size : Int64) (offset : Nat) (flags : UInt32) : Nat :=
  if flagSet flags oAppend then size.toUInt64.toNat else offset

namespace AttrState

variable (s : AttrState)

def localGetattr (target : AttrTarget) (stat : Stat) : Outcome Exn Int × Stat :=
  match s.dir.table.chooseTarget target with
  | .error e => (.throws e, stat)
  | .ok i => (.ok 0, i.fillStat stat)

/-- The size of the target changes, and `chreg` is called. -/
def recordSize (target : AttrTarget) (i : Inode) (size : Nat) : AttrResult :=
  let i := i.setSize (Int64.ofNat size)
  s.inDir fun d =>
    ({ d with table := d.table.setTarget target i } : Directory).journalCall i.pIno
      (.chreg i) fun d => (.ret 0, d)

/-- The data are written first.  The sum of offset and size is that of a
`size_t`. -/
def localWrite (target : AttrTarget) (buffer : Bytes) (offset : Nat)
    (flags : UInt32) : AttrResult :=
  s.withTarget target fun i =>
    let offset := writeOffset i.core.size offset flags
    match (RadosIo.write .DATA (uuidToString i.core.ino) buffer offset).run
      Pool.handle s.data with
    | (.throws e, data) => (.throws e, { s with data := data })
    | (.faults f, data) => (.faults f, { s with data := data })
    | (.ok n, data) =>
        let s := { s with data := data }
        if i.core.size.toUInt64.toNat < (offset + buffer.length) % 2 ^ 64 then
          match s.recordSize target i (offset + buffer.length) with
          | (.ok _, s) => (.ok n, s)
          | x => x
        else (.ok n, s)

end AttrState

/-- An operation on the target, by its leader or by a handler for another
client. -/
inductive AttrStep where
  | set (op : AttrOp) (rpc : Bool) (clock : Timespec × Timespec)
  | write (rpc : Bool) (buffer : Bytes) (offset : Nat) (flags : UInt32)

namespace AttrStep

def perform (target : AttrTarget) (s : AttrState) : AttrStep → AttrResult
  | .set op false clock => op.atLeader target clock s
  | .set op true clock => op.handle target clock s
  | .write false buffer offset flags => s.localWrite target buffer offset flags
  | .write true buffer offset flags =>
      match s.rpcWrite (s.dir.table.remoteInode target).fileName offset
        buffer.length flags with
      | (.ok respond, s) => (.ok respond.ret, s)
      | (.throws e, s) => (.throws e, s)
      | (.faults f, s) => (.faults f, s)

/-- What an operation that returns sets.  The handler of `truncate` sets no
times, and that of `write` works on files and links only. -/
def effect (target : AttrTarget) : AttrStep → Stat → Stat
  | .set (.chmod mode) _ _, st => { st with mode := mode ||| (st.mode &&& sIFMT) }
  | .set (.chown uid gid) _ _, st => {
      st with
      uid := if uid.toNat < 2 ^ 31 then uid else st.uid
      gid := if gid.toNat < 2 ^ 31 then gid else st.gid }
  | .set (.utimens tv) _ clock, st => {
      st with
      atim := (Inode.chosenTime tv.1 clock.1).getD st.atim
      mtim := (Inode.chosenTime tv.2 clock.2).getD st.mtim }
  | .set (.truncate offset) rpc clock, st =>
      if st.mode &&& sIFMT = sIFDIR then st
      else if rpc then { st with size := Int64.ofNat offset }
      else {
        st with
        size := Int64.ofNat offset
        mtim := clock.1
        ctim := clock.1 }
  | .write rpc buffer offset flags, st =>
      let offset := writeOffset st.size offset flags
      if rpc && target = .self then st
      else if st.size.toUInt64.toNat < (offset + buffer.length) % 2 ^ 64 then
        { st with size := Int64.ofNat (offset + buffer.length) }
      else st

/-- An operation that does not return sets nothing. -/
def expect (target : AttrTarget) (step : AttrStep) :
    Outcome Exn Int → Stat → Stat
  | .ok _, st => step.effect target st
  | _, st => st

/-- The steps one after the other. -/
def performAll (target : AttrTarget) : List AttrStep → AttrState → AttrState
  | [], s => s
  | step :: steps, s => performAll target steps (step.perform target s).2

/-- What the steps set, from the attributes at the beginning. -/
def expectAll (target : AttrTarget) : List AttrStep → AttrState → Stat → Stat
  | [], _, st => st
  | step :: steps, s, st =>
      expectAll target steps (step.perform target s).2
        (step.expect target (step.perform target s).1 st)

end AttrStep

namespace AttrState

open Directory DentryTable

variable {s : AttrState} {target : AttrTarget} {i : Inode}

/-- The target is the inode `i`. -/
def Has (s : AttrState) (target : AttrTarget) (i : Inode) : Prop :=
  s.dir.table.targetInode target = some i

theorem record_has (hi : s.Has target i) (i' : Inode) :
    ∃ s', s.record target i' = (.ok 0, s') ∧ s'.Has target i' := by
  obtain ⟨j, hj⟩ := s.record_ok target i'
  exact ⟨_, hj, targetInode_setTarget hi⟩

theorem change_has (hi : s.Has target i) (f : Inode → Inode) :
    ∃ s', s.change target f = (.ok 0, s') ∧ s'.Has target (f i) := by
  obtain ⟨s', hs', hi'⟩ := record_has hi (f i)
  exact ⟨s', by rw [change, withTarget_of_some hi, hs'], hi'⟩

/-- The call of the journal is `chreg`, which does not throw. -/
theorem recordSize_ok (s : AttrState) (target : AttrTarget) (i : Inode) (size : Nat) :
    ∃ j, s.recordSize target i size = (.ok 0, { s with
      dir := { s.dir with
        table := s.dir.table.setTarget target (i.setSize (Int64.ofNat size))
        journal := j } }) := by
  have hcall := @journalCall_of_done
    { s.dir with table := s.dir.table.setTarget target (i.setSize (Int64.ofNat size)) }
    (i.setSize (Int64.ofNat size)).pIno (.chreg (i.setSize (Int64.ofNat size)))
    (fun d => (.ret 0, d))
    (Journal.call_keeps_done (.chreg (i.setSize (Int64.ofNat size))))
  unfold recordSize inDir
  simp only [hcall]
  exact ⟨_, rfl⟩

theorem recordSize_has (hi : s.Has target i) (size : Nat) :
    ∃ s', s.recordSize target i size = (.ok 0, s') ∧
      s'.Has target (i.setSize (Int64.ofNat size)) := by
  obtain ⟨j, hj⟩ := s.recordSize_ok target i size
  exact ⟨_, hj, targetInode_setTarget hi⟩

end AttrState

namespace AttrStep

open AttrState Inode

variable {s : AttrState} {target : AttrTarget} {i : Inode}

/-- The step has left an inode with the attributes that are expected. -/
def Left (target : AttrTarget) (step : AttrStep) (i : Inode) (x : AttrResult) :
    Prop :=
  ∃ i', x.2.Has target i' ∧ i'.attributes = step.expect target x.1 i.attributes

theorem attributes_withOwner (i : Inode) (uid gid : UInt32) :
    (i.withOwner uid gid).attributes = {
      i.attributes with
      uid := if uid.toNat < 2 ^ 31 then uid else i.core.uid
      gid := if gid.toNat < 2 ^ 31 then gid else i.core.gid } := by
  unfold withOwner
  dsimp only
  split <;> split <;> rfl

theorem attributes_withTimes (i : Inode) (atime mtime : Option Timespec) :
    (i.withTimes atime mtime).attributes = {
      i.attributes with
      atim := atime.getD i.core.atime
      mtim := mtime.getD i.core.mtime } := by
  cases atime <;> cases mtime <;> rfl

/-- `chmod`, `chown` and `utimens` do the same at the leader and in the
handler. -/
theorem left_change
    (hi : s.Has target i) {step : AttrStep} {f : Inode → Inode}
    (hf : (f i).attributes = step.effect target i.attributes) :
    step.Left target i (s.change target f) := by
  obtain ⟨s', hs', hi'⟩ := change_has hi f
  rw [hs']
  exact ⟨f i, hi', hf⟩

/-- The data change, and then the target if nothing has been thrown. -/
theorem left_truncate
    (hi : s.Has target i) (offset : Nat) (clock : Timespec × Timespec) :
    (AttrStep.set (.truncate offset) false clock).Left target i
      (s.localTruncate target offset clock.1) := by
  unfold localTruncate
  rw [withTarget_of_some hi]
  cases hdir : i.core.isDir with
  | true =>
      have hmode : i.core.mode &&& sIFMT = sIFDIR := of_decide_eq_true hdir
      exact ⟨i, hi, by simp [expect, effect, attributes, hmode]⟩
  | false =>
      have hmode : ¬ i.core.mode &&& sIFMT = sIFDIR := of_decide_eq_false hdir
      rw [if_neg (by simp), truncateData]
      rcases hrun : (RadosIo.truncate .DATA (uuidToString i.core.ino) offset).run
        Pool.handle s.data with ⟨o, data⟩
      have hi₁ : ({ s with data := data } : AttrState).Has target i := hi
      cases o with
      | throws e => exact ⟨i, hi₁, rfl⟩
      | faults x => exact ⟨i, hi₁, rfl⟩
      | ok n =>
          obtain ⟨s', hs', hi'⟩ := record_has hi₁
            (((i.setSize (Int64.ofNat offset)).setMtime clock.1).setCtime clock.1)
          dsimp only
          rw [hs']
          exact ⟨_, hi', by simp [expect, effect, attributes, hmode, setSize,
            setMtime, setCtime]⟩

theorem left_rpcTruncate
    (hi : s.Has target i) (offset : Nat) (clock : Timespec × Timespec) :
    (AttrStep.set (.truncate offset) true clock).Left target i
      ((AttrOp.truncate offset).handle target clock s) := by
  simp only [AttrOp.handle, rpcTruncate, target_remoteInode]
  rw [withTarget_of_some hi]
  cases hdir : i.core.isDir with
  | true =>
      have hmode : i.core.mode &&& sIFMT = sIFDIR := of_decide_eq_true hdir
      exact ⟨i, hi, by simp [expect, effect, attributes, hmode]⟩
  | false =>
      have hmode : ¬ i.core.mode &&& sIFMT = sIFDIR := of_decide_eq_false hdir
      obtain ⟨s', hs', hi'⟩ := record_has hi (i.setSize (Int64.ofNat offset))
      rw [if_neg (by simp), hs']
      exact ⟨_, hi', by simp [expect, effect, attributes, hmode, setSize]⟩

/-- The size grows, or stays. -/
theorem left_size
    (hi : s.Has target i) {step : AttrStep} {stop : Nat} {x : AttrResult}
    (hgrows : i.core.size.toUInt64.toNat < stop % 2 ^ 64 →
      ∃ n s', s.recordSize target i stop = (.ok 0, s') ∧ x = (.ok n, s'))
    (hstays : ¬ i.core.size.toUInt64.toNat < stop % 2 ^ 64 → ∃ n, x = (.ok n, s))
    (hstep : step.effect target i.attributes =
      if i.core.size.toUInt64.toNat < stop % 2 ^ 64 then
        { i.attributes with size := Int64.ofNat stop }
      else i.attributes) :
    step.Left target i x := by
  by_cases hlt : i.core.size.toUInt64.toNat < stop % 2 ^ 64
  · obtain ⟨n, s', hs', rfl⟩ := hgrows hlt
    obtain ⟨s'', hs'', hi'⟩ := recordSize_has hi stop
    obtain rfl : s'' = s' := (Prod.mk.inj (hs''.symm.trans hs')).2
    rw [if_pos hlt] at hstep
    exact ⟨_, hi', hstep.symm⟩
  · obtain ⟨n, rfl⟩ := hstays hlt
    rw [if_neg hlt] at hstep
    exact ⟨i, hi, hstep.symm⟩

theorem left_write
    (hi : s.Has target i) (buffer : Bytes) (offset : Nat) (flags : UInt32) :
    (AttrStep.write false buffer offset flags).Left target i
      (s.localWrite target buffer offset flags) := by
  unfold localWrite
  rw [withTarget_of_some hi]
  dsimp only
  rcases hrun : (RadosIo.write .DATA (uuidToString i.core.ino) buffer
    (writeOffset i.core.size offset flags)).run Pool.handle s.data with ⟨o, data⟩
  have hi₁ : ({ s with data := data } : AttrState).Has target i := hi
  cases o with
  | throws e => exact ⟨i, hi₁, rfl⟩
  | faults x => exact ⟨i, hi₁, rfl⟩
  | ok n =>
      dsimp only
      refine @left_size _ _ _ hi₁ _ (writeOffset i.core.size offset flags +
        buffer.length) _ ?_ ?_ rfl
      · intro hlt
        obtain ⟨s', hs', -⟩ := recordSize_has hi₁
          (writeOffset i.core.size offset flags + buffer.length)
        exact ⟨n, s', hs', by rw [if_pos hlt, hs']⟩
      · intro hlt
        exact ⟨n, by rw [if_neg hlt]⟩

theorem rpcWrite_ok
    {name : Name} (h : s.dir.table.getChildInode name = .ok i)
    (offset size : Nat) (flags : UInt32) :
    ∃ respond, s.rpcWrite name offset size flags = (.ok respond,
      if i.core.size.toUInt64.toNat <
          (writeOffset i.core.size offset flags + size) % 2 ^ 64 then
        (s.recordSize (.child name) i (writeOffset i.core.size offset flags + size)).2
      else s) := by
  obtain ⟨j, hj⟩ := s.recordSize_ok (.child name) i
    (writeOffset i.core.size offset flags + size)
  rw [hj]
  have hreg : s.recordReg name (i.setSize
      (Int64.ofNat (writeOffset i.core.size offset flags + size))) = _ := hj
  refine ⟨⟨0, writeOffset i.core.size offset flags, size⟩, ?_⟩
  unfold writeOffset at hreg ⊢
  unfold rpcWrite
  rw [h]
  dsimp only
  rw [hreg]
  split <;> split <;> rfl

/-- A request for the directory itself goes to a child. -/
theorem rpcWrite_self
    (s : AttrState) (name : Name) (offset size : Nat) (flags : UInt32) :
    (s.rpcWrite name offset size flags).2.dir.table.thisDirInode =
      s.dir.table.thisDirInode := by
  cases hget : s.dir.table.getChildInode name with
  | error e =>
      unfold rpcWrite
      rw [hget]
  | ok i =>
      obtain ⟨respond, hrespond⟩ := rpcWrite_ok hget offset size flags
      obtain ⟨j, hj⟩ := s.recordSize_ok (.child name) i
        (writeOffset i.core.size offset flags + size)
      rw [hrespond, hj]
      dsimp only
      split
      · dsimp only [DentryTable.setTarget]
        split <;> rfl
      · rfl

theorem left_rpcWrite
    (hi : s.Has target i) (buffer : Bytes) (offset : Nat) (flags : UInt32) :
    (AttrStep.write true buffer offset flags).Left target i
      ((AttrStep.write true buffer offset flags).perform target s) := by
  cases target with
  | self =>
      have hself := rpcWrite_self s [] offset buffer.length flags
      have hi' : (s.rpcWrite [] offset buffer.length flags).2.Has .self i :=
        (congrArg some hself).trans hi
      rw [perform, DentryTable.remoteInode]
      rcases hrun : s.rpcWrite [] offset buffer.length flags with ⟨o, s'⟩
      rw [hrun] at hi'
      cases o with
      | ok respond => exact ⟨i, hi', rfl⟩
      | throws e => exact ⟨i, hi', rfl⟩
      | faults x => exact ⟨i, hi', rfl⟩
  | child name =>
      have hget : s.dir.table.getChildInode name = .ok i := by
        have hlookup : s.dir.table.childInodes.lookup name = some i := hi
        rw [DentryTable.getChildInode, hlookup]
      obtain ⟨respond, hrespond⟩ := rpcWrite_ok hget offset buffer.length flags
      rw [perform, DentryTable.remoteInode, hrespond]
      dsimp only
      refine @left_size _ _ _ hi _ (writeOffset i.core.size offset flags +
        buffer.length) _ ?_ ?_ rfl
      · intro hlt
        obtain ⟨s', hs', -⟩ := recordSize_has hi
          (writeOffset i.core.size offset flags + buffer.length)
        exact ⟨respond.ret, s', hs', by rw [if_pos hlt, hs']⟩
      · intro hlt
        exact ⟨respond.ret, by rw [if_neg hlt]⟩

/-- A step sets what is expected. -/
theorem perform_left (hi : s.Has target i) (step : AttrStep) :
    step.Left target i (step.perform target s) := by
  match step with
  | .set (.chmod mode) false clock => exact left_change hi rfl
  | .set (.chown uid gid) false clock =>
      exact left_change hi (attributes_withOwner i uid gid)
  | .set (.utimens tv) false clock =>
      exact left_change hi (attributes_withTimes i _ _)
  | .set (.truncate offset) false clock => exact left_truncate hi offset clock
  | .set (.chmod mode) true clock =>
      simp only [perform, AttrOp.handle, rpcChmod, target_remoteInode]
      exact left_change hi rfl
  | .set (.chown uid gid) true clock =>
      simp only [perform, AttrOp.handle, rpcChown, target_remoteInode]
      exact left_change hi (attributes_withOwner i uid gid)
  | .set (.utimens tv) true clock =>
      simp only [perform, AttrOp.handle, rpcUtimens, target_remoteInode]
      exact left_change hi (attributes_withTimes i _ _)
  | .set (.truncate offset) true clock => exact left_rpcTruncate hi offset clock
  | .write false buffer offset flags => exact left_write hi buffer offset flags
  | .write true buffer offset flags => exact left_rpcWrite hi buffer offset flags

/-- So do the steps of a run. -/
theorem performAll_left (hi : s.Has target i) (steps : List AttrStep) :
    ∃ i', (performAll target steps s).Has target i' ∧
      i'.attributes = expectAll target steps s i.attributes := by
  induction steps generalizing s i with
  | nil => exact ⟨i, hi, rfl⟩
  | cons step steps ih =>
      obtain ⟨i₁, hi₁, hattr⟩ := perform_left hi step
      obtain ⟨i', hi', hrest⟩ := ih hi₁
      refine ⟨i', hi', ?_⟩
      rw [expectAll, ← hattr]
      exact hrest

/-- The two buffers after a run are equal, and report what has been set. -/
structure ReadsBack (s : AttrState) (target : AttrTarget) (i : Inode)
    (steps : List AttrStep) (stat : Stat) : Prop where
  equal : (((performAll target steps s).dir.table.remoteInode target).getattr
      (performAll target steps s) stat).2 =
    ((performAll target steps s).localGetattr target stat).2
  reports : ((performAll target steps s).localGetattr target stat).2 =
    expectAll target steps s i.attributes

theorem localGetattr_of_has (hi : s.Has target i) (stat : Stat) :
    s.localGetattr target stat = (.ok 0, i.fillStat stat) := by
  unfold localGetattr DentryTable.chooseTarget
  rw [show s.dir.table.targetInode target = some i from hi]

theorem getattr_of_has (hi : s.Has target i) (stat : Stat) :
    (s.dir.table.remoteInode target).getattr s stat = (.ok 0, i.fillStat stat) := by
  simp only [RemoteInode.getattr, DentryTable.rpcGetattr, target_remoteInode,
    DentryTable.chooseTarget, show s.dir.table.targetInode target = some i from hi]
  rfl

theorem fillStat_eq_iff (i : Inode) (stat : Stat) :
    i.fillStat stat = i.attributes ↔
      i.attributes.ctim.sec = i.attributes.ctim.nsec ∧
        stat.ctim.nsec = i.attributes.ctim.nsec := by
  have hset : i.fillStat stat = {
      i.attributes with
      ctim := ⟨i.core.ctime.nsec, stat.ctim.nsec⟩ } := rfl
  constructor
  · intro h
    have hctim : (⟨i.core.ctime.nsec, stat.ctim.nsec⟩ : Timespec) = i.core.ctime :=
      congrArg Stat.ctim h
    have hsec := congrArg Timespec.sec hctim
    have hnsec := congrArg Timespec.nsec hctim
    exact ⟨hsec.symm, hnsec⟩
  · rintro ⟨hsec, hnsec⟩
    have hctim : (⟨i.core.ctime.nsec, stat.ctim.nsec⟩ : Timespec) = i.core.ctime := by
      rw [hnsec]
      exact congrArg (Timespec.mk · i.core.ctime.nsec) hsec.symm
    rw [hset, hctim]
    rfl

/-- **Attributes read back.** After every run the two buffers are equal.  They
report what has been set exactly if the seconds of the change time are its
nanoseconds, and the buffer has had these already. -/
theorem attributes_read_back_iff
    {s : AttrState} {target : AttrTarget} {i : Inode} (hi : s.Has target i)
    (steps : List AttrStep) (stat : Stat) :
    (∃ i', (performAll target steps s).Has target i' ∧
      i'.attributes = expectAll target steps s i.attributes ∧
      (performAll target steps s).localGetattr target stat =
        (.ok 0, i'.fillStat stat) ∧
      ((performAll target steps s).dir.table.remoteInode target).getattr
        (performAll target steps s) stat = (.ok 0, i'.fillStat stat)) ∧
      (ReadsBack s target i steps stat ↔
        (expectAll target steps s i.attributes).ctim.sec =
            (expectAll target steps s i.attributes).ctim.nsec ∧
          stat.ctim.nsec = (expectAll target steps s i.attributes).ctim.nsec) := by
  obtain ⟨i', hi', hattr⟩ := performAll_left hi steps
  have hlocal := localGetattr_of_has hi' stat
  have hremote := getattr_of_has hi' stat
  refine ⟨⟨i', hi', hattr, hlocal, hremote⟩, ?_⟩
  rw [← hattr, ← fillStat_eq_iff]
  constructor
  · intro h
    have hreports := h.reports
    rw [hlocal, ← hattr] at hreports
    exact hreports
  · intro h
    exact ⟨by rw [hlocal, hremote], by rw [hlocal, ← hattr]; exact h⟩

section Examples

open Directory

/-- The buffer that FUSE passes. -/
def zeroStat : Stat := ⟨0, 0, 0, 0, 0, 0, ⟨0, 0⟩, ⟨0, 0⟩, ⟨0, 0⟩⟩

/-- The leader of a directory with the file `a`, which has been made at the
beginning of 1970. -/
def epochLeader : AttrState where
  dir := (emptyRoot.localCreate { requestFor inoA with born := ⟨0, 0⟩ }).2
  data := .empty

def epochFile : Inode :=
  (epochLeader.dir.table.targetInode (.child [97])).get (by decide)

/-- The file `a` of `fileLeader`, made at 1700000001 seconds. -/
def laterFile : Inode :=
  (fileLeader.dir.table.targetInode (.child [97])).get (by decide)

theorem attributes_read_back_epoch :
    ReadsBack epochLeader (.child [97]) epochFile
      [.set (.chmod 0o600) false (⟨0, 0⟩, ⟨0, 0⟩)] zeroStat :=
  (attributes_read_back_iff
    (show epochLeader.Has (.child [97]) epochFile from (Option.some_get _).symm)
    [.set (.chmod 0o600) false (⟨0, 0⟩, ⟨0, 0⟩)] zeroStat).2.mpr (by decide)

theorem attributes_not_read_back :
    fileLeader.Has (.child [97]) laterFile ∧
      ¬ ReadsBack fileLeader (.child [97]) laterFile
        [.set (.chmod 0o600) false (⟨0, 0⟩, ⟨0, 0⟩)] zeroStat := by
  refine ⟨(Option.some_get _).symm, ?_⟩
  intro h
  exact absurd (congrArg Stat.ctim h.reports) (by decide)

end Examples

end AttrStep

end Nmfs
