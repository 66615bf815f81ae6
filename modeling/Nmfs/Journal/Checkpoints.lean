import Nmfs.Journal.ExactlyOnce

/-!
# The commit thread and the checkpoint threads

The loop of `commit::operator()` tests the flag `stopped`, takes the map,
commits the transactions in it and puts each of them into one of the queues,
which is chosen by the inode number of the directory.  Behind the loop it puts
a null pointer into every queue.  A checkpoint thread takes what is in its queue
and ends with the null pointer.

`mqueue::issue` and `mqueue::dispatch` hold the mutex of the queue, so each is
one step.  A checkpoint that throws ends the program, and is not a step.
-/

namespace Nmfs

/-- `NUM_CP_THREAD` -/
def numCpThread : Nat := 8

/-- The queue of a directory: `*((uint64_t *)ino.data) % NUM_CP_THREAD` -/
def queueOf (ino : Uuid) : Nat :=
  Bytes.leNat (ino.data.take 8) % numCpThread

/-- Where the commit thread is. -/
inductive CommitPhase where
  /-- asleep, and then about to test the flag -/
  | sleeping
  /-- the flag was not set -/
  | awake
  /-- in the loop over the map -/
  | looping
  /-- the transaction is committed, but not in its queue yet -/
  | issuing (id : Nat)
  /-- behind the loop, with the null pointers of the first queues issued -/
  | ending (n : Nat)
deriving DecidableEq

/-- The transaction that is committed but not issued. -/
def CommitPhase.unissued : CommitPhase → List Nat
  | .issuing id => [id]
  | _ => []

/-- The number of queues whose null pointer has been issued. -/
def CommitPhase.sentinels : CommitPhase → Nat
  | .ending n => n
  | _ => 0

/-- The thread can be behind the loop over the map. -/
def CommitPhase.Idle : CommitPhase → Prop
  | .sleeping | .awake | .ending _ => True
  | .looping | .issuing _ => False

inductive Worker where
  | waiting
  | working (id : Nat)
  | ended
deriving DecidableEq

/-- The transaction that a checkpoint thread works on. -/
def Worker.current : Worker → List Nat
  | .working id => [id]
  | .waiting | .ended => []

/-- What a checkpoint thread does with what it has been handed. -/
def Worker.ofValue : Option Nat → Worker
  | some id => .working id
  | none => .ended

/-- `issued` and `checkpointed` are the transactions that have been put into the
queues, and those that are done.  `offset` has what `commit` has stored in the
transactions.  `stopped` has the calls that had returned when the destructor set
the flag. -/
structure Checkpoints where
  journal : JournalThreads
  offset : Nat → Option Nat
  phase : CommitPhase
  queues : Nat → List (Option Nat)
  workers : Nat → Worker
  issued : List Nat
  checkpointed : Nat → List Nat
  stopped : Option (List Nat)

namespace JournalThreads

/-- The steps of the threads that call the operations. -/
def Act.isOperation : Act → Bool
  | .call _ _ | .find _ | .insert _ | .run _ => true
  | .replaceMap | .setCommitted _ | .write => false

section Steps

variable {s s' : JournalThreads}

/-- The calls of the operations leave the commit thread alone. -/
theorem step_operation
    {a : Act} (ha : a.isOperation) (hstep : step s a = some s') :
    s'.records = s.records ∧ s'.current = s.current ∧ s'.cycle = s.cycle := by
  cases a with
  | call ino op =>
      cases hstep
      exact ⟨rfl, rfl, rfl⟩
  | find k =>
      simp only [step] at hstep
      split at hstep
      · cases hstep
        unfold findEntry
        split <;> exact ⟨rfl, rfl, rfl⟩
      · cases hstep
  | insert k =>
      simp only [step] at hstep
      split at hstep
      · cases hstep
        unfold insertEntry
        split <;> exact ⟨rfl, rfl, rfl⟩
      · cases hstep
  | run k =>
      simp only [step] at hstep
      split at hstep
      · obtain ⟨cell, hcell, rfl⟩ := Option.map_eq_some_iff.mp hstep
        unfold runMethod
        split <;> exact ⟨rfl, rfl, rfl⟩
      · cases hstep
  | replaceMap => cases ha
  | setCommitted ino => cases ha
  | write => cases ha

theorem step_replaceMap (hstep : step s .replaceMap = some s') :
    s.cycle.entries = [] ∧ s.current = none ∧
      s' = { s with map := ∅, cycle := s.map } := by
  simp only [step] at hstep
  split at hstep
  · rename_i h
    cases hstep
    exact ⟨h.1, h.2, rfl⟩
  · cases hstep

theorem step_setCommitted
    {ino : Uuid} (hstep : step s (.setCommitted ino) = some s') :
    s.current = none ∧ ∃ id cell, s.cycle.lookup ino = some id ∧
      s.cells[id]? = some cell ∧ cell.tx.committed = false ∧
      s' = { s.setCell id ⟨{ cell.tx with committed := true }, cell.applied⟩ with
        cycle := s.cycle.erase ino
        current := some id } := by
  simp only [step] at hstep
  split at hstep
  · rename_i id hcurrent hid
    obtain ⟨cell, hcell, hstep⟩ := Option.bind_eq_some_iff.mp hstep
    split at hstep
    · cases hstep
    · rename_i hopen
      cases hstep
      exact ⟨hcurrent, id, cell, hid, hcell, by simpa using hopen, rfl⟩
  · cases hstep

theorem step_write (hstep : step s .write = some s') :
    ∃ id cell, s.current = some id ∧ s.cells[id]? = some cell ∧
      s' = { s with
        current := none
        records := s.records ++ [(id, cell.tx)] } := by
  simp only [step] at hstep
  split at hstep
  · rename_i id hcurrent
    obtain ⟨cell, hcell, rfl⟩ := Option.map_eq_some_iff.mp hstep
    exact ⟨id, cell, hcurrent, hcell, rfl⟩
  · cases hstep

/-- A transaction stays with its directory. -/
theorem owner_mono
    {a : Act} (hstep : step s a = some s') {id : Nat} {ino : Uuid}
    (h : s.generations.owner[id]? = some ino) :
    s'.generations.owner[id]? = some ino := by
  rcases contains_generations s a s' hstep with heq | ⟨b, hb⟩
  · rw [heq, h]
  · exact Generations.owner_mono hb h

end Steps

end JournalThreads

namespace Checkpoints

open JournalThreads (Act)

inductive Step where
  | operation (a : Act)
  | stop
  | testStop
  | replaceMap
  | setCommitted (ino : Uuid)
  | write (objSize : Nat)
  | issue
  | endLoop
  | sentinel
  | dispatch (i : Nat)
  | checkpoint (i : Nat)

def new : Checkpoints where
  journal := .new
  offset _ := none
  phase := .sleeping
  queues _ := []
  workers _ := .waiting
  issued := []
  checkpointed _ := []
  stopped := none

/-- The journal takes a step. -/
def advance (s : Checkpoints) (a : Act) (phase : CommitPhase) :
    Option Checkpoints :=
  (JournalThreads.step s.journal a).map fun journal =>
    { s with journal := journal, phase := phase }

def push (s : Checkpoints) (i : Nat) (value : Option Nat) (phase : CommitPhase) :
    Checkpoints :=
  { s with
    queues := Function.update s.queues i (s.queues i ++ [value])
    phase := phase }

def step : Stepper Checkpoints Step
  | s, .operation a => if a.isOperation then s.advance a s.phase else none
  | s, .stop =>
      match s.stopped with
      | none => some { s with stopped := some s.journal.returned }
      | some _ => none
  | s, .testStop =>
      match s.phase with
      | .sleeping =>
          some { s with
            phase := if s.stopped.isSome then .ending 0 else .awake }
      | _ => none
  | s, .replaceMap =>
      if s.phase = .awake then s.advance .replaceMap .looping else none
  | s, .setCommitted ino =>
      if s.phase = .looping then s.advance (.setCommitted ino) .looping else none
  | s, .write objSize =>
      match s.phase, s.journal.current with
      | .looping, some id => (s.advance .write (.issuing id)).map fun s' =>
          { s' with offset := Function.update s.offset id (some objSize) }
      | _, _ => none
  | s, .issue =>
      match s.phase with
      | .issuing id => (s.journal.cells[id]?).map fun cell =>
          { s.push (queueOf cell.tx.sIno) (some id) .looping with
            issued := s.issued ++ [id] }
      | _ => none
  | s, .endLoop =>
      if s.phase = .looping ∧ s.journal.cycle.entries = [] ∧
          s.journal.current = none then
        some { s with phase := .sleeping }
      else none
  | s, .sentinel =>
      match s.phase with
      | .ending n =>
          if n < numCpThread then some (s.push n none (.ending (n + 1)))
          else none
      | _ => none
  | s, .dispatch i =>
      if i < numCpThread ∧ s.workers i = .waiting then
        match s.queues i with
        | [] => none
        | x :: q => some { s with
            queues := Function.update s.queues i q
            workers := Function.update s.workers i (.ofValue x) }
      else none
  | s, .checkpoint i =>
      match s.workers i with
      | .working id => some { s with
          workers := Function.update s.workers i .waiting
          checkpointed :=
            Function.update s.checkpointed i (s.checkpointed i ++ [id]) }
      | _ => none

/-- The transaction is one of a directory of this queue. -/
def inQueue (s : Checkpoints) (i id : Nat) : Bool :=
  (s.journal.cells[id]?).any fun cell => queueOf cell.tx.sIno = i

/-- The transaction is one of the directory. -/
def owns (s : Checkpoints) (ino : Uuid) (id : Nat) : Bool :=
  (s.journal.cells[id]?).any fun cell => cell.tx.sIno = ino

/-- The transactions that a checkpoint thread has been handed. -/
def dispatched (s : Checkpoints) (i : Nat) : List Nat :=
  s.checkpointed i ++ (s.workers i).current

/-- What has been put into a queue. -/
def pushed (s : Checkpoints) (i : Nat) : List (Option Nat) :=
  (s.issued.filter (s.inQueue i)).map some ++
    if i < s.phase.sentinels then [none] else []

/-- What has been taken out of a queue. -/
def taken (s : Checkpoints) (i : Nat) : List (Option Nat) :=
  (s.dispatched i).map some ++ if s.workers i = .ended then [none] else []

/-- What holds in every state. -/
structure Inv (s : Checkpoints) : Prop where
  journal : s.journal.Inv
  issued : s.journal.records.map Prod.fst = s.issued ++ s.phase.unissued
  current : s.phase ≠ .looping → s.journal.current = none
  cycle : s.phase.Idle → s.journal.cycle.entries = []
  fifo : ∀ i, s.pushed i = s.taken i ++ s.queues i
  offset : ∀ id ∈ s.journal.records.map Prod.fst, (s.offset id).isSome

theorem inv_new : Inv new where
  journal := JournalThreads.inv_new
  issued := rfl
  current _ := rfl
  cycle _ := rfl
  fifo i := by simp [new, pushed, taken, dispatched, Worker.current,
    CommitPhase.sentinels]
  offset := by simp [new, JournalThreads.new]

section Steps

variable {s : Checkpoints}

theorem inQueue_eq_true {i id : Nat} :
    s.inQueue i id = true ↔
      ∃ ino, s.journal.generations.owner[id]? = some ino ∧ queueOf ino = i := by
  simp [inQueue, JournalThreads.generations, Option.any_eq_true]

theorem owns_eq_true {ino : Uuid} {id : Nat} :
    s.owns ino id = true ↔ s.journal.generations.owner[id]? = some ino := by
  simp [owns, JournalThreads.generations, Option.any_eq_true]

/-- What is committed is a transaction of some directory. -/
theorem Inv.committed_owner
    (hi : s.Inv) {id : Nat} (h : id ∈ s.journal.commits) :
    ∃ ino, s.journal.generations.owner[id]? = some ino :=
  ⟨_, List.getElem?_eq_getElem (hi.journal.sound.retired_owner id h)⟩

theorem Inv.issued_committed
    (hi : s.Inv) {id : Nat} (h : id ∈ s.issued) : id ∈ s.journal.commits := by
  refine List.mem_append_left _ ?_
  rw [hi.issued]
  exact List.mem_append_left _ h

/-- A step of the journal moves nothing to another queue. -/
theorem Inv.inQueue_advance
    (hi : s.Inv) {a : Act} {journal : JournalThreads}
    (hstep : JournalThreads.step s.journal a = some journal) {i id : Nat}
    (hid : id ∈ s.journal.commits) :
    ({ s with journal := journal }).inQueue i id = s.inQueue i id := by
  obtain ⟨ino, hino⟩ := hi.committed_owner hid
  have hino' := JournalThreads.owner_mono hstep hino
  rw [Bool.eq_iff_iff, inQueue_eq_true, inQueue_eq_true, hino, hino']

/-- The queues do not see a step of the journal. -/
theorem Inv.fifo_advance
    (hi : s.Inv) {a : Act} {journal : JournalThreads}
    (hstep : JournalThreads.step s.journal a = some journal)
    {offset : Nat → Option Nat} {phase : CommitPhase}
    (hphase : phase.sentinels = s.phase.sentinels) (i : Nat) :
    ({ s with journal := journal, offset := offset, phase := phase }).pushed i =
      s.taken i ++ s.queues i := by
  have hfilter : s.issued.filter (({ s with journal := journal }).inQueue i) =
      s.issued.filter (s.inQueue i) := by
    refine List.filter_congr ?_
    intro id hid
    exact hi.inQueue_advance hstep (hi.issued_committed hid)
  rw [← hi.fifo i]
  simp only [pushed, hphase]
  exact congrArg (fun l => l.map some ++ _) hfilter

theorem Inv.operation
    (hi : s.Inv) {a : Act} (ha : a.isOperation) {s' : Checkpoints}
    (hstep : s.advance a s.phase = some s') : Inv s' := by
  obtain ⟨journal, hjstep, rfl⟩ := Option.map_eq_some_iff.mp hstep
  obtain ⟨hrecords, hcurrent, hcycle⟩ := JournalThreads.step_operation ha hjstep
  refine ⟨JournalThreads.inv_step _ _ _ hi.journal hjstep, ?_, ?_, ?_, ?_, ?_⟩
  · rw [hrecords]
    exact hi.issued
  · rw [hcurrent]
    exact hi.current
  · rw [hcycle]
    exact hi.cycle
  · exact hi.fifo_advance hjstep rfl
  · rw [hrecords]
    exact hi.offset

theorem Inv.replaceMap
    (hi : s.Inv) (hphase : s.phase = .awake) {s' : Checkpoints}
    (hstep : s.advance .replaceMap .looping = some s') : Inv s' := by
  obtain ⟨journal, hjstep, rfl⟩ := Option.map_eq_some_iff.mp hstep
  have hjournal := JournalThreads.inv_step _ _ _ hi.journal hjstep
  have hfifo := @Inv.fifo_advance s hi _ _ hjstep s.offset .looping
    (by rw [hphase]; rfl)
  obtain ⟨-, -, rfl⟩ := JournalThreads.step_replaceMap hjstep
  refine ⟨hjournal, ?_, fun h => absurd rfl h, nofun, hfifo, hi.offset⟩
  have hissued := hi.issued
  rw [hphase] at hissued
  exact hissued

theorem Inv.setCommitted
    (hi : s.Inv) (hphase : s.phase = .looping) {ino : Uuid} {s' : Checkpoints}
    (hstep : s.advance (.setCommitted ino) .looping = some s') : Inv s' := by
  obtain ⟨journal, hjstep, rfl⟩ := Option.map_eq_some_iff.mp hstep
  have hjournal := JournalThreads.inv_step _ _ _ hi.journal hjstep
  have hfifo := @Inv.fifo_advance s hi _ _ hjstep s.offset .looping
    (by rw [hphase])
  obtain ⟨-, id, cell, -, -, -, rfl⟩ := JournalThreads.step_setCommitted hjstep
  refine ⟨hjournal, ?_, fun h => absurd rfl h, nofun, hfifo, hi.offset⟩
  have hissued := hi.issued
  rw [hphase] at hissued
  exact hissued

theorem Inv.write
    (hi : s.Inv) (hphase : s.phase = .looping) {id objSize : Nat}
    (hid : s.journal.current = some id) {s' : Checkpoints}
    (hstep : s.advance .write (.issuing id) = some s') :
    Inv { s' with offset := Function.update s.offset id (some objSize) } := by
  obtain ⟨journal, hjstep, rfl⟩ := Option.map_eq_some_iff.mp hstep
  have hjournal := JournalThreads.inv_step _ _ _ hi.journal hjstep
  have hfifo := @Inv.fifo_advance s hi _ _ hjstep
    (Function.update s.offset id (some objSize)) (.issuing id)
    (by rw [hphase]; rfl)
  obtain ⟨id', cell, hid', -, rfl⟩ := JournalThreads.step_write hjstep
  cases hid.symm.trans hid'
  refine ⟨hjournal, ?_, fun _ => rfl, nofun, hfifo, ?_⟩
  · have hissued := hi.issued
    rw [hphase] at hissued
    simpa [CommitPhase.unissued] using hissued
  · intro id' hmem
    rcases eq_or_ne id' id with rfl | hne
    · simp
    · have hold : id' ∈ s.journal.records.map Prod.fst := by
        simpa [hne] using hmem
      simpa [Function.update_of_ne hne] using hi.offset id' hold

theorem Inv.issue
    (hi : s.Inv) {id : Nat} (hphase : s.phase = .issuing id) {cell : Cell}
    (hcell : s.journal.cells[id]? = some cell) :
    Inv { s.push (queueOf cell.tx.sIno) (some id) .looping with
      issued := s.issued ++ [id] } := by
  have hissued := hi.issued
  rw [hphase] at hissued
  refine ⟨hi.journal, ?_, fun h => absurd rfl h, nofun, ?_, hi.offset⟩
  · simpa [push, CommitPhase.unissued] using hissued
  · intro i
    have hfifo := hi.fifo i
    simp only [pushed, hphase, CommitPhase.sentinels, Nat.not_lt_zero, if_false,
      List.append_nil] at hfifo
    have hin : s.inQueue i id = decide (queueOf cell.tx.sIno = i) := by
      simp [inQueue, hcell]
    have hpushed : (s.issued ++ [id]).filter (s.inQueue i) =
        s.issued.filter (s.inQueue i) ++
          if queueOf cell.tx.sIno = i then [id] else [] := by
      rw [List.filter_append]
      simp [List.filter_cons, hin]
    change ((s.issued ++ [id]).filter (s.inQueue i)).map some ++ [] =
      s.taken i ++ Function.update s.queues (queueOf cell.tx.sIno) _ i
    rw [hpushed, List.map_append, hfifo]
    rcases eq_or_ne i (queueOf cell.tx.sIno) with rfl | hne
    · simp
    · simp [Function.update_of_ne hne, Ne.symm hne]

theorem Inv.sentinel
    (hi : s.Inv) {n : Nat} (hphase : s.phase = .ending n) :
    Inv (s.push n none (.ending (n + 1))) := by
  have hissued := hi.issued
  have hcycle := hi.cycle
  rw [hphase] at hissued hcycle
  refine ⟨hi.journal, hissued, ?_, hcycle, ?_, hi.offset⟩
  · intro _
    exact hi.current (by simp [hphase])
  · intro i
    have hfifo := hi.fifo i
    simp only [pushed, hphase, CommitPhase.sentinels] at hfifo
    change (s.issued.filter (s.inQueue i)).map some ++
      (if i < n + 1 then [none] else []) =
        s.taken i ++ Function.update s.queues n _ i
    rcases eq_or_ne i n with rfl | hne
    · simp only [Nat.lt_irrefl, if_false, List.append_nil] at hfifo
      simp [hfifo]
    · have hiff : i < n + 1 ↔ i < n := by omega
      simp only [hiff, Function.update_of_ne hne]
      exact hfifo

/-- A phase that holds nothing is left for another one. -/
theorem Inv.setPhase
    (hi : s.Inv) {phase : CommitPhase}
    (hunissued : phase.unissued = s.phase.unissued)
    (hsentinels : phase.sentinels = s.phase.sentinels)
    (hcurrent : s.journal.current = none)
    (hcycle : s.journal.cycle.entries = []) :
    Inv { s with phase := phase } where
  journal := hi.journal
  issued := hi.issued.trans (congrArg _ hunissued.symm)
  current _ := hcurrent
  cycle _ := hcycle
  fifo i := by
    refine Eq.trans ?_ (hi.fifo i)
    simp only [pushed, hsentinels]
    rfl
  offset := hi.offset

theorem Inv.dispatch
    (hi : s.Inv) {i : Nat} (hworker : s.workers i = .waiting) {x : Option Nat}
    {q : List (Option Nat)} (hqueue : s.queues i = x :: q) :
    Inv { s with
      queues := Function.update s.queues i q
      workers := Function.update s.workers i (.ofValue x) } := by
  refine ⟨hi.journal, hi.issued, hi.current, hi.cycle, ?_, hi.offset⟩
  intro j
  refine (hi.fifo j).trans ?_
  rcases eq_or_ne j i with rfl | hne
  · cases x <;>
      simp [taken, dispatched, Worker.current, Worker.ofValue, hworker, hqueue]
  · simp [taken, dispatched, Function.update_of_ne hne]

theorem Inv.checkpoint
    (hi : s.Inv) {i id : Nat} (hworker : s.workers i = .working id) :
    Inv { s with
      workers := Function.update s.workers i .waiting
      checkpointed :=
        Function.update s.checkpointed i (s.checkpointed i ++ [id]) } := by
  refine ⟨hi.journal, hi.issued, hi.current, hi.cycle, ?_, hi.offset⟩
  intro j
  refine (hi.fifo j).trans ?_
  rcases eq_or_ne j i with rfl | hne
  · simp [taken, dispatched, Worker.current, hworker]
  · simp [taken, dispatched, Function.update_of_ne hne]

theorem inv_step : step.Invariant Inv := by
  intro s a s' hi hstep
  cases a with
  | operation a =>
      simp only [step] at hstep
      split at hstep
      · rename_i ha
        exact hi.operation ha hstep
      · cases hstep
  | stop =>
      simp only [step] at hstep
      split at hstep
      · cases hstep
        exact ⟨hi.journal, hi.issued, hi.current, hi.cycle, hi.fifo, hi.offset⟩
      · cases hstep
  | testStop =>
      simp only [step] at hstep
      split at hstep
      · rename_i hphase
        cases hstep
        have hcurrent := hi.current (by simp [hphase])
        have hcycle := hi.cycle (by simp [hphase, CommitPhase.Idle])
        split
        · exact hi.setPhase (by rw [hphase]; rfl) (by rw [hphase]; rfl)
            hcurrent hcycle
        · exact hi.setPhase (by rw [hphase]; rfl) (by rw [hphase]; rfl)
            hcurrent hcycle
      · cases hstep
  | replaceMap =>
      simp only [step] at hstep
      split at hstep
      · rename_i hphase
        exact hi.replaceMap hphase hstep
      · cases hstep
  | setCommitted ino =>
      simp only [step] at hstep
      split at hstep
      · rename_i hphase
        exact hi.setCommitted hphase hstep
      · cases hstep
  | write objSize =>
      simp only [step] at hstep
      split at hstep
      · rename_i id hphase hid
        obtain ⟨s₁, hadvance, rfl⟩ := Option.map_eq_some_iff.mp hstep
        exact hi.write hphase hid hadvance
      · cases hstep
  | issue =>
      simp only [step] at hstep
      split at hstep
      · rename_i id hphase
        obtain ⟨cell, hcell, rfl⟩ := Option.map_eq_some_iff.mp hstep
        exact hi.issue hphase hcell
      · cases hstep
  | endLoop =>
      simp only [step] at hstep
      split at hstep
      · rename_i h
        cases hstep
        exact hi.setPhase (by rw [h.1]; rfl) (by rw [h.1]; rfl) h.2.2 h.2.1
      · cases hstep
  | sentinel =>
      simp only [step] at hstep
      split at hstep
      · rename_i n hphase
        split at hstep
        · cases hstep
          exact hi.sentinel hphase
        · cases hstep
      · cases hstep
  | dispatch i =>
      simp only [step] at hstep
      split at hstep
      · rename_i h
        split at hstep
        · cases hstep
        · rename_i x q hqueue
          cases hstep
          exact hi.dispatch h.2 hqueue
      · cases hstep
  | checkpoint i =>
      simp only [step] at hstep
      split at hstep
      · rename_i id hworker
        cases hstep
        exact hi.checkpoint hworker
      · cases hstep

theorem inv_run {as : List Step} (h : step.runFrom new as = some s) : s.Inv :=
  inv_step.runFrom inv_new h

/-- What has been taken out of a queue comes first in it, and nothing comes
behind the null pointer. -/
theorem prefix_of_pushed
    {l m : List Nat} {q : List (Option Nat)} {p r : Prop} [Decidable p]
    [Decidable r]
    (h : l.map some ++ (if p then [none] else []) =
      m.map some ++ (if r then [none] else []) ++ q) :
    m <+: l ∧ (r → m = l) := by
  induction m generalizing l with
  | nil =>
      refine ⟨List.nil_prefix, ?_⟩
      intro hr
      cases l with
      | nil => rfl
      | cons a l => simp [hr] at h
  | cons a m ih =>
      cases l with
      | nil =>
          simp only [List.map_nil, List.nil_append, List.map_cons,
            List.cons_append] at h
          split at h <;> cases h
      | cons b l =>
          simp only [List.map_cons, List.cons_append, List.cons.injEq,
            Option.some.injEq] at h
          obtain ⟨rfl, hrest⟩ := h
          obtain ⟨hpre, heq⟩ := ih hrest
          refine ⟨(List.cons_prefix_cons).mpr ⟨rfl, hpre⟩, ?_⟩
          intro hr
          rw [heq hr]

/-- What a checkpoint thread has been handed comes first in its queue. -/
theorem Inv.dispatched_issued (hi : s.Inv) (i : Nat) :
    s.dispatched i <+: s.issued.filter (s.inQueue i) :=
  (prefix_of_pushed (hi.fifo i)).1

/-- A checkpoint thread that has ended has done all that was in its queue. -/
theorem Inv.checkpointed_ended
    (hi : s.Inv) {i : Nat} (h : s.workers i = .ended) :
    s.checkpointed i = s.issued.filter (s.inQueue i) := by
  rw [← (prefix_of_pushed (hi.fifo i)).2 h, dispatched, h]
  simp [Worker.current]

/-- The null pointer of a queue comes from the end of the commit thread. -/
theorem Inv.ending_of_ended
    (hi : s.Inv) {i : Nat} (h : s.workers i = .ended) :
    ∃ n, s.phase = .ending n := by
  have hfifo := hi.fifo i
  have hsent : i < s.phase.sentinels := by
    by_contra hnot
    have hin : none ∈ s.pushed i := by
      rw [hfifo]
      simp [taken, h]
    simp [pushed, hnot] at hin
  cases hphase : s.phase with
  | ending n => exact ⟨n, rfl⟩
  | sleeping | awake | looping => simp [hphase, CommitPhase.sentinels] at hsent
  | issuing id => simp [hphase, CommitPhase.sentinels] at hsent

theorem Inv.nodup_issued (hi : s.Inv) : s.issued.Nodup := by
  have hnodup : s.journal.commits.Nodup := hi.journal.sound.nodup
  rw [JournalThreads.commits, hi.issued] at hnodup
  exact hnodup.of_append_left.of_append_left

theorem Inv.mem_records
    (hi : s.Inv) {i id : Nat} (h : id ∈ s.dispatched i) :
    id ∈ s.journal.records.map Prod.fst := by
  rw [hi.issued]
  exact List.mem_append_left _
    (List.mem_filter.mp ((hi.dispatched_issued i).subset h)).1

theorem Inv.inQueue_of_dispatched
    (hi : s.Inv) {i id : Nat} (h : id ∈ s.dispatched i) :
    s.inQueue i id = true :=
  (List.mem_filter.mp ((hi.dispatched_issued i).subset h)).2

theorem queueOf_of_owns
    {i id : Nat} {ino : Uuid} (hin : s.inQueue i id = true)
    (hown : s.owns ino id = true) : queueOf ino = i := by
  obtain ⟨ino', hino', rfl⟩ := inQueue_eq_true.mp hin
  cases (owns_eq_true.mp hown).symm.trans hino'
  rfl

/-- The transactions of a directory leave its queue in the order of the
records. -/
theorem Inv.owned_in_order (hi : s.Inv) (ino : Uuid) :
    (s.checkpointed (queueOf ino)).filter (s.owns ino) <+:
      (s.journal.records.map Prod.fst).filter (s.owns ino) := by
  have hchk : s.checkpointed (queueOf ino) <+:
      s.issued.filter (s.inQueue (queueOf ino)) :=
    (List.prefix_append _ _).trans (hi.dispatched_issued _)
  have hown : (s.issued.filter (s.inQueue (queueOf ino))).filter (s.owns ino) =
      s.issued.filter (s.owns ino) := by
    rw [List.filter_filter]
    refine List.filter_congr ?_
    intro id _
    rw [Bool.and_eq_left_iff_imp]
    intro h
    exact inQueue_eq_true.mpr ⟨ino, owns_eq_true.mp h, rfl⟩
  rw [hi.issued, List.filter_append]
  refine (hchk.filter _).trans ?_
  rw [hown]
  exact List.prefix_append _ _

theorem Inv.all_checkpointed
    (hi : s.Inv) (hended : ∀ i < numCpThread, s.workers i = .ended) {id : Nat}
    (h : id ∈ s.journal.commits) : ∃ i < numCpThread, id ∈ s.checkpointed i := by
  obtain ⟨n, hphase⟩ := hi.ending_of_ended (hended 0 (by decide))
  have hcurrent := hi.current (by simp [hphase])
  have hissued := hi.issued
  rw [hphase] at hissued
  rw [JournalThreads.commits, hcurrent, hissued] at h
  have hid : id ∈ s.issued := by simpa [CommitPhase.unissued] using h
  obtain ⟨ino, hino⟩ := hi.committed_owner (hi.issued_committed hid)
  have hlt : queueOf ino < numCpThread := Nat.mod_lt _ (by decide)
  refine ⟨queueOf ino, hlt, ?_⟩
  rw [hi.checkpointed_ended (hended _ hlt)]
  exact List.mem_filter.mpr ⟨hid, inQueue_eq_true.mpr ⟨ino, hino, rfl⟩⟩

/-- In every state of every run: a transaction is handed to one checkpoint
thread, once, after its own commit has stored the offset; the transactions of a
directory are checkpointed in the order in which they have been committed; and
when the checkpoint threads have ended, all that has been committed is
checkpointed. -/
theorem checkpointed_once_in_order
    {as : List Step} (hrun : step.runFrom new as = some s) :
    (∀ i, (s.dispatched i).Nodup) ∧
    (∀ i j id, id ∈ s.dispatched i → id ∈ s.dispatched j → i = j) ∧
    (∀ i, ∀ id ∈ s.dispatched i,
      id ∈ s.journal.records.map Prod.fst ∧ (s.offset id).isSome) ∧
    (∀ i ino, ∀ id ∈ s.dispatched i, s.owns ino id = true → i = queueOf ino) ∧
    (∀ ino, (s.checkpointed (queueOf ino)).filter (s.owns ino) <+:
      (s.journal.records.map Prod.fst).filter (s.owns ino)) ∧
    ((∀ i < numCpThread, s.workers i = .ended) →
      ∀ id ∈ s.journal.commits, ∃ i < numCpThread, id ∈ s.checkpointed i) := by
  have hi := inv_run hrun
  refine ⟨?_, ?_, ?_, ?_, hi.owned_in_order, fun h _ => hi.all_checkpointed h⟩
  · intro i
    exact (hi.nodup_issued.filter _).sublist (hi.dispatched_issued i).sublist
  · intro i j id hid hid'
    obtain ⟨ino, hino, rfl⟩ :=
      inQueue_eq_true.mp (hi.inQueue_of_dispatched hid)
    exact queueOf_of_owns (hi.inQueue_of_dispatched hid') (owns_eq_true.mpr hino)
  · intro i id hid
    exact ⟨hi.mem_records hid, hi.offset id (hi.mem_records hid)⟩
  · intro i ino id hid hown
    exact (queueOf_of_owns (hi.inQueue_of_dispatched hid) hown).symm

/-- A call that returns during the first sleep. -/
def oneCall : List Step :=
  [.operation (.call .root .rmself), .operation (.find 0),
    .operation (.insert 0), .operation (.run 0)]

/-- The same call, and a cycle of the commit thread. -/
def oneCycle : List Step :=
  oneCall ++ [.testStop, .replaceMap, .setCommitted .root, .write 0, .issue,
    .dispatch (queueOf .root), .checkpoint (queueOf .root), .endLoop]

/-- The destructor, with all the threads that it joins. -/
def shutdown : List Step :=
  [.stop, .testStop] ++ List.replicate numCpThread .sentinel ++
    (List.range numCpThread).map .dispatch

theorem checkpointed_once_cycle :
    ∃ s, step.runFrom new (oneCycle ++ shutdown) = some s ∧
      ∃ i < numCpThread, 0 ∈ s.checkpointed i := by
  refine ⟨_, rfl, ?_⟩
  have hlast := (@checkpointed_once_in_order _ (oneCycle ++ shutdown)
    rfl).2.2.2.2.2
  exact hlast (by decide) 0 (by decide)

end Steps

end Checkpoints

end Nmfs
