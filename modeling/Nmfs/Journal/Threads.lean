import Nmfs.Journal.JournalTable
import Nmfs.Lib.Generations

/-!
# The journal and its threads

Any number of threads call the operations of `journal`.  An operation gets the
current transaction of the directory from `journal_table`, calls a method of it
under its mutex, and starts again if the method has returned -1.  Meanwhile the
commit thread takes the whole map with `replace_map`, and commits the
transactions in it one after the other: it sets `committed` under the mutex of
the transaction, and then writes its record.

`get_entry` looks for the transaction under the shared lock first, and makes one
under the unique lock if it has found none.

Transactions are numbered as they are made, and so are the calls.
-/

namespace Nmfs

/-- Where a call of an operation of `journal` is. -/
inductive Phase where
  | looking
  /-- the shared lock is given back, and nothing has been found -/
  | missed
  | holding (id : Nat)
  | returned
  | failed (e : Exn)
deriving DecidableEq

/-- A call of an operation of `journal` for the transaction of `ino`.  `before`
are the calls that had returned when it was made. -/
structure OpCall where
  ino : Uuid
  op : TxOp
  before : List Nat
  phase : Phase

/-- A transaction, and the calls whose methods have run on it before it was
committed. -/
structure Cell where
  tx : Transaction
  applied : List (Nat × TxOp)

def Cell.callers (cell : Cell) : List Nat := cell.applied.map Prod.fst

/-- The map of `journal_table`, the rest of the map that the commit thread has
taken, the transaction that it has marked but not written yet, and the records
that have been written. -/
structure JournalThreads where
  cells : List Cell
  map : AList (fun _ : Uuid => Nat)
  cycle : AList (fun _ : Uuid => Nat)
  current : Option Nat
  records : List (Nat × Transaction)
  calls : List OpCall

namespace JournalThreads

inductive Act where
  | call (ino : Uuid) (op : TxOp)
  | find (k : Nat)
  | insert (k : Nat)
  | run (k : Nat)
  | replaceMap
  | setCommitted (ino : Uuid)
  | write

def new : JournalThreads := ⟨[], ∅, ∅, none, [], []⟩

def setPhase (s : JournalThreads) (k : Nat) (phase : Phase) : JournalThreads :=
  { s with calls := s.calls.modify k fun c => { c with phase := phase } }

def setCell (s : JournalThreads) (id : Nat) (cell : Cell) : JournalThreads :=
  { s with cells := s.cells.set id cell }

/-- The calls that have returned. -/
def returned (s : JournalThreads) : List Nat :=
  (List.range s.calls.length).filter fun k =>
    (s.calls[k]?).any fun c => c.phase = .returned

/-- The transactions that have been committed, in order. -/
def commits (s : JournalThreads) : List Nat :=
  s.records.map Prod.fst ++ s.current.toList

/-- `get_entry`, under the shared lock -/
def findEntry (s : JournalThreads) (k : Nat) (ino : Uuid) : JournalThreads :=
  match s.map.lookup ino with
  | some id => s.setPhase k (.holding id)
  | none => s.setPhase k .missed

/-- `get_entry`, under the unique lock -/
def insertEntry (s : JournalThreads) (k : Nat) (ino : Uuid) : JournalThreads :=
  match s.map.lookup ino with
  | some id => s.setPhase k (.holding id)
  | none => { s with
      cells := s.cells ++ [(⟨.new ino, []⟩ : Cell)]
      map := s.map.insert ino s.cells.length
    }.setPhase k (.holding s.cells.length)

/-- The method of the transaction. -/
def runMethod (s : JournalThreads) (k id : Nat) (cell : Cell) (op : TxOp) :
    JournalThreads :=
  match op.apply cell.tx with
  | (.committed, _) => s.setPhase k .looking
  | (.done, tx) =>
      (s.setCell id ⟨tx, cell.applied ++ [(k, op)]⟩).setPhase k .returned
  | (.throws e, tx) =>
      (s.setCell id ⟨tx, cell.applied ++ [(k, op)]⟩).setPhase k (.failed e)

/-- `setCommitted` is the first part of `transaction::commit`, for any of the
transactions that are left.  A second commit would throw, and end the program. -/
def step : Stepper JournalThreads Act
  | s, .call ino op =>
      some { s with calls := s.calls ++ [⟨ino, op, s.returned, .looking⟩] }
  | s, .find k =>
      match s.calls[k]? with
      | some ⟨ino, _, _, .looking⟩ => some (s.findEntry k ino)
      | _ => none
  | s, .insert k =>
      match s.calls[k]? with
      | some ⟨ino, _, _, .missed⟩ => some (s.insertEntry k ino)
      | _ => none
  | s, .run k =>
      match s.calls[k]? with
      | some ⟨_, op, _, .holding id⟩ =>
          (s.cells[id]?).map fun cell => s.runMethod k id cell op
      | _ => none
  | s, .replaceMap =>
      if s.cycle.entries = [] ∧ s.current = none then
        some { s with map := ∅, cycle := s.map }
      else none
  | s, .setCommitted ino =>
      match s.current, s.cycle.lookup ino with
      | none, some id =>
          (s.cells[id]?).bind fun cell =>
            if cell.tx.committed then none
            else some { s.setCell id ⟨{ cell.tx with committed := true },
                cell.applied⟩ with
              cycle := s.cycle.erase ino
              current := some id }
      | _, _ => none
  | s, .write =>
      match s.current with
      | some id =>
          (s.cells[id]?).map fun cell => { s with
            current := none
            records := s.records ++ [(id, cell.tx)] }
      | none => none

/-- The transactions as objects of a map that is replaced. -/
def generations (s : JournalThreads) : Generations Uuid where
  owner := s.cells.map fun cell => cell.tx.sIno
  map := s.map
  batch := s.cycle
  retired := s.commits

section Frames

variable (s : JournalThreads) (k id : Nat) (phase : Phase) (cell : Cell)

@[simp] theorem setPhase_generations :
    (s.setPhase k phase).generations = s.generations := rfl

@[simp] theorem setPhase_cells : (s.setPhase k phase).cells = s.cells := rfl

@[simp] theorem setPhase_records :
    (s.setPhase k phase).records = s.records := rfl

@[simp] theorem setPhase_commits :
    (s.setPhase k phase).commits = s.commits := rfl

@[simp] theorem setCell_commits : (s.setCell id cell).commits = s.commits := rfl

@[simp] theorem setCell_calls : (s.setCell id cell).calls = s.calls := rfl

@[simp] theorem setCell_records :
    (s.setCell id cell).records = s.records := rfl

/-- A method does not move a transaction to another directory. -/
theorem setCell_generations
    {s : JournalThreads} {id : Nat} {cell cell' : Cell}
    (hcell : s.cells[id]? = some cell) (hino : cell'.tx.sIno = cell.tx.sIno) :
    (s.setCell id cell').generations = s.generations := by
  unfold generations setCell
  congr 1
  refine List.ext_getElem? fun n => ?_
  rw [List.getElem?_map, List.getElem?_map, List.getElem?_set]
  split
  · rename_i heq
    subst heq
    split
    · simp [hcell, hino]
    · rename_i hlen
      simp [List.getElem?_eq_none (Nat.le_of_not_lt hlen)]
  · rfl

end Frames

section View

/-- A new transaction. -/
def addEntry (s : JournalThreads) (ino : Uuid) : JournalThreads :=
  { s with
    cells := s.cells ++ [(⟨.new ino, []⟩ : Cell)]
    map := s.map.insert ino s.cells.length }

theorem insertEntry_of_some
    {s : JournalThreads} {k id : Nat} {ino : Uuid}
    (h : s.map.lookup ino = some id) :
    s.insertEntry k ino = s.setPhase k (.holding id) := by
  rw [insertEntry, h]

theorem insertEntry_of_none
    {s : JournalThreads} {k : Nat} {ino : Uuid} (h : s.map.lookup ino = none) :
    s.insertEntry k ino =
      (s.addEntry ino).setPhase k (.holding s.cells.length) := by
  rw [insertEntry, h]
  rfl

theorem create_generations
    {s : JournalThreads} {ino : Uuid} (h : s.map.lookup ino = none) :
    Generations.step s.generations (.create ino) =
      some (s.addEntry ino).generations := by
  simp [Generations.step, generations, addEntry, commits, h, Transaction.new]

theorem runMethod_generations
    {s : JournalThreads} {k id : Nat} {cell : Cell} {op : TxOp}
    (hcell : s.cells[id]? = some cell) :
    (s.runMethod k id cell op).generations = s.generations := by
  have hino : (op.apply cell.tx).2.sIno = cell.tx.sIno :=
    (op.apply_frame cell.tx).1
  unfold runMethod
  split
  · rfl
  · rename_i tx heq
    rw [setPhase_generations]
    exact setCell_generations hcell (by simpa [heq] using hino)
  · rename_i e tx heq
    rw [setPhase_generations]
    exact setCell_generations hcell (by simpa [heq] using hino)

/-- The threads are a machine whose map is replaced. -/
theorem contains_generations :
    Stepper.Contains step Generations.step generations := by
  intro s a s' hstep
  cases a with
  | call ino op =>
      cases hstep
      exact .inl rfl
  | find k =>
      simp only [step] at hstep
      split at hstep
      · cases hstep
        refine .inl ?_
        unfold findEntry
        split <;> rfl
      · cases hstep
  | insert k =>
      simp only [step] at hstep
      split at hstep
      · rename_i ino op before hcall
        cases hstep
        cases hino : s.map.lookup ino with
        | some id =>
            rw [insertEntry_of_some hino]
            exact .inl rfl
        | none =>
            rw [insertEntry_of_none hino]
            exact .inr ⟨.create ino, create_generations hino⟩
      · cases hstep
  | run k =>
      simp only [step] at hstep
      split at hstep
      · rename_i ino op before id hcall
        obtain ⟨cell, hcell, rfl⟩ := Option.map_eq_some_iff.mp hstep
        exact .inl (runMethod_generations hcell)
      · cases hstep
  | replaceMap =>
      simp only [step] at hstep
      split at hstep
      · rename_i hcycle
        cases hstep
        refine .inr ⟨.replace, ?_⟩
        simp [Generations.step, generations, commits, hcycle.1]
      · cases hstep
  | setCommitted ino =>
      simp only [step] at hstep
      split at hstep
      · rename_i id hcurrent hid
        obtain ⟨cell, hcell, hstep⟩ := Option.bind_eq_some_iff.mp hstep
        split at hstep
        · cases hstep
        · cases hstep
          refine .inr ⟨.retire ino, ?_⟩
          have howner := congrArg Generations.owner (@setCell_generations s id
            cell ⟨{ cell.tx with committed := true }, cell.applied⟩ hcell rfl)
          simp only [generations] at howner
          simp [Generations.step, generations, commits, hid, hcurrent, howner]
          rfl
      · cases hstep
  | write =>
      simp only [step] at hstep
      split at hstep
      · rename_i id hcurrent
        obtain ⟨cell, hcell, rfl⟩ := Option.map_eq_some_iff.mp hstep
        refine .inl ?_
        simp [generations, commits, hcurrent]
      · cases hstep

theorem generations_sound : step.Invariant fun s => s.generations.Sound :=
  Generations.sound_step.lift contains_generations

end View

end JournalThreads

end Nmfs
