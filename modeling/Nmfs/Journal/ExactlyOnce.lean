import Nmfs.Journal.Threads
import Mathlib.Data.List.Induction

/-!
# Every operation takes effect exactly once

Whatever the threads and the commit thread do in between, a call that has
returned has taken effect on exactly one transaction, once, and before that
transaction was committed.  So the record that is written for the transaction
has the effects of all its calls.  The calls of one directory that follow each
other are committed in this order.

This does not depend on what the methods record: a call that has thrown counts,
too, and what it has recorded before is committed.
-/

namespace Nmfs

/-- The call does nothing any more. -/
def Phase.Done : Phase → Prop
  | .returned | .failed _ => True
  | .looking | .missed | .holding _ => False

namespace TxOp

/-- A committed transaction is left alone. -/
theorem apply_of_committed
    (op : TxOp) {tx : Transaction} (h : tx.committed = true) :
    op.apply tx = (.committed, tx) := by
  cases op <;>
    simp [apply, h, Transaction.mkself, Transaction.rmself, Transaction.chself,
      Transaction.mkdir, Transaction.rmdir, Transaction.mvdir,
      Transaction.mkreg, Transaction.rmreg, Transaction.mvreg,
      Transaction.chreg]

/-- The methods of some calls, one after the other on a new transaction. -/
def replay (ino : Uuid) (ops : List TxOp) : Transaction :=
  ops.foldl (fun tx op => (op.apply tx).2) (.new ino)

theorem replay_append
    (ino : Uuid) (ops : List TxOp) (op : TxOp) :
    replay ino (ops ++ [op]) = (op.apply (replay ino ops)).2 := by
  rw [replay, List.foldl_append]
  rfl

theorem replay_frame (ino : Uuid) (ops : List TxOp) :
    (replay ino ops).sIno = ino ∧ (replay ino ops).committed = false := by
  induction ops using List.reverseRecOn with
  | nil => exact ⟨rfl, rfl⟩
  | append_singleton ops op ih =>
      rw [replay_append]
      obtain ⟨hino, hcommitted⟩ := op.apply_frame (replay ino ops)
      exact ⟨hino.trans ih.1, hcommitted.trans ih.2⟩

end TxOp

namespace JournalThreads

/-- What holds in every state. -/
structure Inv (s : JournalThreads) : Prop where
  sound : s.generations.Sound
  flags : ∀ (id : Nat) (cell : Cell), s.cells[id]? = some cell →
    (cell.tx.committed = true ↔ id ∈ s.commits)
  content : ∀ (id : Nat) (cell : Cell), s.cells[id]? = some cell → cell.tx =
    { TxOp.replay cell.tx.sIno (cell.applied.map Prod.snd) with
      committed := cell.tx.committed }
  written : ∀ r ∈ s.records, ∃ cell : Cell, s.cells[r.1]? = some cell ∧ cell.tx = r.2
  applied : ∀ (id : Nat) (cell : Cell), s.cells[id]? = some cell → ∀ k op,
    (k, op) ∈ cell.applied → ∃ c : OpCall, s.calls[k]? = some c ∧
      c.ino = cell.tx.sIno ∧ c.op = op ∧ c.phase.Done
  holding : ∀ (k : Nat) (c : OpCall), s.calls[k]? = some c → ∀ id, c.phase = .holding id →
    ∃ cell : Cell, s.cells[id]? = some cell ∧ cell.tx.sIno = c.ino
  once : ∀ (id : Nat) (cell : Cell), s.cells[id]? = some cell → cell.callers.Nodup
  unique : ∀ (id : Nat) (cell : Cell), s.cells[id]? = some cell →
    ∀ (id' : Nat) (cell' : Cell), s.cells[id']? = some cell' →
      ∀ k ∈ cell.callers, k ∈ cell'.callers → id = id'
  effective : ∀ (k : Nat) (c : OpCall), s.calls[k]? = some c → c.phase.Done →
    ∃ (id : Nat) (cell : Cell), s.cells[id]? = some cell ∧ k ∈ cell.callers
  before_returned : ∀ (k : Nat) (c : OpCall), s.calls[k]? = some c → ∀ j ∈ c.before,
    ∃ b : OpCall, s.calls[j]? = some b ∧ b.phase = .returned
  before_le : ∀ (k : Nat) (c : OpCall), s.calls[k]? = some c → ∀ j ∈ c.before,
    ∀ (id : Nat) (cell : Cell), s.cells[id]? = some cell → cell.tx.sIno = c.ino →
      j ∈ cell.callers →
        (∀ id', c.phase = .holding id' → id ≤ id') ∧
        ∀ (id' : Nat) (cell' : Cell), s.cells[id']? = some cell' → k ∈ cell'.callers → id ≤ id'

theorem inv_new : Inv new where
  sound := Generations.sound_new
  flags := by simp [new]
  content := by simp [new]
  written := by simp [new]
  applied := by simp [new]
  holding := by simp [new]
  once := by simp [new]
  unique := by simp [new]
  effective := by simp [new]
  before_returned := by simp [new]
  before_le := by simp [new]

section Updates

variable {s : JournalThreads}

theorem setPhase_calls
    {k j : Nat} {phase : Phase} {c' : OpCall}
    (h : (s.setPhase k phase).calls[j]? = some c') :
    ∃ c, s.calls[j]? = some c ∧ c'.ino = c.ino ∧ c'.op = c.op ∧
      c'.before = c.before ∧
      (j = k ∧ c'.phase = phase ∨ j ≠ k ∧ c'.phase = c.phase) := by
  simp only [setPhase, List.getElem?_modify, Option.map_eq_map,
    Option.map_eq_some_iff] at h
  obtain ⟨c, hc, rfl⟩ := h
  refine ⟨c, hc, ?_⟩
  split
  · rename_i heq
    exact ⟨rfl, rfl, rfl, .inl ⟨heq.symm, rfl⟩⟩
  · rename_i hne
    exact ⟨rfl, rfl, rfl, .inr ⟨Ne.symm hne, rfl⟩⟩

theorem calls_setPhase_ne
    {k j : Nat} {phase : Phase} {c : OpCall} (hne : j ≠ k)
    (h : s.calls[j]? = some c) : (s.setPhase k phase).calls[j]? = some c := by
  simp [setPhase, h, Ne.symm hne]

theorem setCell_cells
    {id id' : Nat} {cell cell' cell₀ : Cell} (hcell : s.cells[id]? = some cell₀)
    (h : (s.setCell id cell).cells[id']? = some cell') :
    id' = id ∧ cell' = cell ∨ id' ≠ id ∧ s.cells[id']? = some cell' := by
  rw [setCell, List.getElem?_set] at h
  split at h
  · rename_i heq
    subst heq
    rw [if_pos (List.getElem?_eq_some_iff.mp hcell).1] at h
    exact .inl ⟨rfl, (Option.some.inj h).symm⟩
  · rename_i hne
    exact .inr ⟨Ne.symm hne, h⟩

theorem cells_setCell_self
    {id : Nat} {cell cell₀ : Cell} (hcell : s.cells[id]? = some cell₀) :
    (s.setCell id cell).cells[id]? = some cell := by
  rw [setCell, List.getElem?_set, if_pos rfl,
    if_pos (List.getElem?_eq_some_iff.mp hcell).1]

theorem cells_setCell_ne
    {id id' : Nat} {cell : Cell} (hne : id' ≠ id) :
    (s.setCell id cell).cells[id']? = s.cells[id']? := by
  rw [setCell, List.getElem?_set, if_neg (Ne.symm hne)]

theorem mem_callers {cell : Cell} {k : Nat} :
    k ∈ cell.callers ↔ ∃ op, (k, op) ∈ cell.applied := by
  simp [Cell.callers]

theorem Inv.owner
    {id : Nat} {cell : Cell} (hcell : s.cells[id]? = some cell) :
    s.generations.owner[id]? = some cell.tx.sIno := by
  simp [generations, hcell]

theorem Inv.cell_of_map
    (hi : s.Inv) {ino : Uuid} {id : Nat} (h : s.map.lookup ino = some id) :
    ∃ cell, s.cells[id]? = some cell ∧ cell.tx.sIno = ino := by
  have howner := hi.sound.map_owner ino id h
  simp only [generations, List.getElem?_map, Option.map_eq_some_iff] at howner
  exact howner

/-- A call that has not taken effect is in no transaction. -/
theorem Inv.not_applied
    (hi : s.Inv) {k : Nat} {c : OpCall} (hc : s.calls[k]? = some c)
    (hdone : ¬ c.phase.Done) {id : Nat} {cell : Cell}
    (hcell : s.cells[id]? = some cell) : k ∉ cell.callers := by
  intro hmem
  obtain ⟨op, hop⟩ := mem_callers.mp hmem
  obtain ⟨c', hc', -, -, hdone'⟩ := hi.applied id cell hcell k op hop
  rw [hc] at hc'
  cases hc'
  exact hdone hdone'

theorem Inv.call (hi : s.Inv) (ino : Uuid) (op : TxOp) :
    Inv { s with calls := s.calls ++ [⟨ino, op, s.returned, .looking⟩] } := by
  have hold : ∀ (k : Nat) (c : OpCall), s.calls[k]? = some c →
      (s.calls ++ [⟨ino, op, s.returned, .looking⟩])[k]? = some c := by
    intro k c hc
    rw [List.getElem?_append_left (List.getElem?_eq_some_iff.mp hc).1, hc]
  have hnew : ∀ (k : Nat) (c : OpCall),
      (s.calls ++ [⟨ino, op, s.returned, .looking⟩])[k]? = some c →
        s.calls[k]? = some c ∨
          k = s.calls.length ∧ c = ⟨ino, op, s.returned, .looking⟩ := by
    intro k c hc
    rcases Nat.lt_trichotomy k s.calls.length with hlt | rfl | hgt
    · rw [List.getElem?_append_left hlt] at hc
      exact .inl hc
    · simp only [List.getElem?_concat_length, Option.some.injEq] at hc
      exact .inr ⟨rfl, hc.symm⟩
    · rw [List.getElem?_eq_none (by simp; omega)] at hc
      cases hc
  have hreturned : ∀ j ∈ s.returned,
      ∃ b : OpCall, s.calls[j]? = some b ∧ b.phase = .returned := by
    intro j hj
    simp only [returned, List.mem_filter, List.mem_range,
      Option.any_eq_true, decide_eq_true_eq] at hj
    exact hj.2
  refine { hi with
    applied := ?_, holding := ?_, effective := ?_, before_returned := ?_,
    before_le := ?_ }
  · intro id cell hcell k op' hop
    obtain ⟨c, hc, hrest⟩ := hi.applied id cell hcell k op' hop
    exact ⟨c, hold k c hc, hrest⟩
  · intro k c hc id hid
    rcases hnew k c hc with hc | ⟨rfl, rfl⟩
    · exact hi.holding k c hc id hid
    · cases hid
  · intro k c hc hdone
    rcases hnew k c hc with hc | ⟨rfl, rfl⟩
    · exact hi.effective k c hc hdone
    · cases hdone
  · intro k c hc j hj
    have hb : ∃ b : OpCall, s.calls[j]? = some b ∧ b.phase = .returned := by
      rcases hnew k c hc with hc | ⟨rfl, rfl⟩
      · exact hi.before_returned k c hc j hj
      · exact hreturned j hj
    obtain ⟨b, hb, hphase⟩ := hb
    exact ⟨b, hold j b hb, hphase⟩
  · intro k c hc j hj id cell hcell hino hmem
    rcases hnew k c hc with hc | ⟨rfl, rfl⟩
    · exact hi.before_le k c hc j hj id cell hcell hino hmem
    · refine ⟨?_, ?_⟩
      · rintro _ ⟨⟩
      -- nothing has been done for the new call
      intro id' cell' hcell' hmem'
      obtain ⟨op', hop'⟩ := mem_callers.mp hmem'
      obtain ⟨c', hc', -⟩ := hi.applied id' cell' hcell' _ op' hop'
      rw [List.getElem?_eq_none (le_refl _)] at hc'
      cases hc'

/-- A step of `get_entry`: what the call gets is the newest transaction of the
directory. -/
theorem Inv.setPhase
    (hi : s.Inv) {k : Nat} {c : OpCall} (hc : s.calls[k]? = some c)
    (hc' : ¬ c.phase.Done) {phase : Phase} (hphase : ¬ phase.Done)
    (hmap : ∀ id, phase = .holding id → s.map.lookup c.ino = some id) :
    Inv (s.setPhase k phase) := by
  have hne : ∀ (j : Nat) (b : OpCall), s.calls[j]? = some b → b.phase.Done →
      j ≠ k := by
    rintro j b hb hdone rfl
    rw [hc] at hb
    cases hb
    exact hc' hdone
  refine {
    sound := hi.sound, flags := hi.flags, content := hi.content
    written := hi.written, once := hi.once, unique := hi.unique
    applied := ?_, holding := ?_, effective := ?_, before_returned := ?_
    before_le := ?_ }
  · intro id cell hcell j op hop
    obtain ⟨b, hb, hino, hop', hdone⟩ := hi.applied id cell hcell j op hop
    exact ⟨b, calls_setPhase_ne (hne j b hb hdone) hb, hino, hop', hdone⟩
  · intro j b hb id hid
    obtain ⟨b₀, hb₀, hino, -, -, ⟨rfl, hph⟩ | ⟨-, hph⟩⟩ := setPhase_calls hb
    · rw [hc] at hb₀
      cases hb₀
      rw [hino]
      exact hi.cell_of_map (hmap id (hph.symm.trans hid))
    · rw [hino]
      exact hi.holding j b₀ hb₀ id (hph.symm.trans hid)
  · intro j b hb hdone
    obtain ⟨b₀, hb₀, -, -, -, ⟨rfl, hph⟩ | ⟨-, hph⟩⟩ := setPhase_calls hb
    · rw [hph] at hdone
      exact absurd hdone hphase
    · rw [hph] at hdone
      exact hi.effective j b₀ hb₀ hdone
  · intro j b hb i hmem
    obtain ⟨b₀, hb₀, -, -, hbefore, -⟩ := setPhase_calls hb
    rw [hbefore] at hmem
    obtain ⟨a, ha, hreturned⟩ := hi.before_returned j b₀ hb₀ i hmem
    exact ⟨a, calls_setPhase_ne (hne i a ha (by rw [hreturned]; trivial)) ha,
      hreturned⟩
  · intro j b hb i hmem id cell hcell hown hcaller
    obtain ⟨b₀, hb₀, hino, -, hbefore, hphases⟩ := setPhase_calls hb
    rw [hbefore] at hmem
    rw [hino] at hown
    obtain ⟨hle, hle'⟩ :=
      hi.before_le j b₀ hb₀ i hmem id cell hcell hown hcaller
    refine ⟨?_, hle'⟩
    intro id' hid'
    rcases hphases with ⟨rfl, hph⟩ | ⟨-, hph⟩
    · rw [hc] at hb₀
      cases hb₀
      refine hi.sound.latest (k := c.ino) ?_ (hmap id' (hph.symm.trans hid'))
      rw [← hown]
      exact Inv.owner hcell
    · exact hle id' (hph.symm.trans hid')

/-- The cells are as before, with a new one behind them. -/
theorem addEntry_cells
    {ino : Uuid} {id : Nat} {cell : Cell}
    (h : (s.addEntry ino).cells[id]? = some cell) :
    s.cells[id]? = some cell ∨
      id = s.cells.length ∧ cell = ⟨.new ino, []⟩ := by
  rcases Nat.lt_trichotomy id s.cells.length with hlt | rfl | hgt
  · rw [addEntry, List.getElem?_append_left hlt] at h
    exact .inl h
  · simp only [addEntry, List.getElem?_concat_length, Option.some.injEq] at h
    exact .inr ⟨rfl, h.symm⟩
  · rw [addEntry, List.getElem?_eq_none (by simp; omega)] at h
    cases h

theorem cells_addEntry
    {ino : Uuid} {id : Nat} {cell : Cell} (h : s.cells[id]? = some cell) :
    (s.addEntry ino).cells[id]? = some cell := by
  rw [addEntry, List.getElem?_append_left (List.getElem?_eq_some_iff.mp h).1, h]

theorem Inv.addEntry
    (hi : s.Inv) {ino : Uuid} (h : s.map.lookup ino = none) :
    Inv (s.addEntry ino) := by
  have hsound : (s.addEntry ino).generations.Sound :=
    Generations.sound_step _ _ _ hi.sound (create_generations h)
  refine {
    sound := hsound, flags := ?_, content := ?_, written := ?_
    applied := ?_, holding := ?_, once := ?_, unique := ?_, effective := ?_
    before_returned := hi.before_returned, before_le := ?_ }
  · intro id cell hcell
    rcases addEntry_cells hcell with hcell | ⟨rfl, rfl⟩
    · exact hi.flags id cell hcell
    · refine iff_of_false (by simp [Transaction.new]) ?_
      intro hin
      have hlt := hi.sound.retired_owner _ hin
      simp [generations] at hlt
  · intro id cell hcell
    rcases addEntry_cells hcell with hcell | ⟨rfl, rfl⟩
    · exact hi.content id cell hcell
    · rfl
  · intro r hr
    obtain ⟨cell, hcell, heq⟩ := hi.written r hr
    exact ⟨cell, cells_addEntry hcell, heq⟩
  · intro id cell hcell k op hop
    rcases addEntry_cells hcell with hcell | ⟨rfl, rfl⟩
    · exact hi.applied id cell hcell k op hop
    · cases hop
  · intro k c hc id hid
    obtain ⟨cell, hcell, hino⟩ := hi.holding k c hc id hid
    exact ⟨cell, cells_addEntry hcell, hino⟩
  · intro id cell hcell
    rcases addEntry_cells hcell with hcell | ⟨rfl, rfl⟩
    · exact hi.once id cell hcell
    · exact List.nodup_nil
  · intro id cell hcell id' cell' hcell' k hk hk'
    rcases addEntry_cells hcell with hcell | ⟨rfl, rfl⟩
    · rcases addEntry_cells hcell' with hcell' | ⟨rfl, rfl⟩
      · exact hi.unique id cell hcell id' cell' hcell' k hk hk'
      · cases hk'
    · cases hk
  · intro k c hc hdone
    obtain ⟨id, cell, hcell, hmem⟩ := hi.effective k c hc hdone
    exact ⟨id, cell, cells_addEntry hcell, hmem⟩
  · intro k c hc j hj id cell hcell hino hmem
    rcases addEntry_cells hcell with hcell | ⟨rfl, rfl⟩
    · obtain ⟨hle, hle'⟩ := hi.before_le k c hc j hj id cell hcell hino hmem
      refine ⟨hle, ?_⟩
      intro id' cell' hcell' hmem'
      rcases addEntry_cells hcell' with hcell' | ⟨rfl, rfl⟩
      · exact hle' id' cell' hcell' hmem'
      · cases hmem'
    · cases hmem

/-- A method runs on a transaction that is not committed. -/
theorem Inv.apply
    (hi : s.Inv) {k id : Nat} {c : OpCall} (hc : s.calls[k]? = some c)
    (hid : c.phase = .holding id) {cell : Cell}
    (hcell : s.cells[id]? = some cell) (hopen : cell.tx.committed = false)
    {phase : Phase} (hphase : phase.Done) :
    Inv ((s.setCell id ⟨(c.op.apply cell.tx).2, cell.applied ++ [(k, c.op)]⟩
      ).setPhase k phase) := by
  obtain ⟨hframe, hcommitted⟩ := c.op.apply_frame cell.tx
  have hino : cell.tx.sIno = c.ino := by
    obtain ⟨cell', hcell', hino⟩ := hi.holding k c hc id hid
    rw [hcell] at hcell'
    cases hcell'
    exact hino
  have hrunning : ¬ c.phase.Done := by
    rw [hid]
    exact fun h => h
  have hne : ∀ (j : Nat) (b : OpCall), s.calls[j]? = some b → b.phase.Done →
      j ≠ k := by
    rintro j b hb hdone rfl
    rw [hc] at hb
    cases hb
    exact hrunning hdone
  have hfresh := fun {id' : Nat} {cell' : Cell}
    (hcell' : s.cells[id']? = some cell') => hi.not_applied hc hrunning hcell'
  -- every cell has the callers that it had, but for the call in this one
  have hcells : ∀ (id' : Nat) (cell' : Cell),
      (s.setCell id ⟨(c.op.apply cell.tx).2, cell.applied ++ [(k, c.op)]⟩
        ).cells[id']? = some cell' →
      ∃ cell₀, s.cells[id']? = some cell₀ ∧ cell'.tx.sIno = cell₀.tx.sIno ∧
        ∀ j, j ∈ cell'.callers ↔ j ∈ cell₀.callers ∨ j = k ∧ id' = id := by
    intro id' cell' h
    rcases setCell_cells hcell h with ⟨rfl, rfl⟩ | ⟨hne', hcell'⟩
    · exact ⟨cell, hcell, hframe, by simp [Cell.callers]⟩
    · exact ⟨cell', hcell', rfl, by simp [hne']⟩
  refine {
    sound := ?_, flags := ?_, content := ?_, written := ?_, applied := ?_
    holding := ?_, once := ?_, unique := ?_, effective := ?_
    before_returned := ?_, before_le := ?_ }
  · rw [setPhase_generations, setCell_generations hcell hframe]
    exact hi.sound
  · intro id' cell' h
    rcases setCell_cells hcell h with ⟨rfl, rfl⟩ | ⟨-, hcell'⟩
    · exact (Bool.eq_iff_iff.mp hcommitted).trans (hi.flags id' cell hcell)
    · exact hi.flags id' cell' hcell'
  · intro id' cell' h
    rcases setCell_cells hcell h with ⟨rfl, rfl⟩ | ⟨-, hcell'⟩
    · have hcontent := hi.content id' cell hcell
      have hreplay : cell.tx =
          TxOp.replay cell.tx.sIno (cell.applied.map Prod.snd) := by
        have hfalse := (TxOp.replay_frame cell.tx.sIno
          (cell.applied.map Prod.snd)).2
        rw [hopen, ← hfalse] at hcontent
        exact hcontent
      have happly : (c.op.apply cell.tx).2 = TxOp.replay cell.tx.sIno
          ((cell.applied ++ [(k, c.op)]).map Prod.snd) := by
        rw [List.map_append, List.map_singleton, TxOp.replay_append, ← hreplay]
      have hfalse := (TxOp.replay_frame cell.tx.sIno
        ((cell.applied ++ [(k, c.op)]).map Prod.snd)).2
      rw [hframe, hcommitted, hopen, ← hfalse]
      exact happly
    · exact hi.content id' cell' hcell'
  · intro r hr
    obtain ⟨cell', hcell', htx⟩ := hi.written r hr
    have hin : r.1 ∈ s.commits :=
      List.mem_append_left _ (List.mem_map_of_mem hr)
    refine ⟨cell', ?_, htx⟩
    rw [setPhase_cells, cells_setCell_ne, hcell']
    rintro rfl
    have hflag := (hi.flags r.1 cell hcell).mpr hin
    rw [hopen] at hflag
    cases hflag
  · intro id' cell' h j op hop
    rcases setCell_cells hcell h with ⟨rfl, rfl⟩ | ⟨-, hcell'⟩
    · rcases List.mem_append.mp hop with hop | hop
      · obtain ⟨b, hb, hbino, hbop, hdone⟩ :=
          hi.applied id' cell hcell j op hop
        exact ⟨b, calls_setPhase_ne (hne j b hb hdone) hb,
          hbino.trans hframe.symm, hbop, hdone⟩
      · cases List.mem_singleton.mp hop
        refine ⟨{ c with phase := phase }, ?_, (hframe.trans hino).symm, rfl,
          hphase⟩
        simp [JournalThreads.setPhase, hc]
    · obtain ⟨b, hb, hrest⟩ := hi.applied id' cell' hcell' j op hop
      exact ⟨b, calls_setPhase_ne (hne j b hb hrest.2.2) hb, hrest⟩
  · intro j b hb id' hid'
    obtain ⟨b₀, hb₀, hbino, -, -, ⟨rfl, hph⟩ | ⟨-, hph⟩⟩ := setPhase_calls hb
    · rw [hph] at hid'
      rw [hid'] at hphase
      cases hphase
    · obtain ⟨cell', hcell', hown⟩ :=
        hi.holding j b₀ hb₀ id' (hph.symm.trans hid')
      rcases eq_or_ne id' id with rfl | hne'
      · rw [hcell] at hcell'
        cases hcell'
        exact ⟨_, cells_setCell_self hcell,
          (hframe.trans hown).trans hbino.symm⟩
      · exact ⟨cell', (cells_setCell_ne hne').trans hcell', hown.trans hbino.symm⟩
  · intro id' cell' h
    rcases setCell_cells hcell h with ⟨rfl, rfl⟩ | ⟨-, hcell'⟩
    · have hnodup := hi.once id' cell hcell
      have hk := hfresh hcell
      simp only [Cell.callers, List.map_append, List.map_singleton] at hnodup hk ⊢
      rw [List.nodup_append]
      refine ⟨hnodup, List.nodup_singleton k, ?_⟩
      rintro j hj _ hj' rfl
      cases List.mem_singleton.mp hj'
      exact hk hj
    · exact hi.once id' cell' hcell'
  · intro id₁ cell₁ h₁ id₂ cell₂ h₂ j hj₁ hj₂
    obtain ⟨b₁, hb₁, -, hiff₁⟩ := hcells id₁ cell₁ h₁
    obtain ⟨b₂, hb₂, -, hiff₂⟩ := hcells id₂ cell₂ h₂
    rcases (hiff₁ j).mp hj₁ with hj₁ | ⟨rfl, rfl⟩
    · rcases (hiff₂ j).mp hj₂ with hj₂ | ⟨rfl, rfl⟩
      · exact hi.unique id₁ b₁ hb₁ id₂ b₂ hb₂ j hj₁ hj₂
      · exact absurd hj₁ (hfresh hb₁)
    · rcases (hiff₂ j).mp hj₂ with hj₂ | ⟨-, rfl⟩
      · exact absurd hj₂ (hfresh hb₂)
      · rfl
  · intro j b hb hdone
    obtain ⟨b₀, hb₀, -, -, -, ⟨rfl, hph⟩ | ⟨-, hph⟩⟩ := setPhase_calls hb
    · exact ⟨id, _, cells_setCell_self hcell, by simp [Cell.callers]⟩
    · rw [hph] at hdone
      obtain ⟨id', cell', hcell', hmem⟩ := hi.effective j b₀ hb₀ hdone
      rcases eq_or_ne id' id with rfl | hne'
      · rw [hcell] at hcell'
        cases hcell'
        refine ⟨id', _, cells_setCell_self hcell, ?_⟩
        simp only [Cell.callers, List.map_append] at hmem ⊢
        exact List.mem_append_left _ hmem
      · exact ⟨id', cell', (cells_setCell_ne hne').trans hcell', hmem⟩
  · intro j b hb i hmem
    obtain ⟨b₀, hb₀, -, -, hbefore, -⟩ := setPhase_calls hb
    rw [hbefore] at hmem
    obtain ⟨a, ha, hreturned⟩ := hi.before_returned j b₀ hb₀ i hmem
    exact ⟨a, calls_setPhase_ne (hne i a ha (by rw [hreturned]; trivial)) ha,
      hreturned⟩
  · intro j b hb i hmem id₁ cell₁ h₁ hown hcaller
    obtain ⟨b₀, hb₀, hbino, -, hbefore, hphases⟩ := setPhase_calls hb
    obtain ⟨cell₁', hcell₁', hsame, hiff₁⟩ := hcells id₁ cell₁ h₁
    rw [hbefore] at hmem
    rw [hbino, hsame] at hown
    -- the earlier call has returned, so it is not the one that runs now
    obtain ⟨a, ha, hreturned⟩ := hi.before_returned j b₀ hb₀ i hmem
    have hik : i ≠ k := hne i a ha (by rw [hreturned]; trivial)
    have hcaller' : i ∈ cell₁'.callers := by
      rcases (hiff₁ i).mp hcaller with h | ⟨rfl, -⟩
      · exact h
      · exact absurd rfl hik
    obtain ⟨hle, hle'⟩ :=
      hi.before_le j b₀ hb₀ i hmem id₁ cell₁' hcell₁' hown hcaller'
    constructor
    · intro id₂ hid₂
      rcases hphases with ⟨rfl, hph⟩ | ⟨-, hph⟩
      · rw [hph] at hid₂
        rw [hid₂] at hphase
        cases hphase
      · exact hle id₂ (hph.symm.trans hid₂)
    · intro id₂ cell₂ h₂ hmem₂
      obtain ⟨cell₂', hcell₂', -, hiff₂⟩ := hcells id₂ cell₂ h₂
      rcases (hiff₂ j).mp hmem₂ with hmem₂ | ⟨rfl, rfl⟩
      · exact hle' id₂ cell₂' hcell₂' hmem₂
      · cases hc.symm.trans hb₀
        exact hle id₂ hid

theorem Inv.runMethod
    (hi : s.Inv) {k id : Nat} {c : OpCall} (hc : s.calls[k]? = some c)
    (hid : c.phase = .holding id) {cell : Cell}
    (hcell : s.cells[id]? = some cell) :
    Inv (s.runMethod k id cell c.op) := by
  have hrunning : ¬ c.phase.Done := by
    rw [hid]
    exact fun h => h
  have hopen : (c.op.apply cell.tx).1 ≠ .committed →
      cell.tx.committed = false := by
    intro h
    rw [← Bool.not_eq_true]
    intro hcommitted
    rw [c.op.apply_of_committed hcommitted] at h
    exact h rfl
  unfold JournalThreads.runMethod
  split
  · exact hi.setPhase hc hrunning (fun h => h) nofun
  · rename_i tx heq
    have happly := @Inv.apply s hi k id c hc hid cell hcell
      (hopen (by simp [heq])) .returned trivial
    rw [heq] at happly
    exact happly
  · rename_i e tx heq
    have happly := @Inv.apply s hi k id c hc hid cell hcell
      (hopen (by simp [heq])) (.failed e) trivial
    rw [heq] at happly
    exact happly

theorem Inv.replaceMap
    (hi : s.Inv) (hcycle : s.cycle.entries = []) :
    Inv { s with map := ∅, cycle := s.map } where
  sound := hi.sound.replace hcycle
  flags := hi.flags
  content := hi.content
  written := hi.written
  applied := hi.applied
  holding := hi.holding
  once := hi.once
  unique := hi.unique
  effective := hi.effective
  before_returned := hi.before_returned
  before_le := hi.before_le

/-- A transaction is marked: what it holds stays as it is. -/
theorem Inv.setCommitted
    (hi : s.Inv) {ino : Uuid} {id : Nat} (hcurrent : s.current = none)
    (hid : s.cycle.lookup ino = some id) {cell : Cell}
    (hcell : s.cells[id]? = some cell) (hopen : cell.tx.committed = false) :
    Inv { s.setCell id ⟨{ cell.tx with committed := true }, cell.applied⟩ with
      cycle := s.cycle.erase ino
      current := some id } := by
  have hcommits : ∀ id', id' ∈ s.records.map Prod.fst ++ [id] ↔
      id' ∈ s.commits ∨ id' = id := by
    simp [commits, hcurrent]
  have hcells : ∀ (id' : Nat) (cell' : Cell),
      (s.setCell id ⟨{ cell.tx with committed := true }, cell.applied⟩
        ).cells[id']? = some cell' →
      ∃ cell₀, s.cells[id']? = some cell₀ ∧ cell'.tx.sIno = cell₀.tx.sIno ∧
        cell'.applied = cell₀.applied := by
    intro id' cell' h
    rcases setCell_cells hcell h with ⟨rfl, rfl⟩ | ⟨-, hcell'⟩
    · exact ⟨cell, hcell, rfl, rfl⟩
    · exact ⟨cell', hcell', rfl, rfl⟩
  have hback : ∀ (id' : Nat) (cell₀ : Cell), s.cells[id']? = some cell₀ →
      ∃ cell' : Cell,
        (s.setCell id ⟨{ cell.tx with committed := true }, cell.applied⟩
          ).cells[id']? = some cell' ∧ cell'.tx.sIno = cell₀.tx.sIno ∧
        cell'.applied = cell₀.applied := by
    intro id' cell₀ h
    rcases eq_or_ne id' id with rfl | hne
    · rw [hcell] at h
      cases h
      exact ⟨_, cells_setCell_self hcell, rfl, rfl⟩
    · exact ⟨cell₀, (cells_setCell_ne hne).trans h, rfl, rfl⟩
  have hcallers : ∀ cell' cell₀ : Cell, cell'.applied = cell₀.applied →
      cell'.callers = cell₀.callers := fun _ _ h => congrArg (List.map _) h
  refine {
    sound := ?_, flags := ?_, content := ?_, written := ?_, applied := ?_
    holding := ?_, once := ?_, unique := ?_, effective := ?_
    before_returned := hi.before_returned, before_le := ?_ }
  · have hretire := @Generations.Sound.retire _ _ _ hi.sound ino id hid
    have howner := congrArg Generations.owner (@setCell_generations s id cell
      ⟨{ cell.tx with committed := true }, cell.applied⟩ hcell rfl)
    simp only [generations] at howner hretire
    simp only [generations, commits, howner, hcurrent, Option.toList_none,
      List.append_nil] at hretire ⊢
    exact hretire
  · intro id' cell' h
    refine Iff.trans ?_ (hcommits id').symm
    rcases setCell_cells hcell h with ⟨rfl, rfl⟩ | ⟨hne, hcell'⟩
    · exact iff_of_true rfl (.inr rfl)
    · rw [hi.flags id' cell' hcell', or_iff_left hne]
  · intro id' cell' h
    rcases setCell_cells hcell h with ⟨rfl, rfl⟩ | ⟨-, hcell'⟩
    · have hcontent := hi.content id' cell hcell
      rw [hcontent]
      simp [(TxOp.replay_frame _ _).1]
    · exact hi.content id' cell' hcell'
  · intro r hr
    obtain ⟨cell', hcell', htx⟩ := hi.written r hr
    refine ⟨cell', ?_, htx⟩
    refine (cells_setCell_ne ?_).trans hcell'
    rintro rfl
    have hflag := (hi.flags r.1 cell hcell).mpr
      (List.mem_append_left _ (List.mem_map_of_mem hr))
    rw [hopen] at hflag
    cases hflag
  · intro id' cell' h k op hop
    obtain ⟨cell₀, hcell₀, hino, happlied⟩ := hcells id' cell' h
    rw [happlied] at hop
    rw [hino]
    exact hi.applied id' cell₀ hcell₀ k op hop
  · intro k c hc id' hid'
    obtain ⟨cell₀, hcell₀, hino⟩ := hi.holding k c hc id' hid'
    obtain ⟨cell', hcell', hino', -⟩ := hback id' cell₀ hcell₀
    exact ⟨cell', hcell', hino'.trans hino⟩
  · intro id' cell' h
    obtain ⟨cell₀, hcell₀, -, happlied⟩ := hcells id' cell' h
    rw [hcallers _ _ happlied]
    exact hi.once id' cell₀ hcell₀
  · intro id₁ cell₁ h₁ id₂ cell₂ h₂ k hk₁ hk₂
    obtain ⟨cell₁', h₁', -, happlied₁⟩ := hcells id₁ cell₁ h₁
    obtain ⟨cell₂', h₂', -, happlied₂⟩ := hcells id₂ cell₂ h₂
    rw [hcallers _ _ happlied₁] at hk₁
    rw [hcallers _ _ happlied₂] at hk₂
    exact hi.unique id₁ cell₁' h₁' id₂ cell₂' h₂' k hk₁ hk₂
  · intro k c hc hdone
    obtain ⟨id', cell₀, hcell₀, hmem⟩ := hi.effective k c hc hdone
    obtain ⟨cell', hcell', -, happlied⟩ := hback id' cell₀ hcell₀
    refine ⟨id', cell', hcell', ?_⟩
    rw [hcallers _ _ happlied]
    exact hmem
  · intro k c hc j hj id₁ cell₁ h₁ hown hmem
    obtain ⟨cell₁', h₁', hino, happlied⟩ := hcells id₁ cell₁ h₁
    rw [hcallers _ _ happlied] at hmem
    obtain ⟨hle, hle'⟩ := hi.before_le k c hc j hj id₁ cell₁' h₁'
      (hino.symm.trans hown) hmem
    refine ⟨hle, ?_⟩
    intro id₂ cell₂ h₂ hmem₂
    obtain ⟨cell₂', h₂', -, happlied₂⟩ := hcells id₂ cell₂ h₂
    rw [hcallers _ _ happlied₂] at hmem₂
    exact hle' id₂ cell₂' h₂' hmem₂

theorem Inv.write
    (hi : s.Inv) {id : Nat} (hcurrent : s.current = some id) {cell : Cell}
    (hcell : s.cells[id]? = some cell) :
    Inv { s with current := none, records := s.records ++ [(id, cell.tx)] } := by
  have hcommits : (s.records ++ [(id, cell.tx)]).map Prod.fst ++ [] =
      s.commits := by
    simp [commits, hcurrent]
  refine {
    sound := ?_, flags := ?_, content := hi.content, written := ?_
    applied := hi.applied, holding := hi.holding, once := hi.once
    unique := hi.unique, effective := hi.effective
    before_returned := hi.before_returned, before_le := hi.before_le }
  · have hsound := hi.sound
    simp only [generations, ← hcommits] at hsound
    exact hsound
  · intro id' cell' h
    rw [hi.flags id' cell' h, ← hcommits]
    rfl
  · intro r hr
    rcases List.mem_append.mp hr with hr | hr
    · exact hi.written r hr
    · cases List.mem_singleton.mp hr
      exact ⟨cell, hcell, rfl⟩

end Updates

theorem inv_step : step.Invariant Inv := by
  intro s a s' hi hstep
  cases a with
  | call ino op =>
      cases hstep
      exact hi.call ino op
  | find k =>
      simp only [step] at hstep
      split at hstep
      · rename_i ino op before hc
        cases hstep
        unfold findEntry
        cases hino : s.map.lookup ino with
        | some id =>
            refine hi.setPhase hc (fun h => h) (fun h => h) ?_
            rintro _ ⟨⟩
            exact hino
        | none =>
            refine hi.setPhase hc (fun h => h) (fun h => h) ?_
            rintro _ ⟨⟩
      · cases hstep
  | insert k =>
      simp only [step] at hstep
      split at hstep
      · rename_i ino op before hc
        cases hstep
        cases hino : s.map.lookup ino with
        | some id =>
            rw [insertEntry_of_some hino]
            refine hi.setPhase hc (fun h => h) (fun h => h) ?_
            rintro _ ⟨⟩
            exact hino
        | none =>
            rw [insertEntry_of_none hino]
            refine (hi.addEntry hino).setPhase hc (fun h => h) (fun h => h) ?_
            rintro _ ⟨⟩
            exact AList.lookup_insert _
      · cases hstep
  | run k =>
      simp only [step] at hstep
      split at hstep
      · rename_i ino op before id hc
        obtain ⟨cell, hcell, rfl⟩ := Option.map_eq_some_iff.mp hstep
        exact hi.runMethod hc rfl hcell
      · cases hstep
  | replaceMap =>
      simp only [step] at hstep
      split at hstep
      · rename_i hcycle
        cases hstep
        exact hi.replaceMap hcycle.1
      · cases hstep
  | setCommitted ino =>
      simp only [step] at hstep
      split at hstep
      · rename_i id hcurrent hid
        obtain ⟨cell, hcell, hstep⟩ := Option.bind_eq_some_iff.mp hstep
        split at hstep
        · cases hstep
        · rename_i hopen
          cases hstep
          exact hi.setCommitted hcurrent hid hcell (by simpa using hopen)
      · cases hstep
  | write =>
      simp only [step] at hstep
      split at hstep
      · rename_i id hcurrent
        obtain ⟨cell, hcell, rfl⟩ := Option.map_eq_some_iff.mp hstep
        exact hi.write hcurrent hcell
      · cases hstep

section Claims

variable {s s' : JournalThreads}

theorem inv_run {as : List Act} (h : step.runFrom new as = some s) : s.Inv :=
  inv_step.runFrom inv_new h

/-- The transaction is marked as committed, and is as it has been then. -/
def Fixed (id : Nat) (cell : Cell) (s : JournalThreads) : Prop :=
  s.cells[id]? = some cell ∧ cell.tx.committed = true

/-- Nothing happens to a transaction once it is committed. -/
theorem fixed_step (id : Nat) (cell : Cell) :
    step.Invariant (Fixed id cell) := by
  rintro s a s' ⟨hcell, hcommitted⟩ hstep
  refine ⟨?_, hcommitted⟩
  cases a with
  | call ino op =>
      cases hstep
      exact hcell
  | find k =>
      simp only [step] at hstep
      split at hstep
      · cases hstep
        unfold findEntry
        split <;> exact hcell
      · cases hstep
  | insert k =>
      simp only [step] at hstep
      split at hstep
      · rename_i ino op before hc
        cases hstep
        cases hino : s.map.lookup ino with
        | some id' =>
            rw [insertEntry_of_some hino]
            exact hcell
        | none =>
            rw [insertEntry_of_none hino]
            exact cells_addEntry hcell
      · cases hstep
  | run k =>
      simp only [step] at hstep
      split at hstep
      · rename_i ino op before id' hc
        obtain ⟨cell', hcell', rfl⟩ := Option.map_eq_some_iff.mp hstep
        rcases eq_or_ne id id' with rfl | hne
        · rw [hcell] at hcell'
          cases hcell'
          rw [JournalThreads.runMethod, op.apply_of_committed hcommitted]
          exact hcell
        · unfold JournalThreads.runMethod
          split
          · exact hcell
          · exact (cells_setCell_ne hne).trans hcell
          · exact (cells_setCell_ne hne).trans hcell
      · cases hstep
  | replaceMap =>
      simp only [step] at hstep
      split at hstep
      · cases hstep
        exact hcell
      · cases hstep
  | setCommitted ino =>
      simp only [step] at hstep
      split at hstep
      · rename_i id' hcurrent hid
        obtain ⟨cell', hcell', hstep⟩ := Option.bind_eq_some_iff.mp hstep
        split at hstep
        · cases hstep
        · rename_i hopen
          cases hstep
          refine (cells_setCell_ne ?_).trans hcell
          rintro rfl
          rw [hcell] at hcell'
          cases hcell'
          exact hopen hcommitted
      · cases hstep
  | write =>
      simp only [step] at hstep
      split at hstep
      · obtain ⟨cell', -, rfl⟩ := Option.map_eq_some_iff.mp hstep
        exact hcell
      · cases hstep

/-- The method of a call that has returned has run on exactly one transaction, once. -/
def EffectiveOnce (s : JournalThreads) (k : Nat) (c : OpCall) : Prop :=
  ∃ (id : Nat) (cell : Cell), s.cells[id]? = some cell ∧ cell.tx.sIno = c.ino ∧
    (k, c.op) ∈ cell.applied ∧ cell.callers.count k = 1 ∧
    ∀ (id' : Nat) (cell' : Cell), s.cells[id']? = some cell' →
      k ∈ cell'.callers → id' = id

theorem Inv.effectiveOnce
    (hi : s.Inv) {k : Nat} {c : OpCall} (hc : s.calls[k]? = some c)
    (hdone : c.phase.Done) : s.EffectiveOnce k c := by
  obtain ⟨id, cell, hcell, hmem⟩ := hi.effective k c hc hdone
  obtain ⟨op, hop⟩ := mem_callers.mp hmem
  obtain ⟨c', hc', hino, rfl, -⟩ := hi.applied id cell hcell k op hop
  cases hc.symm.trans hc'
  refine ⟨id, cell, hcell, hino.symm, hop, ?_, ?_⟩
  · exact List.count_eq_one_of_mem (hi.once id cell hcell) hmem
  · intro id' cell' hcell' hmem'
    exact hi.unique id' cell' hcell' id cell hcell k hmem' hmem

/-- The transaction `id` is the same as `id'` or is committed earlier. -/
def SameOrEarlier (s : JournalThreads) (id id' : Nat) : Prop :=
  id = id' ∨ (id' ∈ s.commits → [id, id'].Sublist s.commits)

theorem Inv.sameOrEarlier
    (hi : s.Inv) {k j : Nat} {c b : OpCall} (hc : s.calls[k]? = some c)
    (hb : s.calls[j]? = some b) (hj : j ∈ c.before) (hino : b.ino = c.ino)
    {id id' : Nat} {cell cell' : Cell} (hcell : s.cells[id]? = some cell)
    (hcell' : s.cells[id']? = some cell') (hmem : j ∈ cell.callers)
    (hmem' : k ∈ cell'.callers) : s.SameOrEarlier id id' := by
  have hown : ∀ {k : Nat} {c : OpCall} {id : Nat} {cell : Cell},
      s.calls[k]? = some c → s.cells[id]? = some cell → k ∈ cell.callers →
        cell.tx.sIno = c.ino := by
    intro k c id cell hc hcell hmem
    obtain ⟨op, hop⟩ := mem_callers.mp hmem
    obtain ⟨c', hc', hino', -⟩ := hi.applied id cell hcell k op hop
    cases hc.symm.trans hc'
    exact hino'.symm
  have hsIno := (hown hb hcell hmem).trans hino
  have hle := (hi.before_le k c hc j hj id cell hcell hsIno hmem).2 id' cell'
    hcell' hmem'
  rcases Nat.eq_or_lt_of_le hle with heq | hlt
  · exact .inl heq
  · refine .inr fun hin => ?_
    refine hi.sound.older_first (k := c.ino) ?_ ?_ hlt hin
    · rw [← hsIno]
      exact Inv.owner hcell
    · rw [← hown hc hcell' hmem']
      exact Inv.owner hcell'

/-- In every state of every run of any number of calls and commit cycles: a call
that has returned has taken effect once; a record has the effects of all calls
of its transaction, now and later; no transaction is committed twice; and calls
of one directory that follow each other are committed in this order. -/
theorem journal_exactly_once
    {as : List Act} (hrun : step.runFrom new as = some s) :
    (∀ (k : Nat) (c : OpCall), s.calls[k]? = some c → c.phase = .returned →
      s.EffectiveOnce k c) ∧
    (∀ id ∈ s.commits, ∃ cell : Cell, s.cells[id]? = some cell ∧
      ∀ (bs : List Act) (s' : JournalThreads), step.runFrom s bs = some s' →
        s'.cells[id]? = some cell) ∧
    (∀ r ∈ s.records, ∃ cell : Cell, s.cells[r.1]? = some cell ∧
      r.2 = { TxOp.replay cell.tx.sIno (cell.applied.map Prod.snd) with
        committed := true }) ∧
    s.commits.Nodup ∧
    (∀ (ino : Uuid) (id : Nat), s.cycle.lookup ino = some id →
      ∃ cell : Cell, s.cells[id]? = some cell ∧ cell.tx.committed = false) ∧
    ∀ (k j : Nat) (c b : OpCall), s.calls[k]? = some c →
      s.calls[j]? = some b → j ∈ c.before → b.ino = c.ino →
      ∀ (id id' : Nat) (cell cell' : Cell), s.cells[id]? = some cell →
        s.cells[id']? = some cell' → j ∈ cell.callers → k ∈ cell'.callers →
          s.SameOrEarlier id id' := by
  have hi := inv_run hrun
  refine ⟨?_, ?_, ?_, hi.sound.nodup, ?_, ?_⟩
  · intro k c hc hreturned
    exact hi.effectiveOnce hc (by rw [hreturned]; trivial)
  · intro id hin
    have hlt := hi.sound.retired_owner id hin
    simp only [generations, List.length_map] at hlt
    have hcell := List.getElem?_eq_getElem hlt
    refine ⟨s.cells[id], hcell, ?_⟩
    intro bs s' hrun'
    exact ((fixed_step id s.cells[id]).runFrom
      ⟨hcell, (hi.flags id _ hcell).mpr hin⟩ hrun').1
  · intro r hr
    obtain ⟨cell, hcell, htx⟩ := hi.written r hr
    have hflag := (hi.flags r.1 cell hcell).mpr
      (List.mem_append_left _ (List.mem_map_of_mem hr))
    have hcontent := hi.content r.1 cell hcell
    refine ⟨cell, hcell, ?_⟩
    rw [hflag] at hcontent
    rw [← htx]
    exact hcontent
  · intro ino id hid
    have howner := hi.sound.batch_owner ino id hid
    simp only [generations, List.getElem?_map, Option.map_eq_some_iff] at howner
    obtain ⟨cell, hcell, hino⟩ := howner
    refine ⟨cell, hcell, ?_⟩
    rw [← Bool.not_eq_true, hi.flags id cell hcell]
    intro hin
    have hlt := hi.sound.retired_lt_batch ino id id hin (by
      rw [← hino]
      exact Inv.owner hcell) hid
    exact absurd hlt (lt_irrefl _)
  · intro k j c b hc hb hj hino id id' cell cell' hcell hcell' hmem hmem'
    exact hi.sameOrEarlier hc hb hj hino hcell hcell' hmem hmem'

/-- A call that holds its transaction while the map is replaced, and one that
comes too late and gets the next transaction. -/
def lateCalls : List Act :=
  [.call .root .rmself, .find 0, .insert 0, .call .root .rmself, .find 1,
    .replaceMap, .run 0, .setCommitted .root, .run 1, .write, .find 1,
    .insert 1, .run 1]

theorem journal_exactly_once_late :
    ∃ s, step.runFrom new lateCalls = some s ∧
      (s.calls.map OpCall.phase = [.returned, .returned]) ∧
      s.commits.Nodup := by
  refine ⟨_, rfl, by decide, ?_⟩
  exact (@journal_exactly_once _ lateCalls rfl).2.2.2.1

end Claims

end JournalThreads

end Nmfs
