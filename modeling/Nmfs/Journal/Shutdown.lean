import Nmfs.Journal.Checkpoints

/-!
# What the destructor of the journal leaves behind

`~journal` sets `stopped` and joins the commit thread and the checkpoint
threads.  The commit thread tests the flag once in a cycle, behind its sleep,
and leaves the loop without taking the map once more.  So what has been
recorded since the last `replace_map` is never committed.

* `Inv.drained_of_flushed`, `Inv.flushed_of_drained`: all the calls that had
  returned are committed and checkpointed in the end if and only if the map held
  none of them when the commit thread found the flag set.
-/

namespace Nmfs

namespace JournalThreads

variable {s s' : JournalThreads}

/-- A call stays in the transaction that it has taken effect on. -/
theorem callers_mono
    {a : Act} (hstep : step s a = some s') {id : Nat} {cell : Cell}
    (hcell : s.cells[id]? = some cell) :
    ∃ cell' : Cell, s'.cells[id]? = some cell' ∧
      ∀ k ∈ cell.callers, k ∈ cell'.callers := by
  cases a with
  | call ino op =>
      cases hstep
      exact ⟨cell, hcell, fun _ h => h⟩
  | find k =>
      simp only [step] at hstep
      split at hstep
      · cases hstep
        refine ⟨cell, ?_, fun _ h => h⟩
        unfold findEntry
        split <;> exact hcell
      · cases hstep
  | insert k =>
      simp only [step] at hstep
      split at hstep
      · rename_i ino op before hcall
        cases hstep
        refine ⟨cell, ?_, fun _ h => h⟩
        cases hino : s.map.lookup ino with
        | some id' =>
            rw [insertEntry_of_some hino]
            exact hcell
        | none =>
            rw [insertEntry_of_none hino]
            exact cells_addEntry hcell
      · cases hstep
  | run k =>
      simp only [step] at hstep
      split at hstep
      · rename_i ino op before id' hcall
        obtain ⟨cell₀, hcell₀, rfl⟩ := Option.map_eq_some_iff.mp hstep
        have happend : ∀ tx, ∃ cell' : Cell,
            (s.setCell id' ⟨tx, cell₀.applied ++ [(k, op)]⟩).cells[id]? =
              some cell' ∧ ∀ j ∈ cell.callers, j ∈ cell'.callers := by
          intro tx
          rcases eq_or_ne id id' with rfl | hne
          · cases hcell.symm.trans hcell₀
            refine ⟨_, cells_setCell_self hcell, ?_⟩
            intro j hj
            simp only [Cell.callers, List.map_append]
            exact List.mem_append_left _ hj
          · exact ⟨cell, (cells_setCell_ne hne).trans hcell, fun _ h => h⟩
        unfold runMethod
        split
        · exact ⟨cell, hcell, fun _ h => h⟩
        · exact happend _
        · exact happend _
      · cases hstep
  | replaceMap =>
      obtain ⟨-, -, rfl⟩ := step_replaceMap hstep
      exact ⟨cell, hcell, fun _ h => h⟩
  | setCommitted ino =>
      obtain ⟨-, id', cell₀, -, hcell₀, -, rfl⟩ := step_setCommitted hstep
      rcases eq_or_ne id id' with rfl | hne
      · cases hcell.symm.trans hcell₀
        exact ⟨_, cells_setCell_self hcell, fun _ h => h⟩
      · exact ⟨cell, (cells_setCell_ne hne).trans hcell, fun _ h => h⟩
  | write =>
      obtain ⟨id', cell₀, -, -, rfl⟩ := step_write hstep
      exact ⟨cell, hcell, fun _ h => h⟩

/-- A call that has returned has taken effect. -/
theorem Inv.effective_of_returned
    (hi : s.Inv) {k : Nat} (hk : k ∈ s.returned) :
    ∃ (id : Nat) (cell : Cell), s.cells[id]? = some cell ∧ k ∈ cell.callers := by
  simp only [returned, List.mem_filter, List.mem_range, Option.any_eq_true,
    decide_eq_true_eq] at hk
  obtain ⟨-, c, hc, hphase⟩ := hk
  refine hi.effective k c hc ?_
  rw [hphase]
  trivial

end JournalThreads

namespace Checkpoints

open JournalThreads (Act)

/-- The destructor can return: it has joined all the threads. -/
def Joined (s : Checkpoints) : Prop :=
  ∀ i < numCpThread, s.workers i = .ended

/-- The calls that had returned when the flag was set are committed and
checkpointed. -/
def Flushed (s : Checkpoints) : Prop :=
  ∀ calls, s.stopped = some calls → ∀ k ∈ calls,
    ∃ (id : Nat) (cell : Cell), s.journal.cells[id]? = some cell ∧
      k ∈ cell.callers ∧ id ∈ s.journal.records.map Prod.fst ∧
      ∃ i < numCpThread, id ∈ s.checkpointed i

/-- None of these calls is in a transaction of the map. -/
def Drained (s : Checkpoints) : Prop :=
  ∀ calls, s.stopped = some calls → ∀ k ∈ calls, ∀ (ino : Uuid) (id : Nat),
    s.journal.map.lookup ino = some id → ∀ cell : Cell,
      s.journal.cells[id]? = some cell → k ∉ cell.callers

instance (s : Checkpoints) : Decidable s.Joined :=
  inferInstanceAs (Decidable (∀ i < numCpThread, s.workers i = .ended))

/-- The commit thread is about to leave its loop. -/
def Leaving (s : Checkpoints) : Prop :=
  s.phase = .sleeping ∧ s.stopped.isSome

section Steps

variable {s s' : Checkpoints}

/-- What a step can do to the journal, to the flag and to the commit thread. -/
structure Moves (s : Checkpoints) (a : Step) (s' : Checkpoints) : Prop where
  journal : s'.journal = s.journal ∨
    ∃ b, JournalThreads.step s.journal b = some s'.journal ∧
      (b.isOperation ∨ ∀ n, s.phase ≠ .ending n)
  stopped : s'.stopped = s.stopped ∨ s.stopped = none ∧ s'.journal = s.journal ∧
    s'.stopped = some s.journal.returned
  stays : ∀ n, s.phase = .ending n → ∃ m, s'.phase = .ending m
  leaves : ∀ m, s'.phase = .ending m →
    (∃ n, s.phase = .ending n) ∨ a = .testStop ∧ s.Leaving

theorem moves_advance
    {a : Step} {b : Act} {phase : CommitPhase} (hstep : s.advance b phase = some s')
    (hb : b.isOperation ∨ ∀ n, s.phase ≠ .ending n)
    (hphase : phase = s.phase ∨
      (∀ n, s.phase ≠ .ending n) ∧ ∀ m, phase ≠ .ending m) :
    Moves s a s' := by
  obtain ⟨journal, hjstep, rfl⟩ := Option.map_eq_some_iff.mp hstep
  refine ⟨.inr ⟨b, hjstep, hb⟩, .inl rfl, ?_, ?_⟩
  · intro n hn
    rcases hphase with rfl | ⟨hne, -⟩
    · exact ⟨n, hn⟩
    · exact absurd hn (hne n)
  · intro m hm
    rcases hphase with rfl | ⟨-, hne⟩
    · exact .inl ⟨m, hm⟩
    · exact absurd hm (hne m)

theorem step_moves {a : Step} (hstep : step s a = some s') : Moves s a s' := by
  cases a with
  | operation b =>
      simp only [step] at hstep
      split at hstep
      · rename_i hb
        exact moves_advance hstep (.inl hb) (.inl rfl)
      · cases hstep
  | stop =>
      simp only [step] at hstep
      split at hstep
      · rename_i hnone
        cases hstep
        exact ⟨.inl rfl, .inr ⟨hnone, rfl, rfl⟩, fun n hn => ⟨n, hn⟩,
          fun m hm => .inl ⟨m, hm⟩⟩
      · cases hstep
  | testStop =>
      simp only [step] at hstep
      split at hstep
      · rename_i hphase
        cases hstep
        refine ⟨.inl rfl, .inl rfl, by simp [hphase], ?_⟩
        intro m hm
        refine .inr ⟨rfl, hphase, ?_⟩
        by_contra hnot
        simp [hnot] at hm
      · cases hstep
  | replaceMap =>
      simp only [step] at hstep
      split at hstep
      · rename_i hphase
        exact moves_advance hstep (.inr (by simp [hphase]))
          (.inr ⟨by simp [hphase], by rintro _ ⟨⟩⟩)
      · cases hstep
  | setCommitted ino =>
      simp only [step] at hstep
      split at hstep
      · rename_i hphase
        exact moves_advance hstep (.inr (by simp [hphase]))
          (.inr ⟨by simp [hphase], by rintro _ ⟨⟩⟩)
      · cases hstep
  | write objSize =>
      simp only [step] at hstep
      split at hstep
      · rename_i id hphase hid
        obtain ⟨s₁, hadvance, rfl⟩ := Option.map_eq_some_iff.mp hstep
        have hmoves := @moves_advance s s₁ (.write objSize) _ _ hadvance
          (.inr (by simp [hphase])) (.inr ⟨by simp [hphase], by rintro _ ⟨⟩⟩)
        exact ⟨hmoves.journal, hmoves.stopped, hmoves.stays, hmoves.leaves⟩
      · cases hstep
  | issue =>
      simp only [step] at hstep
      split at hstep
      · rename_i id hphase
        obtain ⟨cell, -, rfl⟩ := Option.map_eq_some_iff.mp hstep
        exact ⟨.inl rfl, .inl rfl, by simp [hphase], by rintro _ ⟨⟩⟩
      · cases hstep
  | endLoop =>
      simp only [step] at hstep
      split at hstep
      · rename_i h
        cases hstep
        exact ⟨.inl rfl, .inl rfl, by simp [h.1], by rintro _ ⟨⟩⟩
      · cases hstep
  | sentinel =>
      simp only [step] at hstep
      split at hstep
      · rename_i n hphase
        split at hstep
        · cases hstep
          exact ⟨.inl rfl, .inl rfl, fun _ _ => ⟨n + 1, rfl⟩,
            fun _ _ => .inl ⟨n, hphase⟩⟩
        · cases hstep
      · cases hstep
  | dispatch i =>
      simp only [step] at hstep
      split at hstep
      · split at hstep
        · cases hstep
        · cases hstep
          exact ⟨.inl rfl, .inl rfl, fun n hn => ⟨n, hn⟩,
            fun m hm => .inl ⟨m, hm⟩⟩
      · cases hstep
  | checkpoint i =>
      simp only [step] at hstep
      split at hstep
      · cases hstep
        exact ⟨.inl rfl, .inl rfl, fun n hn => ⟨n, hn⟩,
          fun m hm => .inl ⟨m, hm⟩⟩
      · cases hstep

theorem Moves.callers
    {a : Step} (h : Moves s a s') {id : Nat} {cell : Cell}
    (hcell : s.journal.cells[id]? = some cell) :
    ∃ cell' : Cell, s'.journal.cells[id]? = some cell' ∧
      ∀ k ∈ cell.callers, k ∈ cell'.callers := by
  rcases h.journal with heq | ⟨b, hstep, -⟩
  · rw [heq]
    exact ⟨cell, hcell, fun _ h => h⟩
  · exact JournalThreads.callers_mono hstep hcell

/-- The calls that had returned when the flag was set have taken effect. -/
def Recorded (s : Checkpoints) : Prop :=
  ∀ calls, s.stopped = some calls → ∀ k ∈ calls,
    ∃ (id : Nat) (cell : Cell), s.journal.cells[id]? = some cell ∧
      k ∈ cell.callers

theorem recorded_step : step.Invariant fun s => s.Inv ∧ s.Recorded := by
  rintro s a s' ⟨hi, hrec⟩ hstep
  refine ⟨inv_step s a s' hi hstep, ?_⟩
  have hmoves := step_moves hstep
  intro calls hcalls k hk
  rcases hmoves.stopped with heq | ⟨-, hjournal, heq⟩
  · obtain ⟨id, cell, hcell, hmem⟩ := hrec calls (heq.symm.trans hcalls) k hk
    obtain ⟨cell', hcell', hmono⟩ := hmoves.callers hcell
    exact ⟨id, cell', hcell', hmono k hmem⟩
  · rw [heq, Option.some.injEq] at hcalls
    rw [hjournal]
    refine hi.journal.effective_of_returned ?_
    rw [hcalls]
    exact hk

/-- The commit thread has left its loop in the state `s`, and nothing is
committed any more. -/
structure Since (s s' : Checkpoints) : Prop where
  inv : s'.Inv
  ending : ∃ n, s'.phase = .ending n
  stopped : s'.stopped = s.stopped
  records : s'.journal.records = s.journal.records
  callers : ∀ (id : Nat) (cell : Cell), s.journal.cells[id]? = some cell →
    ∃ cell' : Cell, s'.journal.cells[id]? = some cell' ∧
      ∀ k ∈ cell.callers, k ∈ cell'.callers

theorem since_step (hstopped : s.stopped.isSome) :
    step.Invariant (Since s) := by
  intro s₁ a s₂ hs hstep
  have hmoves := step_moves hstep
  obtain ⟨n, hn⟩ := hs.ending
  refine ⟨inv_step s₁ a s₂ hs.inv hstep, hmoves.stays n hn, ?_, ?_, ?_⟩
  · rcases hmoves.stopped with heq | ⟨hnone, -⟩
    · exact heq.trans hs.stopped
    · rw [hs.stopped] at hnone
      simp [hnone] at hstopped
  · rcases hmoves.journal with heq | ⟨b, hjstep, hb⟩
    · rw [heq, hs.records]
    · rcases hb with hb | hne
      · exact (JournalThreads.step_operation hb hjstep).1.trans hs.records
      · exact absurd hn (hne n)
  · intro id cell hcell
    obtain ⟨cell₁, hcell₁, hmono₁⟩ := hs.callers id cell hcell
    obtain ⟨cell₂, hcell₂, hmono₂⟩ := hmoves.callers hcell₁
    exact ⟨cell₂, hcell₂, fun k hk => hmono₂ k (hmono₁ k hk)⟩

theorem since_testStop
    (hi : s.Inv) (hleaving : s.Leaving) (hstep : step s .testStop = some s') :
    Since s s' := by
  have hi' := inv_step s .testStop s' hi hstep
  simp only [step, hleaving.1, hleaving.2, if_true, Option.some.injEq] at hstep
  subst hstep
  exact ⟨hi', ⟨0, rfl⟩, rfl, rfl, fun _ cell h => ⟨cell, h, fun _ hk => hk⟩⟩

theorem Since.drained_of_flushed
    (hs : Since s s') (hi : s.Inv) (h : s'.Flushed) : s.Drained := by
  intro calls hcalls k hk ino id hid cell hcell hmem
  obtain ⟨id', cell', hcell', hmem', hwritten, -⟩ :=
    h calls (hs.stopped.trans hcalls) k hk
  obtain ⟨cell₁, hcell₁, hmono⟩ := hs.callers id cell hcell
  cases hs.inv.journal.unique id cell₁ hcell₁ id' cell' hcell' k
    (hmono k hmem) hmem'
  rw [hs.records] at hwritten
  -- a transaction in the map is not committed
  have hsound := hi.journal.sound
  have hlt := hsound.retired_lt_map ino id id (List.mem_append_left _ hwritten)
    (hsound.map_owner ino id hid) hid
  exact absurd hlt (Nat.lt_irrefl id)

theorem Since.flushed_of_drained
    (hs : Since s s') (hi : s.Inv) (hrec : s.Recorded) (hleaving : s.Leaving)
    (hjoined : s'.Joined) (h : s.Drained) : s'.Flushed := by
  intro calls hcalls k hk
  rw [hs.stopped] at hcalls
  obtain ⟨id, cell, hcell, hmem⟩ := hrec calls hcalls k hk
  have howner := @JournalThreads.Inv.owner _ id cell hcell
  have hcycle := hi.cycle (by simp [hleaving.1, CommitPhase.Idle])
  have hcurrent := hi.current (by simp [hleaving.1])
  have hwritten : id ∈ s'.journal.records.map Prod.fst := by
    rw [hs.records]
    rcases hi.journal.sound.placed _ id howner with hin | hin | hin
    · exact absurd hmem (h calls hcalls k hk _ id hin cell hcell)
    · have hnone : s.journal.generations.batch.lookup cell.tx.sIno = none :=
        Generations.lookup_of_entries_nil hcycle _
      rw [hnone] at hin
      cases hin
    · simpa [JournalThreads.generations, JournalThreads.commits, hcurrent]
        using hin
  obtain ⟨cell', hcell', hmono⟩ := hs.callers id cell hcell
  exact ⟨id, cell', hcell', hmono k hmem, hwritten,
    hs.inv.all_checkpointed hjoined (List.mem_append_left _ hwritten)⟩

/-- A run that ends behind the loop has left it at one of its steps. -/
theorem leaves_loop
    {as : List Step} (hrun : step.runFrom new as = some s) {n : Nat}
    (hn : s.phase = .ending n) :
    ∃ bs cs s₀, as = bs ++ .testStop :: cs ∧
      step.runFrom new bs = some s₀ ∧ s₀.Leaving := by
  induction as using List.reverseRecOn generalizing s n with
  | nil =>
      simp only [Stepper.runFrom_nil, Option.some.injEq] at hrun
      subst hrun
      cases hn
  | append_singleton as a ih =>
      obtain ⟨s₁, hrun₁, hlast⟩ := (Stepper.runFrom_append step).mp hrun
      obtain ⟨s₂, hstep, hnil⟩ := (Stepper.runFrom_cons step).mp hlast
      cases hnil
      rcases (step_moves hstep).leaves n hn with ⟨m, hm⟩ | ⟨rfl, hleaving⟩
      · obtain ⟨bs, cs, s₀, rfl, hbs, hleaving⟩ := ih hrun₁ hm
        exact ⟨bs, cs ++ [a], s₀, by simp, hbs, hleaving⟩
      · exact ⟨as, [], s₁, rfl, hrun₁, hleaving⟩

/-- In every run in which the destructor returns, the commit thread finds the
flag set at some step; and the calls that had returned before the destructor are
committed and checkpointed in the end if and only if the map holds none of them
at this step. -/
theorem shutdown_flushes_iff
    {as : List Step} (hrun : step.runFrom new as = some s') (hjoined : s'.Joined) :
    (∃ bs cs s, as = bs ++ .testStop :: cs ∧ step.runFrom new bs = some s ∧
      s.Leaving) ∧
    ∀ bs cs s, as = bs ++ .testStop :: cs → step.runFrom new bs = some s →
      s.Leaving → (s'.Flushed ↔ s.Drained) := by
  constructor
  · obtain ⟨n, hn⟩ := (inv_run hrun).ending_of_ended (hjoined 0 (by decide))
    exact leaves_loop hrun hn
  · rintro bs cs s rfl hbs hleaving
    obtain ⟨s₀, hrun₀, hrest⟩ := (Stepper.runFrom_append step).mp hrun
    cases hbs.symm.trans hrun₀
    obtain ⟨s₁, hstep, hrest⟩ := (Stepper.runFrom_cons step).mp hrest
    have hnew : new.Inv ∧ new.Recorded := ⟨inv_new, nofun⟩
    obtain ⟨hi, hrec⟩ := recorded_step.runFrom hnew hbs
    have hs := (since_step hleaving.2).runFrom
      (since_testStop hi hleaving hstep) hrest
    exact ⟨hs.drained_of_flushed hi,
      hs.flushed_of_drained hi hrec hleaving hjoined⟩

theorem shutdown_flushes_cycle :
    ∃ s, step.runFrom new (oneCycle ++ shutdown) = some s ∧ s.stopped = some [0] ∧
      s.Flushed := by
  refine ⟨_, rfl, by decide, ?_⟩
  have hiff := (@shutdown_flushes_iff _ (oneCycle ++ shutdown) rfl
    (by decide)).2 (oneCycle ++ [.stop]) _ _ rfl rfl ⟨rfl, rfl⟩
  refine hiff.mpr ?_
  intro calls _ k _ ino id hid
  cases hid

/-- The destructor comes during the first sleep. -/
theorem shutdown_loses_call :
    ∃ s, step.runFrom new (oneCall ++ shutdown) = some s ∧ s.Joined ∧
      s.stopped = some [0] ∧ ¬ s.Flushed := by
  refine ⟨_, rfl, by decide, by decide, ?_⟩
  intro h
  obtain ⟨id, cell, -, -, hwritten, -⟩ := h [0] rfl 0 (by decide)
  cases hwritten

end Steps

end Checkpoints

end Nmfs
