import Nmfs.Lease.Retry
import Nmfs.Journal.Checkpoints

/-!
# Who writes a directory's metadata

A client looks at its lease when it begins an operation, and not any more when
the commit thread and the checkpoint threads work on what the operation has
given to the journal.  If the lease runs out in between, the checkpoint writes
over what the next leader has loaded or written.

The clients, the manager and the clock are those of `Cluster`, and every client
has a journal with all its threads.  Nothing ties the two together but the
condition of the result: the clock does not pass the due of a lease while there
is something to be done for the directory (`InTime`).
-/

namespace Nmfs

namespace JournalThreads

section Owners

variable {s s' : JournalThreads} {a : Act}

/-- A call that has been made goes on, and is not undone. -/
theorem calls_step
    (hstep : step s a = some s') {k : Nat} {c' : OpCall}
    (hc' : s'.calls[k]? = some c') :
    (∃ c : OpCall, s.calls[k]? = some c ∧ c.ino = c'.ino ∧
      (c.phase.Done → c'.phase.Done)) ∨ ∃ op, a = .call c'.ino op := by
  have hphase : ∀ {j : Nat} {c₀ : OpCall} {phase : Phase}, s.calls[j]? = some c₀ →
      ¬ c₀.phase.Done → (s.setPhase j phase).calls[k]? = some c' →
      ∃ c : OpCall, s.calls[k]? = some c ∧ c.ino = c'.ino ∧
        (c.phase.Done → c'.phase.Done) := by
    intro j c₀ phase hc₀ hopen h
    obtain ⟨c, hc, hino, -, -, ⟨rfl, -⟩ | ⟨-, hph⟩⟩ := setPhase_calls h
    · cases hc₀.symm.trans hc
      exact ⟨_, hc, hino.symm, fun hdone => absurd hdone hopen⟩
    · exact ⟨c, hc, hino.symm, fun hdone => hph ▸ hdone⟩
  cases a with
  | call ino op =>
      cases hstep
      rcases Nat.lt_trichotomy k s.calls.length with hlt | rfl | hgt
      · rw [List.getElem?_append_left hlt] at hc'
        exact .inl ⟨c', hc', rfl, id⟩
      · simp only [List.getElem?_concat_length, Option.some.injEq] at hc'
        subst hc'
        exact .inr ⟨op, rfl⟩
      · rw [List.getElem?_eq_none (by simp; omega)] at hc'
        cases hc'
  | find j =>
      simp only [step] at hstep
      split at hstep
      · rename_i ino op before hc
        cases hstep
        unfold findEntry at hc'
        split at hc'
        · exact .inl (hphase hc id hc')
        · exact .inl (hphase hc id hc')
      · cases hstep
  | insert j =>
      simp only [step] at hstep
      split at hstep
      · rename_i ino op before hc
        cases hstep
        unfold insertEntry at hc'
        split at hc'
        · exact .inl (hphase hc id hc')
        · exact .inl (hphase hc id hc')
      · cases hstep
  | run j =>
      simp only [step] at hstep
      split at hstep
      · rename_i ino op before id' hc
        obtain ⟨cell, hcell, rfl⟩ := Option.map_eq_some_iff.mp hstep
        unfold JournalThreads.runMethod at hc'
        split at hc'
        · exact .inl (hphase hc id hc')
        · exact .inl (hphase hc id hc')
        · exact .inl (hphase hc id hc')
      · cases hstep
  | replaceMap =>
      obtain ⟨-, -, rfl⟩ := step_replaceMap hstep
      exact .inl ⟨c', hc', rfl, id⟩
  | setCommitted ino =>
      obtain ⟨-, id', cell, -, -, -, rfl⟩ := step_setCommitted hstep
      exact .inl ⟨c', hc', rfl, id⟩
  | write =>
      obtain ⟨id', cell, -, -, rfl⟩ := step_write hstep
      exact .inl ⟨c', hc', rfl, id⟩

/-- A new transaction is made for a call. -/
theorem owner_step
    (hstep : step s a = some s') {id : Nat} {ino : Uuid}
    (h : s'.generations.owner[id]? = some ino) :
    s.generations.owner[id]? = some ino ∨
      ∃ (k : Nat) (c : OpCall), s.calls[k]? = some c ∧ c.ino = ino ∧ ¬ c.phase.Done := by
  cases a with
  | insert k =>
      simp only [step] at hstep
      split at hstep
      · rename_i ino' op before hc
        cases hstep
        cases hino : s.map.lookup ino' with
        | some id' =>
            rw [insertEntry_of_some hino] at h
            exact .inl h
        | none =>
            rw [insertEntry_of_none hino, setPhase_generations] at h
            have hcreate := create_generations hino
            simp only [Generations.step] at hcreate
            split at hcreate
            · cases hcreate
            · rw [← Option.some.inj hcreate] at h
              rcases Generations.owner_append.mp h with hold | ⟨-, rfl⟩
              · exact .inl hold
              · exact .inr ⟨k, _, hc, rfl, fun hdone => hdone⟩
      · cases hstep
  | call ino' op =>
      cases hstep
      exact .inl h
  | find k =>
      simp only [step] at hstep
      split at hstep
      · cases hstep
        unfold findEntry at h
        split at h
        · exact .inl h
        · exact .inl h
      · cases hstep
  | run k =>
      simp only [step] at hstep
      split at hstep
      · obtain ⟨cell, hcell, rfl⟩ := Option.map_eq_some_iff.mp hstep
        rw [runMethod_generations hcell] at h
        exact .inl h
      · cases hstep
  | replaceMap =>
      obtain ⟨-, -, rfl⟩ := step_replaceMap hstep
      exact .inl h
  | setCommitted ino' =>
      obtain ⟨-, id', cell, -, hcell, -, rfl⟩ := step_setCommitted hstep
      have howner := congrArg Generations.owner (@setCell_generations s id'
        cell ⟨{ cell.tx with committed := true }, cell.applied⟩ hcell rfl)
      rw [← howner]
      exact .inl h
  | write =>
      obtain ⟨id', cell, -, -, rfl⟩ := step_write hstep
      exact .inl h

end Owners

end JournalThreads

namespace Checkpoints

open JournalThreads (Act)

/-- Something is to be done for the directory: a call that has been made, or a
transaction that is not checkpointed. -/
def Unfinished (s : Checkpoints) (ino : Uuid) : Prop :=
  (∃ (k : Nat) (c : OpCall), s.journal.calls[k]? = some c ∧ c.ino = ino ∧
      ¬ c.phase.Done) ∨
    ∃ id, s.owns ino id = true ∧ ∀ i, id ∉ s.checkpointed i

section Unfinished

variable {s s' : Checkpoints} {ino : Uuid}

/-- A step of the journal alone. -/
theorem Unfinished.of_advance
    (h : s'.Unfinished ino) {a : Act}
    (hstep : JournalThreads.step s.journal a = some s'.journal)
    (hsame : s'.checkpointed = s.checkpointed) :
    s.Unfinished ino ∨ ∃ op, a = .call ino op := by
  rcases h with ⟨k, c', hc', rfl, hopen⟩ | ⟨id, hown, hid⟩
  · rcases JournalThreads.calls_step hstep hc' with ⟨c, hc, hino, hdone⟩ | ⟨op, hop⟩
    · exact .inl (.inl ⟨k, c, hc, hino, fun h => hopen (hdone h)⟩)
    · exact .inr ⟨op, hop⟩
  · rw [hsame] at hid
    rcases JournalThreads.owner_step hstep (owns_eq_true.mp hown) with hold | hcall
    · exact .inl (.inr ⟨id, owns_eq_true.mpr hold, hid⟩)
    · exact .inl (.inl hcall)

/-- A step that leaves the journal alone. -/
theorem Unfinished.of_same
    (h : s'.Unfinished ino) (hjournal : s'.journal = s.journal)
    (hmono : ∀ i, ∀ id ∈ s.checkpointed i, id ∈ s'.checkpointed i) :
    s.Unfinished ino := by
  unfold Unfinished owns at h ⊢
  rw [hjournal] at h
  refine h.imp id ?_
  rintro ⟨id, hown, hid⟩
  exact ⟨id, hown, fun i hi => hid i (hmono i id hi)⟩

/-- Only a call of the journal makes something to do. -/
theorem unfinished_step
    {a : Step} (hstep : step s a = some s') (h : s'.Unfinished ino) :
    s.Unfinished ino ∨ ∃ op, a = .operation (.call ino op) := by
  have hadvance : ∀ {b : Act} {phase : CommitPhase} {s₁ : Checkpoints},
      s.advance b phase = some s₁ →
        JournalThreads.step s.journal b = some s₁.journal ∧
          s₁.checkpointed = s.checkpointed := by
    intro b phase s₁ hs₁
    obtain ⟨journal, hjournal, rfl⟩ := Option.map_eq_some_iff.mp hs₁
    exact ⟨hjournal, rfl⟩
  cases a with
  | operation b =>
      simp only [step] at hstep
      split at hstep
      · obtain ⟨hjournal, hsame⟩ := hadvance hstep
        refine (h.of_advance hjournal hsame).imp id ?_
        rintro ⟨op, hop⟩
        exact ⟨op, by rw [hop]⟩
      · cases hstep
  | stop =>
      simp only [step] at hstep
      split at hstep
      · cases hstep
        exact .inl (h.of_same rfl fun _ _ => id)
      · cases hstep
  | testStop =>
      simp only [step] at hstep
      split at hstep
      · cases hstep
        exact .inl (h.of_same rfl fun _ _ => id)
      · cases hstep
  | replaceMap =>
      simp only [step] at hstep
      split at hstep
      · obtain ⟨hjournal, hsame⟩ := hadvance hstep
        exact (h.of_advance hjournal hsame).imp id (by rintro ⟨_, ⟨⟩⟩)
      · cases hstep
  | setCommitted ino' =>
      simp only [step] at hstep
      split at hstep
      · obtain ⟨hjournal, hsame⟩ := hadvance hstep
        exact (h.of_advance hjournal hsame).imp id (by rintro ⟨_, ⟨⟩⟩)
      · cases hstep
  | write objSize =>
      simp only [step] at hstep
      split at hstep
      · obtain ⟨s₁, hs₁, rfl⟩ := Option.map_eq_some_iff.mp hstep
        obtain ⟨hjournal, hsame⟩ := hadvance hs₁
        exact (h.of_advance hjournal hsame).imp id (by rintro ⟨_, ⟨⟩⟩)
      · cases hstep
  | issue =>
      simp only [step] at hstep
      split at hstep
      · obtain ⟨cell, -, rfl⟩ := Option.map_eq_some_iff.mp hstep
        exact .inl (h.of_same rfl fun _ _ => id)
      · cases hstep
  | endLoop =>
      simp only [step] at hstep
      split at hstep
      · cases hstep
        exact .inl (h.of_same rfl fun _ _ => id)
      · cases hstep
  | sentinel =>
      simp only [step] at hstep
      split at hstep
      · split at hstep
        · cases hstep
          exact .inl (h.of_same rfl fun _ _ => id)
        · cases hstep
      · cases hstep
  | dispatch i =>
      simp only [step] at hstep
      split at hstep
      · split at hstep
        · cases hstep
        · cases hstep
          exact .inl (h.of_same rfl fun _ _ => id)
      · cases hstep
  | checkpoint i =>
      simp only [step] at hstep
      split at hstep
      · rename_i id hworker
        cases hstep
        refine .inl (h.of_same rfl ?_)
        intro j id' hid'
        rcases eq_or_ne j i with rfl | hne
        · simp [hid']
        · simpa [Function.update_of_ne hne] using hid'
      · cases hstep

/-- The transaction that a thread works on has not been checkpointed. -/
theorem Inv.unfinished_of_working
    (hi : s.Inv) {i id : Nat} (hworker : s.workers i = .working id)
    (hown : s.owns ino id = true) : s.Unfinished ino := by
  refine .inr ⟨id, hown, ?_⟩
  intro j hj
  have hin : id ∈ s.dispatched i := by simp [dispatched, hworker, Worker.current]
  have hin' : id ∈ s.dispatched j := List.mem_append_left _ hj
  have hi₁ := queueOf_of_owns (hi.inQueue_of_dispatched hin) hown
  have hj₁ := queueOf_of_owns (hi.inQueue_of_dispatched hin') hown
  have hnodup := (hi.nodup_issued.filter _).sublist (hi.dispatched_issued i).sublist
  rw [← hj₁, hi₁] at hj
  rw [dispatched, hworker, Worker.current, List.nodup_append] at hnodup
  exact hnodup.2.2 id hj id List.mem_cons_self rfl

end Unfinished

end Checkpoints

namespace Cluster

/-- The client waits for an answer about the directory. -/
def Client.Asks (cl : Client) (ino : Uuid) : Prop :=
  ∃ kind phase, cl.op = some ⟨ino, kind, phase⟩ ∧ ∀ ok temp, phase ≠ .acquired ok temp

/-- The leases of a client are as before, and it asks for no lease that it
has. -/
structure Client.Same (cl cl' : Client) (now : Nat) : Prop where
  leases : cl'.leases = cl.leases
  asks : ∀ ino, cl'.Asks ino → cl.Asks ino ∨ cl.leases.isMine ino now = false

/-- The clock is read by the action. -/
inductive Reads : Action → Nat → Prop
  | tick (now : Nat) : Reads (.tick now) now
  | cas (c now' : Nat) : Reads (.cas c now') now'
  | foreign (ino : Uuid) (a : Address) (now' : Nat) : Reads (.foreign ino a now') now'

section Leases

variable {cl cl' : Client} {now : Nat} {ino : Uuid} {kind : OpKind}

theorem Client.Same.refl (cl : Client) (now : Nat) : cl.Same cl now :=
  ⟨rfl, fun _ => .inl⟩

theorem Client.Same.idle
    (hleases : cl'.leases = cl.leases) (hop : cl'.op = none) : cl.Same cl' now := by
  refine ⟨hleases, ?_⟩
  rintro ino ⟨kind, phase, h, -⟩
  rw [hop] at h
  cases h

theorem Client.Same.setPhase
    {phase phase' : Phase} (hop : cl.op = some ⟨ino, kind, phase⟩)
    (hphase : ∀ ok temp, phase ≠ .acquired ok temp) :
    cl.Same (cl.setPhase ino kind phase') now := by
  refine ⟨rfl, ?_⟩
  rintro ino' ⟨kind', phase₁, h, -⟩
  cases h
  exact .inl ⟨kind, phase, hop, hphase⟩

theorem Client.Same.lease
    (hleases : cl'.leases = cl.leases) : cl.Same (cl'.lease ino kind now) now := by
  refine ⟨hleases, ?_⟩
  rintro ino' ⟨kind', phase, h, hphase⟩
  simp only [Client.lease, Option.some.injEq, Op.mk.injEq] at h
  obtain ⟨rfl, rfl, rfl⟩ := h
  right
  rw [← hleases]
  cases hmine : cl'.leases.isMine ino now with
  | false => rfl
  | true =>
      rw [hmine, if_pos rfl] at hphase
      exact absurd rfl (hphase true [])

theorem Client.finish_same
    (cl : Client) (ino : Uuid) (kind : OpKind) (ok : Bool) (temp : Address)
    (built : Bool) :
    (cl.finish ino kind ok temp built).1.leases = cl.leases ∧
      (cl.finish ino kind ok temp built).1.op = none := by
  have hadd : ∀ t, (Client.addDentryTable { cl with op := none } ino t).leases = cl.leases ∧
      (Client.addDentryTable { cl with op := none } ino t).op = none := by
    intro t
    unfold Client.addDentryTable
    split
    · exact ⟨rfl, rfl⟩
    · exact ⟨rfl, rfl⟩
  simp only [Client.finish, apply_ite Prod.fst, apply_ite Client.leases, apply_ite Client.op,
    (hadd _).1, (hadd _).2, ite_self, and_self]

/-- The client has its answer, and updates its lease. -/
def State.Updates (s s' : State) (c : Nat) : Prop :=
  ∃ ino kind r, (s.clients c).op = some ⟨ino, kind, .updating r⟩ ∧
    s'.clients c = (s.clients c).update ino kind r ∧ s'.now = s.now

/-- What a step does to the clock and the leases. -/
theorem leases_step
    {addr : Nat → Address} {s s' : State} {a : Action} (hstep : step addr s a = some s') :
    (s'.now = s.now ∨ s.now ≤ s'.now ∧ Reads a s'.now) ∧
      ∀ c, (s.clients c).Same (s'.clients c) s.now ∨ s.Updates s' c := by
  have hclient : ∀ {c : Nat} {cl : Client}, s'.clients = Function.update s.clients c cl →
      (s.clients c).Same cl s.now →
      ∀ c', (s.clients c').Same (s'.clients c') s.now ∨ s.Updates s' c' := by
    intro c cl hclients hsame c'
    rw [hclients]
    rcases eq_or_ne c' c with rfl | hne
    · rw [Function.update_self]
      exact .inl hsame
    · rw [Function.update_of_ne hne]
      exact .inl (.refl _ _)
  have hall : s'.clients = s.clients →
      ∀ c', (s.clients c').Same (s'.clients c') s.now ∨ s.Updates s' c' := by
    intro hclients c'
    rw [hclients]
    exact .inl (.refl _ _)
  cases step_cases hstep with
  | tick hnow hs =>
      subst hs
      exact ⟨.inr ⟨hnow, .tick _⟩, hall rfl⟩
  | hit hs =>
      subst hs
      exact ⟨.inl rfl, hall rfl⟩
  | @miss c ino hop hmiss hs =>
      subst hs
      exact ⟨.inl rfl, hclient rfl (.lease (getDentryTable_snd _ ino false s.now).1)⟩
  | @serve c ino hop hs =>
      subst hs
      obtain ⟨hleases, hsame, -⟩ := getDentryTable_snd (s.clients c) ino true s.now
      exact ⟨.inl rfl, hclient rfl (.idle hleases (hsame.trans hop))⟩
  | @leaseMkdir c ino hop hnone hs =>
      subst hs
      exact ⟨.inl rfl, hclient rfl (.lease rfl)⟩
  | @find c ino kind phase hop hphase hs =>
      subst hs
      exact ⟨.inl rfl, hclient rfl (.setPhase hop nofun)⟩
  | @cas c now' ino kind e hop he hnow hs =>
      subst hs
      exact ⟨.inr ⟨hnow, .cas _ _⟩, hclient rfl (.setPhase hop nofun)⟩
  | @insert c ino kind hop hs =>
      subst hs
      exact ⟨.inl rfl, hclient rfl (.setPhase hop nofun)⟩
  | @receive c ino kind r hop hs =>
      subst hs
      exact ⟨.inl rfl, hclient rfl (.setPhase hop nofun)⟩
  | @update c ino kind r hop hs =>
      subst hs
      refine ⟨.inl rfl, fun c' => ?_⟩
      rcases eq_or_ne c' c with rfl | hne
      · exact .inr ⟨ino, kind, r, hop, Function.update_self _ _ _, rfl⟩
      · refine .inl ?_
        simp only [State.setClient, Function.update_of_ne hne]
        exact .refl _ _
  | @finish c ino kind ok temp built hop hs =>
      obtain ⟨hclients, -, hnow⟩ := setAddress_same
        (s.setClient c ((s.clients c).finish ino kind ok temp built).1) kind
        ((s.clients c).finish ino kind ok temp built).2
      rw [← hs] at hclients hnow
      obtain ⟨hleases, hdone⟩ := (s.clients c).finish_same ino kind ok temp built
      exact ⟨.inl hnow, hclient hclients (.idle hleases hdone)⟩
  | @fail c hs =>
      subst hs
      exact ⟨.inl rfl, hclient rfl (.idle rfl rfl)⟩
  | @deleteTable c ino hop hs =>
      subst hs
      exact ⟨.inl rfl, hclient rfl (.idle rfl hop)⟩
  | foreign hnow hs =>
      subst hs
      exact ⟨.inr ⟨hnow, .foreign _ _ _⟩, hall rfl⟩
  | openHandle hnone ht hs =>
      subst hs
      exact ⟨.inl rfl, hall rfl⟩
  | @request h c handle hh haddr hop hs =>
      subst hs
      obtain ⟨hleases, hsame, -⟩ :=
        getDentryTable_snd (s.clients c) handle.ino true s.now
      exact ⟨.inl rfl, hclient rfl (.idle hleases (hsame.trans hop))⟩
  | @retryHit h handle t hh hflag hhit hs =>
      obtain ⟨hclients, -, hnow⟩ := setAddress_same s (.retry h) (some t)
      rw [← hs] at hclients hnow
      exact ⟨.inl hnow, hall hclients⟩
  | @retryMiss h handle hh hflag hop hmiss hs =>
      subst hs
      exact ⟨.inl rfl, hclient rfl (.lease (getDentryTable_snd _ handle.ino false s.now).1)⟩

end Leases

end Cluster

/-- The clients with their leases, and the journal of each of them. -/
structure Leaders where
  cluster : Cluster.State
  journals : Nat → Checkpoints

namespace Leaders

open Cluster

inductive Act where
  | cluster (a : Action)
  | journal (c : Nat) (a : Checkpoints.Step)

def initial (now : Nat) : Leaders := ⟨Cluster.initial now, fun _ => .new⟩

def step (addr : Nat → Address) : Stepper Leaders Act
  | s, .cluster a =>
      (Cluster.step addr s.cluster a).map fun cluster => { s with cluster := cluster }
  | s, .journal c a =>
      (Checkpoints.step (s.journals c) a).map fun j =>
        { s with journals := Function.update s.journals c j }

/-- `is_mine`, at a client, now -/
def IsMine (s : Leaders) (c : Nat) (ino : Uuid) : Prop :=
  (s.cluster.clients c).leases.isMine ino s.cluster.now = true

/-- No lease runs out before `now` while the client that has it has something
to do for the directory. -/
def InTime (s : Leaders) (now : Nat) : Prop :=
  ∀ c ino e, (s.journals c).Unfinished ino →
    (s.cluster.clients c).leases ino = some e → now < e.due

/-- The clock passes no due too early, and an operation calls the journal while
the lease is valid. -/
def Held (s : Leaders) : Act → Prop
  | .cluster a => ∀ now, Reads a now → s.InTime now
  | .journal c (.operation (.call ino _)) => s.IsMine c ino
  | .journal _ _ => True

/-- What holds in every state. -/
structure Inv (addr : Nat → Address) (s : Leaders) : Prop where
  cluster : RetryInv addr s.cluster
  journals : ∀ c, (s.journals c).Inv
  asks : ∀ c ino, (s.cluster.clients c).Asks ino → ¬ s.IsMine c ino
  mine : ∀ c ino, (s.journals c).Unfinished ino → s.IsMine c ino

theorem inv_initial (addr : Nat → Address) (now : Nat) : Inv addr (initial now) where
  cluster := retryInv_initial addr now
  journals := fun _ => Checkpoints.inv_new
  asks := by
    rintro c ino ⟨kind, phase, h, -⟩
    cases h
  mine := by
    rintro c ino (⟨k, op, h, -⟩ | ⟨id, h, -⟩)
    · simp [initial, Checkpoints.new, JournalThreads.new] at h
    · simp [initial, Checkpoints.owns, Checkpoints.new, JournalThreads.new] at h

section Runs

variable {addr : Nat → Address}

theorem inv_step (hinj : Function.Injective addr) :
    (step addr).InvariantUnder Held (Inv addr) := by
  intro s a s' hi hheld hstep
  cases a with
  | cluster a =>
      obtain ⟨cluster, hcluster, rfl⟩ := Option.map_eq_some_iff.mp hstep
      obtain ⟨hnow, hclients⟩ := leases_step hcluster
      have hle : s.cluster.now ≤ cluster.now := by
        rcases hnow with h | h
        · exact Nat.le_of_eq h.symm
        · exact h.1
      refine ⟨retryInv_step hinj _ _ _ hi.cluster hcluster, hi.journals, ?_, ?_⟩
      · intro c ino hasks hmine
        obtain ⟨d, hd, hlt⟩ := LeaseTable.isMine_iff.mp hmine
        rcases hclients c with hsame | ⟨ino', kind, r, -, hupdate, -⟩
        · rw [hsame.leases] at hd
          have hbefore : s.IsMine c ino :=
            LeaseTable.isMine_iff.mpr ⟨d, hd, Nat.lt_of_le_of_lt hle hlt⟩
          rcases hsame.asks ino hasks with hold | hnot
          · exact hi.asks c ino hold hbefore
          · exact Bool.false_ne_true (hnot.symm.trans hbefore)
        · obtain ⟨kind', phase, hop, hphase⟩ := hasks
          rw [hupdate] at hop
          cases hop
          exact hphase _ _ rfl
      · intro c ino hunfinished
        have hmine := hi.mine c ino hunfinished
        obtain ⟨d, hd, hlt⟩ := LeaseTable.isMine_iff.mp hmine
        refine LeaseTable.isMine_iff.mpr ⟨d, ?_, ?_⟩
        · rcases hclients c with hsame | ⟨ino', kind, r, hop, hupdate, -⟩
          · rw [hsame.leases]
            exact hd
          · -- the lease that is updated is another one
            have hne : ino ≠ ino' := by
              rintro rfl
              exact hi.asks c ino ⟨kind, _, hop, nofun⟩ hmine
            rw [hupdate]
            exact (LeaseTable.update_of_ne hne _ _).trans hd
        · rcases hnow with hsame | ⟨-, hreads⟩
          · rw [hsame]
            exact hlt
          · exact hheld _ hreads c ino _ hunfinished hd
  | journal c a =>
      obtain ⟨j, hj, rfl⟩ := Option.map_eq_some_iff.mp hstep
      refine ⟨hi.cluster, ?_, hi.asks, ?_⟩
      · intro c'
        rcases eq_or_ne c' c with rfl | hne
        · simp only [Function.update_self]
          exact Checkpoints.inv_step _ _ _ (hi.journals c') hj
        · simp only [Function.update_of_ne hne]
          exact hi.journals c'
      · intro c' ino hunfinished
        rcases eq_or_ne c' c with rfl | hne
        · simp only [Function.update_self] at hunfinished
          rcases Checkpoints.unfinished_step hj hunfinished with hold | ⟨op, rfl⟩
          · exact hi.mine c' ino hold
          · exact hheld
        · simp only [Function.update_of_ne hne] at hunfinished
          exact hi.mine c' ino hunfinished

/-- A checkpoint thread of the client works on a transaction of the directory. -/
def Writes (s : Leaders) (c : Nat) (ino : Uuid) : Prop :=
  ∃ i id, (s.journals c).workers i = .working id ∧ (s.journals c).owns ino id = true

/-- In every run in which no lease runs out too early, whoever writes the objects
of a directory holds its lease, and nobody else does. -/
theorem leader_writes
    (hinj : Function.Injective addr) {now : Nat} {as : List Act} {s : Leaders}
    (hheld : (step addr).Steps Held (initial now) as)
    (hrun : (step addr).runFrom (initial now) as = some s) {c : Nat} {ino : Uuid}
    (hwrites : s.Writes c ino) :
    s.IsMine c ino ∧ ∀ c', s.IsMine c' ino → c' = c := by
  have hi := (inv_step hinj).runFrom (inv_initial addr now) hheld hrun
  obtain ⟨i, id, hworker, hown⟩ := hwrites
  have hmine := hi.mine c ino ((hi.journals c).unfinished_of_working hworker hown)
  refine ⟨hmine, ?_⟩
  intro c' hmine'
  obtain ⟨d, hd, hlt⟩ := LeaseTable.isMine_iff.mp hmine
  obtain ⟨d', hd', hlt'⟩ := LeaseTable.isMine_iff.mp hmine'
  have hentry := (hi.cluster.leaders c).lease ino d hd hlt
  have hentry' := (hi.cluster.leaders c').lease ino d' hd' hlt'
  rw [hentry] at hentry'
  exact hinj (ManagerEntry.mk.inj (Option.some.inj hentry')).2.symm

/-- The client 0 is given the lease of the root directory. -/
def leaseRoot : List Act :=
  [.cluster (.getTable 0 .root), .cluster (.find 0), .cluster (.insert 0),
    .cluster (.receive 0), .cluster (.update 0), .cluster (.finish 0 true)]

/-- The call goes on, and its transaction is committed. -/
def commitRoot : List Act :=
  [.journal 0 (.operation (.find 0)), .journal 0 (.operation (.insert 0)),
    .journal 0 (.operation (.run 0)), .journal 0 .testStop, .journal 0 .replaceMap,
    .journal 0 (.setCommitted .root), .journal 0 (.write 0), .journal 0 .issue]

/-- The lease runs out, and the client 1 is given the next one. -/
def nextLeader : List Act :=
  [.cluster (.tick leasePeriod), .cluster (.getTable 1 .root), .cluster (.find 1),
    .cluster (.cas 1 leasePeriod), .cluster (.receive 1), .cluster (.update 1),
    .cluster (.finish 1 true)]

/-- The client 0 changes the mode of the directory. -/
def callRoot : Act :=
  .journal 0 (.operation (.call .root
    (.chself (.new .nil 0 0 (sIFDIR ||| 0o700) .root ⟨1700000000, 0⟩))))

def dispatchRoot : Act := .journal 0 (.dispatch (queueOf .root))

def clientAddr (c : Nat) : Address := List.replicate c '1'

theorem clientAddr_injective : Function.Injective clientAddr := by
  intro c c' h
  simpa [clientAddr] using congrArg List.length h

theorem leader_writes_root :
    ∃ s, (step clientAddr).runFrom (initial 0)
        (leaseRoot ++ callRoot :: (commitRoot ++ [dispatchRoot])) = some s ∧
      s.IsMine 0 .root := by
  have hheld : (step clientAddr).Steps Held (initial 0)
      (leaseRoot ++ callRoot :: (commitRoot ++ [dispatchRoot])) := by
    refine Stepper.Steps.join (.of_mem ?_ _) rfl (.cons ?_ rfl (.of_mem ?_ _))
    · simp only [leaseRoot, List.forall_mem_cons]
      refine ⟨?_, ?_, ?_, ?_, ?_, ?_, nofun⟩ <;> rintro s now ⟨⟩
    · exact Eq.refl true
    · simp only [commitRoot, List.forall_mem_cons, List.cons_append, List.nil_append]
      refine ⟨?_, ?_, ?_, ?_, ?_, ?_, ?_, ?_, ?_, nofun⟩ <;> exact fun _ => trivial
  refine ⟨_, rfl, ?_⟩
  exact (leader_writes clientAddr_injective hheld rfl
    ⟨queueOf .root, 0, by decide, by decide⟩).1

/-- The client 0 writes the objects of a directory that the client 1 leads. -/
theorem former_leader_writes :
    ∃ s, (step clientAddr).runFrom (initial 0)
        (leaseRoot ++ callRoot :: (commitRoot ++ nextLeader ++ [dispatchRoot])) = some s ∧
      s.Writes 0 .root ∧ ¬ s.IsMine 0 .root ∧ s.IsMine 1 .root := by
  refine ⟨_, rfl, ⟨queueOf .root, 0, by decide, by decide⟩, ?_, ?_⟩
  · exact Bool.false_ne_true
  · exact Eq.refl true

end Runs

end Leaders

end Nmfs
