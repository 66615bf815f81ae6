import Nmfs.Lib.Transitions
import Nmfs.Lease.LeaseTable

/-!
# The lease protocol

Any number of threads of any number of clients are inside
`lease_client::acquire`.  The manager serves a request in separate steps (the
lookup under the shared lock, then `cas` or the insertion), a response takes
any time to arrive, and the client updates its table in two steps.  The clock
is shared and never goes back.

The safety argument has two parts.  No step changes an unexpired entry of the
manager (`keepsUnexpired_of_step`), so that a lease that has been granted
belongs to the client until it is due.  And every unexpired claim of a client,
in its table or on its way to it, is backed by the manager's entry
(`leaseInv`).
-/

namespace Nmfs

namespace Acquire

/-- How far a call of `lease_client::acquire` has got. -/
inductive Phase where
  /-- the request is on its way, or waits at the manager -/
  | requested
  /-- `lease_table::acquire` has found an entry -/
  | found
  /-- `lease_table::acquire` has found no entry -/
  | missing
  /-- the response is on its way -/
  | answered (r : LeaseResponse)
  /-- `lease_table_client::update` has looked for an entry -/
  | updating (r : LeaseResponse)
deriving DecidableEq, Repr

structure Call where
  client : Nat
  ino : Uuid
  phase : Phase
deriving DecidableEq

/-- The whole system.  `calls` holds the calls in progress, by number. -/
structure State where
  now : Nat
  manager : ManagerTable
  tables : Nat → LeaseTable
  calls : Nat → Option Call

/-- A client has been started at some time; nobody has a lease. -/
def initial (now : Nat) : State where
  now := now
  manager := fun _ => none
  tables := fun _ _ => none
  calls := fun _ => none

inductive Action where
  /-- time passes -/
  | tick (now : Nat)
  /-- a thread of the client calls `acquire` -/
  | call (k client : Nat) (ino : Uuid)
  /-- the manager looks the entry up -/
  | find (k : Nat)
  /-- `cas` on the entry that was found; `now'` is the second clock reading -/
  | cas (k now' : Nat)
  /-- the insertion -/
  | insert (k : Nat)
  /-- the response arrives, and `update` looks the entry up -/
  | receive (k : Nat)
  /-- `update` ends, and `acquire` returns -/
  | update (k : Nat)

variable (addr : Nat → Address)

def State.setCall (s : State) (k : Nat) (call : Option Call) : State :=
  { s with calls := Function.update s.calls k call }

/-- One action.  A call of a client that knows to be the leader returns at
once. -/
def step : Stepper State Action
  | s, .tick now => if s.now ≤ now then some { s with now := now } else none
  | s, .call k client ino =>
      match s.calls k with
      | some _ => none
      | none =>
          if (s.tables client).isMine ino s.now then some s
          else some (s.setCall k (some ⟨client, ino, .requested⟩))
  | s, .find k =>
      match s.calls k with
      | some ⟨client, ino, .requested⟩ =>
          let phase := if (s.manager (uuidToString ino)).isSome
            then Phase.found else Phase.missing
          some (s.setCall k (some ⟨client, ino, phase⟩))
      | _ => none
  | s, .cas k now' =>
      match s.calls k with
      | some ⟨client, ino, .found⟩ =>
          match s.manager (uuidToString ino) with
          | none => none
          | some e =>
              if s.now ≤ now' then
                let (r, e') := e.cas s.now now' (addr client)
                some { (s.setCall k (some ⟨client, ino, .answered r⟩)) with
                  now := now'
                  manager := Function.update s.manager (uuidToString ino)
                    (some e') }
              else none
      | _ => none
  | s, .insert k =>
      match s.calls k with
      | some ⟨client, ino, .missing⟩ =>
          let (r, manager) := s.manager.insert ino s.now (addr client)
          some { (s.setCall k (some ⟨client, ino, .answered r⟩)) with
            manager := manager }
      | _ => none
  | s, .receive k =>
      match s.calls k with
      | some ⟨client, ino, .answered r⟩ =>
          some (s.setCall k (some ⟨client, ino, .updating r⟩))
      | _ => none
  | s, .update k =>
      match s.calls k with
      | some ⟨client, ino, .updating r⟩ =>
          some { (s.setCall k none) with
            tables := Function.update s.tables client
              ((s.tables client).update ino r.latestDue r.ok) }
      | _ => none

/-- What a step does to the three tables, action by action. -/
inductive StepCases (s s' : State) : Action → Prop
  | tick {now : Nat} (hnow : s.now ≤ now) (hs : s' = { s with now := now }) :
      StepCases s s' (.tick now)
  | mine {k client : Nat} {ino : Uuid} (hs : s' = s) :
      StepCases s s' (.call k client ino)
  | call {k client : Nat} {ino : Uuid} (hcall : s.calls k = none)
      (hs : s' = s.setCall k (some ⟨client, ino, .requested⟩)) :
      StepCases s s' (.call k client ino)
  | find {k client : Nat} {ino : Uuid} {phase : Phase}
      (hcall : s.calls k = some ⟨client, ino, .requested⟩)
      (hphase : phase = .found ∨ phase = .missing)
      (hs : s' = s.setCall k (some ⟨client, ino, phase⟩)) :
      StepCases s s' (.find k)
  | cas {k now' client : Nat} {ino : Uuid} {e : ManagerEntry}
      (hcall : s.calls k = some ⟨client, ino, .found⟩)
      (he : s.manager (uuidToString ino) = some e) (hnow : s.now ≤ now')
      (hs : s' = { (s.setCall k (some ⟨client, ino,
          .answered (e.cas s.now now' (addr client)).1⟩)) with
        now := now'
        manager := Function.update s.manager (uuidToString ino)
          (some (e.cas s.now now' (addr client)).2) }) :
      StepCases s s' (.cas k now')
  | insert {k client : Nat} {ino : Uuid}
      (hcall : s.calls k = some ⟨client, ino, .missing⟩)
      (hs : s' = { (s.setCall k (some ⟨client, ino,
          .answered (s.manager.insert ino s.now (addr client)).1⟩)) with
        manager := (s.manager.insert ino s.now (addr client)).2 }) :
      StepCases s s' (.insert k)
  | receive {k client : Nat} {ino : Uuid} {r : LeaseResponse}
      (hcall : s.calls k = some ⟨client, ino, .answered r⟩)
      (hs : s' = s.setCall k (some ⟨client, ino, .updating r⟩)) :
      StepCases s s' (.receive k)
  | update {k client : Nat} {ino : Uuid} {r : LeaseResponse}
      (hcall : s.calls k = some ⟨client, ino, .updating r⟩)
      (hs : s' = { (s.setCall k none) with
        tables := Function.update s.tables client
          ((s.tables client).update ino r.latestDue r.ok) }) :
      StepCases s s' (.update k)

theorem step_cases
    {s s' : State} {a : Action} (h : step addr s a = some s') :
    StepCases addr s s' a := by
  cases a with
  | tick now =>
      simp only [step, Option.ite_none_right_eq_some, Option.some.injEq] at h
      exact .tick h.1 h.2.symm
  | call k client ino =>
      simp only [step] at h
      split at h
      · cases h
      · split at h
        · exact .mine (Option.some.inj h).symm
        · exact .call ‹_› (Option.some.inj h).symm
  | find k =>
      simp only [step] at h
      split at h
      · refine .find ‹_› ?_ (Option.some.inj h).symm
        split <;> simp
      · cases h
  | cas k now' =>
      simp only [step] at h
      split at h
      · split at h
        · cases h
        · split at h
          · exact .cas ‹_› ‹_› ‹_› (Option.some.inj h).symm
          · cases h
      · cases h
  | insert k =>
      simp only [step] at h
      split at h
      · exact .insert ‹_› (Option.some.inj h).symm
      · cases h
  | receive k =>
      simp only [step] at h
      split at h
      · exact .receive ‹_› (Option.some.inj h).symm
      · cases h
  | update k =>
      simp only [step] at h
      split at h
      · exact .update ‹_› (Option.some.inj h).symm
      · cases h

/-- Time has passed, and no entry of the manager that is still unexpired has
changed. -/
def KeepsUnexpired (s s' : State) : Prop :=
  s.now ≤ s'.now ∧ s.manager.Keeps s'.manager s'.now

theorem KeepsUnexpired.trans
    {s s' s'' : State} (h : KeepsUnexpired s s') (h' : KeepsUnexpired s' s'') :
    KeepsUnexpired s s'' := by
  refine ⟨Nat.le_trans h.1 h'.1, ?_⟩
  intro key e he hdue
  exact h'.2 key e (h.2 key e he (Nat.lt_of_le_of_lt h'.1 hdue)) hdue

theorem keepsUnexpired_of_step
    {s s' : State} {a : Action} (h : step addr s a = some s') :
    KeepsUnexpired s s' := by
  cases step_cases addr h with
  | tick hnow hs =>
      subst hs
      exact ⟨hnow, ManagerTable.Keeps.refl _ _⟩
  | mine hs | call _ hs | find _ _ hs | receive _ hs | update _ hs =>
      subst hs
      exact ⟨Nat.le_refl _, ManagerTable.Keeps.refl _ _⟩
  | cas hcall hman hnow hs =>
      subst hs
      exact ⟨hnow, ManagerTable.keeps_cas hman hnow⟩
  | insert hcall hs =>
      subst hs
      exact ⟨Nat.le_refl _, ManagerTable.keeps_insert _ _ _ _ _⟩

theorem keepsUnexpired_of_run
    {s s' : State} {as : List Action}
    (h : (step addr).runFrom s as = some s') : KeepsUnexpired s s' := by
  induction as generalizing s with
  | nil =>
      simp only [Stepper.runFrom_nil, Option.some.injEq] at h
      subst h
      exact ⟨Nat.le_refl _, ManagerTable.Keeps.refl _ _⟩
  | cons a as ih =>
      obtain ⟨s₁, hstep, hrun⟩ := (Stepper.runFrom_cons _).mp h
      exact (keepsUnexpired_of_step addr hstep).trans (ih hrun)

/-- In this step the manager gives the lease of `ino` to the client with
address `a`, until `d`. -/
def Grants (s : State) (act : Action) (s' : State) (ino : Uuid) (a : Address)
    (d : Nat) : Prop :=
  step addr s act = some s' ∧
    ∃ k client r, ((∃ now', act = .cas k now') ∨ act = .insert k) ∧
      s'.calls k = some ⟨client, ino, .answered r⟩ ∧
      r.ok = true ∧ r.latestDue = d ∧ addr client = a

/-- A grant is what the entry says afterwards, and an unexpired entry of
another client refuses it. -/
theorem Grants.entry
    {s s' : State} {act : Action} {ino : Uuid} {a : Address} {d : Nat}
    (h : Grants addr s act s' ino a d) :
    s'.manager (uuidToString ino) = some ⟨d, a⟩ ∧
      ∀ e, s.manager (uuidToString ino) = some e → s.now < e.due →
        e.addr = a := by
  obtain ⟨hstep, k, client, r, hact, hcall', hok, rfl, rfl⟩ := h
  cases step_cases addr hstep with
  | tick | mine | call | find | receive | update => simp at hact
  | @cas k₁ now' client₁ ino₁ e hcall hman hnow hs =>
      simp only [Action.cas.injEq, reduceCtorEq, or_false] at hact
      obtain ⟨now'', rfl, rfl⟩ := hact
      subst hs
      simp only [State.setCall, Function.update_self, Option.some.injEq,
        Call.mk.injEq, Phase.answered.injEq] at hcall'
      obtain ⟨rfl, rfl, rfl⟩ := hcall'
      refine ⟨?_, ?_⟩
      · simp only [Function.update_self, Option.some.injEq]
        exact e.cas_of_ok hok
      · intro e' he' hlt
        rw [hman] at he'
        cases he'
        exact e.addr_of_cas_ok hlt hok
  | @insert k₁ client₁ ino₁ hcall hs =>
      simp only [Action.insert.injEq, reduceCtorEq, exists_false,
        false_or] at hact
      subst hact
      subst hs
      simp only [State.setCall, Function.update_self, Option.some.injEq,
        Call.mk.injEq, Phase.answered.injEq] at hcall'
      obtain ⟨rfl, rfl, rfl⟩ := hcall'
      simp only [ManagerTable.insert] at hok ⊢
      rcases hman : s.manager (uuidToString ino₁) with _ | e
      · simp
      · rw [hman] at hok
        simp only [decide_eq_true_eq] at hok
        simp only [hman, Option.some.injEq, forall_eq']
        exact ⟨by rw [← hok], fun _ => hok⟩

/-- Every claim to be the leader is backed by the manager. -/
structure LeaseInv (s : State) : Prop where
  table : ∀ client ino d,
    s.tables client ino = some ⟨d, true⟩ →
      Backed s.manager s.now ino d (addr client)
  call : ∀ k client ino r,
    s.calls k = some ⟨client, ino, .answered r⟩ ∨
      s.calls k = some ⟨client, ino, .updating r⟩ →
    r.ok = true → Backed s.manager s.now ino r.latestDue (addr client)

theorem leaseInv_initial (now : Nat) : LeaseInv addr (initial now) where
  table := by
    intro client ino d h
    simp [initial] at h
  call := by
    intro k client ino r h
    simp [initial] at h

/-- A step that leaves the clients' tables alone, and changes one call. -/
theorem LeaseInv.setCall
    {s s' : State} {k : Nat} {call : Option Call} (h : LeaseInv addr s)
    (hk : KeepsUnexpired s s') (htables : s'.tables = s.tables)
    (hcalls : s'.calls = Function.update s.calls k call)
    (hnew : ∀ client ino r, call = some ⟨client, ino, .answered r⟩ ∨
        call = some ⟨client, ino, .updating r⟩ →
      r.ok = true → Backed s'.manager s'.now ino r.latestDue (addr client)) :
    LeaseInv addr s' := by
  constructor
  · intro client ino d hd
    rw [htables] at hd
    exact (h.table client ino d hd).mono hk.1 hk.2
  · intro j client ino r hj hok
    rw [hcalls] at hj
    by_cases hjk : j = k
    · subst hjk
      rw [Function.update_self] at hj
      exact hnew client ino r hj hok
    · rw [Function.update_of_ne hjk] at hj
      exact (h.call j client ino r hj hok).mono hk.1 hk.2

theorem leaseInv_step :
    Stepper.Invariant (step addr) (LeaseInv addr) := by
  intro s a s' h hstep
  have hk := keepsUnexpired_of_step addr hstep
  cases step_cases addr hstep with
  | tick hnow hs =>
      subst hs
      exact ⟨fun c i d hd => (h.table c i d hd).mono hk.1 hk.2,
        fun j c i r hj hok => (h.call j c i r hj hok).mono hk.1 hk.2⟩
  | mine hs =>
      subst hs
      exact h
  | call hcall hs =>
      subst hs
      exact h.setCall addr hk rfl rfl (by simp)
  | find hcall hphase hs =>
      subst hs
      refine h.setCall addr hk rfl rfl ?_
      rcases hphase with rfl | rfl <;> simp
  | @cas k now' client ino e hcall hman hnow hs =>
      -- a granted lease is in the entry
      have hgrant : ∀ d, (e.cas s.now now' (addr client)).1.ok = true →
          (e.cas s.now now' (addr client)).1.latestDue = d →
          Grants addr s (.cas k now') s' ino (addr client) d := by
        intro d hok hd
        refine ⟨hstep, k, client, _, Or.inl ⟨now', rfl⟩, ?_, hok, hd, rfl⟩
        rw [hs]
        simp [State.setCall]
      refine h.setCall addr hk (by rw [hs]; rfl) (by rw [hs]; rfl) ?_
      intro client' ino' r hr hok
      simp only [Option.some.injEq, Call.mk.injEq, Phase.answered.injEq,
        reduceCtorEq, and_false, or_false] at hr
      obtain ⟨rfl, rfl, rfl⟩ := hr
      exact fun _ => (hgrant _ hok rfl).entry addr |>.1
  | @insert k client ino hcall hs =>
      have hgrant : ∀ d, (s.manager.insert ino s.now (addr client)).1.ok = true →
          (s.manager.insert ino s.now (addr client)).1.latestDue = d →
          Grants addr s (.insert k) s' ino (addr client) d := by
        intro d hok hd
        refine ⟨hstep, k, client, _, Or.inr rfl, ?_, hok, hd, rfl⟩
        rw [hs]
        simp [State.setCall]
      refine h.setCall addr hk (by rw [hs]; rfl) (by rw [hs]; rfl) ?_
      intro client' ino' r hr hok
      simp only [Option.some.injEq, Call.mk.injEq, Phase.answered.injEq,
        reduceCtorEq, and_false, or_false] at hr
      obtain ⟨rfl, rfl, rfl⟩ := hr
      exact fun _ => (hgrant _ hok rfl).entry addr |>.1
  | receive hcall hs =>
      subst hs
      refine h.setCall addr hk rfl rfl ?_
      intro client' ino' r hr hok
      simp only [Option.some.injEq, Call.mk.injEq, Phase.updating.injEq,
        reduceCtorEq, and_false, false_or] at hr
      obtain ⟨rfl, rfl, rfl⟩ := hr
      exact (h.call _ _ _ _ (Or.inl hcall) hok).mono hk.1 hk.2
  | @update k client ino r hcall hs =>
      subst hs
      constructor
      · intro c i d hd
        refine Backed.mono ?_ hk.1 hk.2
        by_cases hc : c = client
        · subst hc
          simp only [Function.update_self] at hd
          by_cases hi : i = ino
          · subst hi
            rcases (s.tables c).update_self i r.latestDue r.ok with
              ⟨-, hu⟩ | ⟨e, he, ⟨-, hu⟩ | ⟨-, hu⟩⟩
            · rw [hu] at hd
              simp only [Option.some.injEq, LeaseEntry.mk.injEq] at hd
              rw [← hd.1]
              exact h.call k c i r (Or.inr hcall) hd.2
            · rw [hu] at hd
              simp only [Option.some.injEq, LeaseEntry.mk.injEq] at hd
              rw [← hd.1]
              exact h.call k c i r (Or.inr hcall) hd.2
            · rw [hu] at hd
              rw [hd] at he
              exact h.table c i d he
          · rw [LeaseTable.update_of_ne hi] at hd
            exact h.table c i d hd
        · simp only [Function.update_of_ne hc] at hd
          exact h.table c i d hd
      · intro j c i r' hj hok
        by_cases hjk : j = k
        · subst hjk
          simp [State.setCall] at hj
        · simp only [State.setCall, Function.update_of_ne hjk] at hj
          exact (h.call j c i r' hj hok).mono hk.1 hk.2

/-- **At most one leader.** A granted lease is not given to another address
before its due; and a client that holds itself for the leader is alone, and is
in the manager's entry with a due that has not passed. -/
theorem leader_unique (hinj : Function.Injective addr) :
    (∀ s act s₁ as s₂ act₂ s₃ ino a d a' d',
      Grants addr s act s₁ ino a d → (step addr).runFrom s₁ as = some s₂ →
      Grants addr s₂ act₂ s₃ ino a' d' → s₂.now < d → a' = a) ∧
    ∀ now as s, (step addr).runFrom (initial now) as = some s → ∀ ino,
      (∀ c c', (s.tables c).isMine ino s.now = true →
        (s.tables c').isMine ino s.now = true → c = c') ∧
      ∀ c, (s.tables c).isMine ino s.now = true →
        ∃ d, s.manager (uuidToString ino) = some ⟨d, addr c⟩ ∧ s.now < d := by
  constructor
  · intro s act s₁ as s₂ act₂ s₃ ino a d a' d' hg hrun hg' hlt
    have hentry := (hg.entry addr).1
    have hk := keepsUnexpired_of_run addr hrun
    exact ((hg'.entry addr).2 _ (hk.2 _ _ hentry hlt) hlt).symm
  · intro now as s hrun ino
    have hinv := (leaseInv_step addr).runFrom (leaseInv_initial addr now) hrun
    have hbacked : ∀ c, (s.tables c).isMine ino s.now = true →
        ∃ d, s.manager (uuidToString ino) = some ⟨d, addr c⟩ ∧ s.now < d := by
      intro c hc
      obtain ⟨d, hd, hlt⟩ := LeaseTable.isMine_iff.mp hc
      exact ⟨d, hinv.table c ino d hd hlt, hlt⟩
    refine ⟨?_, hbacked⟩
    intro c c' hc hc'
    obtain ⟨d, hd, -⟩ := hbacked c hc
    obtain ⟨d', hd', -⟩ := hbacked c' hc'
    rw [hd] at hd'
    simp only [Option.some.injEq, ManagerEntry.mk.injEq] at hd'
    exact hinj hd'.2

/-- Two clients ask for the lease of the root, one after the other. -/
def twoAsk : List Action :=
  [.call 0 0 .root, .find 0, .insert 0, .receive 0, .update 0,
    .call 1 1 .root, .find 1, .cas 1 7, .receive 1, .update 1]

/-- The first client that asks is the leader, and the second one is not. -/
theorem leader_unique_first :
    ∃ s d, (step (fun c => Nat.toDigits 10 c)).runFrom (initial 7) twoAsk = some s ∧
      s.manager (uuidToString .root) = some ⟨d, Nat.toDigits 10 0⟩ ∧ s.now < d ∧
      (s.tables 0).isMine .root s.now = true ∧
      (s.tables 1).isMine .root s.now = false := by
  have hinj : Function.Injective fun c => Nat.toDigits 10 c := by
    intro c c' h
    have := congrArg (fun l => Nat.ofDigitChars 10 l 0) h
    simpa only [Nat.ofDigitChars_ten_toDigits] using this
  obtain ⟨hunique, hbacked⟩ := (leader_unique _ hinj).2 7 twoAsk _ rfl .root
  obtain ⟨d, hd, hlt⟩ := hbacked 0 (by decide)
  refine ⟨_, d, rfl, hd, hlt, by decide, ?_⟩
  rw [Bool.eq_false_iff]
  exact fun hmine => absurd (hunique 0 1 (by decide) hmine) (by decide)

end Acquire

end Nmfs
