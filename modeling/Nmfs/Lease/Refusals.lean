import Nmfs.Lease.Acquire

/-!
# What a refused lease says

A client that is refused a lease takes `remote_addr` for the address of the
leader.  On three of the four paths of `lease_table::acquire` the answer fits
the manager's entry.  On the fourth, where the lookup has found nothing and the
insertion finds the entry of a faster client, `remote_addr` is still the
caller's own.

A due never goes back (`due_of_step`), and an entry that appears after a lookup
that found nothing is due later than that lookup; this is what a lost race of
two calls of one client rests on.
-/

namespace Nmfs

namespace Acquire

variable (addr : Nat → Address)

/-- An entry of the manager after a step: it was there before, and is due no
earlier than it was, or its due is still to come. -/
theorem due_of_step
    {s s' : State} {a : Action} {key : Key} {e' : ManagerEntry}
    (h : step addr s a = some s') (he' : s'.manager key = some e') :
    (∃ e, s.manager key = some e ∧ e.due ≤ e'.due) ∨ s.now < e'.due := by
  cases step_cases addr h with
  | tick hnow hs =>
      subst hs
      exact .inl ⟨e', he', Nat.le_refl _⟩
  | mine hs | call _ hs | find _ _ hs | receive _ hs | update _ hs =>
      subst hs
      exact .inl ⟨e', he', Nat.le_refl _⟩
  | @cas k now' client ino e hcall he hnow hs =>
      subst hs
      by_cases hkey : key = uuidToString ino
      · subst hkey
        simp only [Function.update_self, Option.some.injEq] at he'
        subst he'
        by_cases hdue : e.due ≤ s.now
        · right
          simp only [ManagerEntry.cas, if_pos hdue]
          have := leasePeriod_pos
          omega
        · left
          refine ⟨e, he, ?_⟩
          simp only [ManagerEntry.cas, if_neg hdue]
          split <;> exact Nat.le_refl _
      · simp only [Function.update_of_ne hkey] at he'
        exact .inl ⟨e', he', Nat.le_refl _⟩
  | @insert k client ino hcall hs =>
      subst hs
      simp only [ManagerTable.insert] at he'
      split at he'
      · by_cases hkey : key = uuidToString ino
        · subst hkey
          simp only [Function.update_self, Option.some.injEq] at he'
          subst he'
          right
          have := leasePeriod_pos
          simp only
          omega
        · simp only [Function.update_of_ne hkey] at he'
          exact .inl ⟨e', he', Nat.le_refl _⟩
      · exact .inl ⟨e', he', Nat.le_refl _⟩

/-- The call `k` has been made at the time `t`.  If its lookup has found
nothing, whatever entry there is now is due after `t`. -/
structure Waits (k client : Nat) (ino : Uuid) (t : Nat) (s : State) :
    Prop where
  now : t ≤ s.now
  call : ∃ phase, s.calls k = some ⟨client, ino, phase⟩
  missing : s.calls k = some ⟨client, ino, .missing⟩ →
    ∀ e, s.manager (uuidToString ino) = some e → t < e.due

section Waits

variable {k client : Nat} {ino : Uuid} {t : Nat} {s s' : State}

/-- The manager after a lookup. -/
theorem missing_of_find
    (h : step addr s (.find k) = some s')
    (hm : s'.calls k = some ⟨client, ino, .missing⟩) :
    s'.manager (uuidToString ino) = none := by
  simp only [step] at h
  split at h
  · obtain rfl := Option.some.inj h
    simp only [State.setCall, Function.update_self, Option.some.injEq,
      Call.mk.injEq] at hm ⊢
    obtain ⟨rfl, rfl, hphase⟩ := hm
    split at hphase
    · cases hphase
    · rename_i hnone
      simpa using hnone
  · cases h

/-- Another call, or the same with a phase that is not `missing`. -/
theorem Waits.of_calls
    {a : Action} (h : Waits k client ino t s) (hstep : step addr s a = some s')
    (hcall : s'.calls k = s.calls k ∨
      ∃ phase, phase ≠ .missing ∧ s'.calls k = some ⟨client, ino, phase⟩) :
    Waits k client ino t s' where
  now := Nat.le_trans h.now (keepsUnexpired_of_step addr hstep).1
  call := by
    rcases hcall with hsame | ⟨phase, -, hphase⟩
    · rw [hsame]
      exact h.call
    · exact ⟨phase, hphase⟩
  missing := by
    intro hm e' he'
    rcases hcall with hsame | ⟨phase, hne, hphase⟩
    · rw [hsame] at hm
      rcases due_of_step addr hstep he' with ⟨e, he, hle⟩ | hlt
      · exact Nat.lt_of_lt_of_le (h.missing hm e he) hle
      · exact Nat.lt_of_le_of_lt h.now hlt
    · rw [hphase] at hm
      cases hm
      exact absurd rfl hne

theorem Waits.step
    {a : Action} (h : Waits k client ino t s) (hstep : step addr s a = some s')
    (ha : a ≠ .update k) : Waits k client ino t s' := by
  obtain ⟨phase, hk⟩ := h.call
  -- the step of another call leaves this one alone
  have hother : ∀ {j : Nat} {c : Option Call} {s₁ : State},
      s₁.calls = (s.setCall j c).calls → j ≠ k → s₁.calls k = s.calls k := by
    intro j c s₁ hs₁ hne
    rw [hs₁]
    exact Function.update_of_ne (Ne.symm hne) _ _
  cases step_cases addr hstep with
  | tick hnow hs | mine hs =>
      subst hs
      exact h.of_calls addr hstep (.inl rfl)
  | @call j c i hcall hs =>
      refine h.of_calls addr hstep (.inl (hother (by rw [hs]) ?_))
      rintro rfl
      rw [hk] at hcall
      cases hcall
  | @find j c i ph hcall hphase hs =>
      by_cases hj : j = k
      · subst hj
        rw [hk] at hcall
        cases hcall
        refine ⟨Nat.le_trans h.now (keepsUnexpired_of_step addr hstep).1,
          ⟨ph, by rw [hs]; exact Function.update_self ..⟩, ?_⟩
        intro hm e he
        rw [missing_of_find addr hstep hm] at he
        cases he
      · exact h.of_calls addr hstep (.inl (hother (by rw [hs]) hj))
  | @cas j now' c i e hcall he hnow hs =>
      by_cases hj : j = k
      · subst hj
        rw [hk] at hcall
        cases hcall
        have hself : s'.calls j = some ⟨client, ino, .answered (e.cas s.now now' (addr client)).1⟩ := by
          rw [hs]
          exact Function.update_self ..
        exact h.of_calls addr hstep (.inr ⟨_, by simp, hself⟩)
      · exact h.of_calls addr hstep (.inl (hother (by rw [hs]) hj))
  | @insert j c i hcall hs =>
      by_cases hj : j = k
      · subst hj
        rw [hk] at hcall
        cases hcall
        have hself : s'.calls j = some ⟨client, ino, .answered (s.manager.insert ino s.now (addr client)).1⟩ := by
          rw [hs]
          exact Function.update_self ..
        exact h.of_calls addr hstep (.inr ⟨_, by simp, hself⟩)
      · exact h.of_calls addr hstep (.inl (hother (by rw [hs]) hj))
  | @receive j c i r hcall hs =>
      by_cases hj : j = k
      · subst hj
        rw [hk] at hcall
        cases hcall
        have hself : s'.calls j = some ⟨client, ino, .updating r⟩ := by
          rw [hs]
          exact Function.update_self ..
        exact h.of_calls addr hstep (.inr ⟨_, by simp, hself⟩)
      · exact h.of_calls addr hstep (.inl (hother (by rw [hs]) hj))
  | @update j c i r hcall hs =>
      refine h.of_calls addr hstep (.inl (hother (by rw [hs]) ?_))
      rintro rfl
      exact ha rfl

theorem Waits.run
    {as : List Action} (h : Waits k client ino t s)
    (hrun : (Acquire.step addr).runFrom s as = some s')
    (has : ∀ a ∈ as, a ≠ .update k) : Waits k client ino t s' := by
  induction as generalizing s with
  | nil =>
      simp only [Stepper.runFrom_nil, Option.some.injEq] at hrun
      subst hrun
      exact h
  | cons a as ih =>
      obtain ⟨s₁, hstep, hrest⟩ := (Stepper.runFrom_cons _).mp hrun
      exact ih (h.step addr hstep (has a List.mem_cons_self)) hrest
        fun b hb => has b (List.mem_cons_of_mem _ hb)

/-- A call that has just been made. -/
theorem waits_of_call
    (h : Acquire.step addr s (.call k client ino) = some s')
    (hcall : s'.calls k = some ⟨client, ino, .requested⟩) :
    Waits k client ino s.now s' where
  now := (keepsUnexpired_of_step addr h).1
  call := ⟨_, hcall⟩
  missing := by
    intro hm
    rw [hcall] at hm
    cases hm

end Waits

/-- The step in which the manager answers the call `k`. -/
def Answers (k : Nat) (a : Action) : Prop :=
  (∃ now', a = .cas k now') ∨ a = .insert k

/-- The answer `r` to a call made at the time `t` fits the entry that the
manager holds when it is given. -/
def Truthful (s : State) (client : Nat) (ino : Uuid) (t : Nat)
    (r : LeaseResponse) : Prop :=
  ∃ e, s.manager (uuidToString ino) = some e ∧
    (r.ok = false →
      r.remoteAddr = e.addr ∧ e.addr ≠ addr client ∧ r.latestDue = e.due) ∧
    (r.ok = true → e.addr = addr client ∧ t < r.latestDue)

/-- The insertion of the call `k` finds the entry of another client. -/
def LosesRace (s : State) (k client : Nat) (ino : Uuid) (a : Action) : Prop :=
  a = .insert k ∧
    ∃ e, s.manager (uuidToString ino) = some e ∧ e.addr ≠ addr client

section Answers

variable {k client : Nat} {ino : Uuid} {t : Nat} {s s' : State}
  {r : LeaseResponse}

/-- `cas` tells the truth. -/
theorem truthful_cas
    {now' : Nat} (h : Waits k client ino t s)
    (hstep : step addr s (.cas k now') = some s')
    (hr : s'.calls k = some ⟨client, ino, .answered r⟩) :
    Truthful addr s' client ino t r := by
  cases step_cases addr hstep with
  | @cas _ _ client₁ ino₁ e hcall he hnow hs =>
      subst hs
      simp only [State.setCall, Function.update_self, Option.some.injEq,
        Call.mk.injEq, Phase.answered.injEq] at hr
      obtain ⟨rfl, rfl, rfl⟩ := hr
      refine ⟨(e.cas s.now now' (addr client₁)).2, Function.update_self .., ?_⟩
      have hnow := h.now
      have hpos := leasePeriod_pos
      by_cases hdue : e.due ≤ s.now
      · simp only [ManagerEntry.cas, if_pos hdue, reduceCtorEq, true_implies,
          false_implies, true_and]
        omega
      · by_cases haddr : e.addr = addr client₁
        · simp only [ManagerEntry.cas, if_neg hdue, if_pos haddr, reduceCtorEq,
            true_implies, false_implies, true_and]
          exact ⟨haddr, by omega⟩
        · simp only [ManagerEntry.cas, if_neg hdue, if_neg haddr]
          exact ⟨fun _ => ⟨trivial, haddr, trivial⟩, by rintro ⟨⟩⟩

/-- The insertion tells the truth unless it loses the race to another
client. -/
theorem truthful_insert_iff
    (h : Waits k client ino t s)
    (hstep : step addr s (.insert k) = some s')
    (hr : s'.calls k = some ⟨client, ino, .answered r⟩) :
    Truthful addr s' client ino t r ↔
      ¬ ∃ e, s.manager (uuidToString ino) = some e ∧ e.addr ≠ addr client := by
  cases step_cases addr hstep with
  | @insert _ client₁ ino₁ hcall hs =>
      subst hs
      simp only [State.setCall, Function.update_self, Option.some.injEq,
        Call.mk.injEq, Phase.answered.injEq] at hr
      obtain ⟨rfl, rfl, rfl⟩ := hr
      have hnow := h.now
      have hpos := leasePeriod_pos
      rcases hman : s.manager (uuidToString ino₁) with _ | e
      · refine iff_of_true ⟨⟨s.now + leasePeriod, addr client₁⟩, ?_⟩ (by simp)
        simp only [ManagerTable.insert, hman, Function.update_self,
          reduceCtorEq, false_implies, true_implies, true_and]
        omega
      · have hdue := h.missing hcall e hman
        by_cases haddr : e.addr = addr client₁
        · refine iff_of_true ⟨e, ?_⟩ (by simp [haddr])
          simp only [ManagerTable.insert, hman, haddr, decide_true,
            reduceCtorEq, false_implies, true_implies, true_and]
          exact hdue
        · refine iff_of_false ?_ (by simp [haddr])
          rintro ⟨e', he', hrefused, -⟩
          simp only [ManagerTable.insert, hman, haddr, decide_false] at he' hrefused
          obtain rfl := Option.some.inj he'
          exact haddr (hrefused trivial).1.symm

end Answers

/-- **A refused lease names the leader**, except to a client that has lost the
race for the first entry of a directory. -/
theorem answer_truthful_iff
    {s₀ s₁ s₂ s₃ : State} {k client : Nat} {ino : Uuid} {as : List Action}
    {a : Action} {r : LeaseResponse}
    (hcall : step addr s₀ (.call k client ino) = some s₁)
    (hsent : s₁.calls k = some ⟨client, ino, .requested⟩)
    (hrun : (step addr).runFrom s₁ as = some s₂)
    (has : ∀ b ∈ as, b ≠ .update k)
    (ha : Answers k a) (hstep : step addr s₂ a = some s₃)
    (hr : s₃.calls k = some ⟨client, ino, .answered r⟩) :
    Truthful addr s₃ client ino s₀.now r ↔
      ¬ LosesRace addr s₂ k client ino a := by
  have hw := (waits_of_call addr hcall hsent).run addr hrun has
  rcases ha with ⟨now', rfl⟩ | rfl
  · refine iff_of_true (truthful_cas addr hw hstep hr) ?_
    rintro ⟨heq, -⟩
    cases heq
  · rw [truthful_insert_iff addr hw hstep hr]
    simp [LosesRace]

section Examples

/-- The address of a client, in decimal. -/
def decimal (client : Nat) : Address := Nat.toDigits 10 client

/-- Client 1 asks after client 0 has got the lease, and is told so. -/
theorem answer_truthful_later :
    ∃ s₀ s₁ s₂ s₃ r,
      (step decimal).runFrom (initial 7)
        [.call 0 0 .root, .find 0, .insert 0] = some s₀ ∧
      step decimal s₀ (.call 1 1 .root) = some s₁ ∧
      (step decimal).runFrom s₁ [.find 1] = some s₂ ∧
      step decimal s₂ (.cas 1 8) = some s₃ ∧
      s₃.calls 1 = some ⟨1, .root, .answered r⟩ ∧ r.ok = false ∧
      (Truthful decimal s₃ 1 .root s₀.now r ↔
        ¬ LosesRace decimal s₂ 1 1 .root (.cas 1 8)) :=
  ⟨_, _, _, _, _, rfl, rfl, rfl, rfl, rfl, rfl,
    answer_truthful_iff decimal rfl rfl
      (show (step decimal).runFrom _ [.find 1] = some _ from rfl) (by simp)
      (.inl ⟨8, rfl⟩) rfl rfl⟩

/-- Two clients ask for a directory at the same time.  The second is refused,
and told its own address. -/
theorem answer_own_address :
    ∃ s₀ s₁ s₂ s₃ r,
      (step decimal).runFrom (initial 7) [.call 0 0 .root] = some s₀ ∧
      step decimal s₀ (.call 1 1 .root) = some s₁ ∧
      s₁.calls 1 = some ⟨1, .root, .requested⟩ ∧
      (step decimal).runFrom s₁ [.find 0, .find 1, .insert 0] = some s₂ ∧
      step decimal s₂ (.insert 1) = some s₃ ∧
      s₃.calls 1 = some ⟨1, .root, .answered r⟩ ∧
      r.ok = false ∧ r.remoteAddr = decimal 1 ∧
      ¬ Truthful decimal s₃ 1 .root s₀.now r := by
  refine ⟨_, _, _, _, _, rfl, rfl, rfl, rfl, rfl, rfl, rfl, rfl, ?_⟩
  rintro ⟨e, he, hrefused, -⟩
  obtain rfl := Option.some.inj he
  exact absurd (hrefused rfl).1 (by decide)

end Examples

end Acquire

end Nmfs
