import Nmfs.Lease.Directories

/-!
# Retries after `-ENOTLEADER`

When a request through a handle is answered with `-ENOTLEADER`, the loops of
`fuse_ops` call `find_remote_dentry_table_again` and send the request again, to
the address that the handle has then.

The address is the manager's answer, so it is that of the leader, as long as
the answer has not expired.  Only the caller itself is never reached:
`lc->acquire` does not set the address when it succeeds.

The difficult case is a client that loses the race for the first entry of a
directory.  It is given its own address, and keeps it in a REMOTE table; but
such a table does not outlive its first `-ENOTLEADER`.
-/

namespace Nmfs

namespace Cluster

/-- Client `c` has no handle for `ino`. -/
def Unopened (handles : Nat → Option Handle) (c : Nat) (ino : Uuid) : Prop :=
  ∀ h handle, handles h = some handle → handle.client = c → handle.ino ≠ ino

/-- The handles of client `c` for `ino` have the address `a`, and none of them
has been answered with `-ENOTLEADER`. -/
def Untried (handles : Nat → Option Handle) (c : Nat) (a : Address)
    (ino : Uuid) : Prop :=
  ∀ h handle, handles h = some handle → handle.client = c → handle.ino = ino →
    handle.address = a ∧ handle.notLeader = false

/-- What client `c` with address `a` knows about leaders. -/
structure LeaderInv (m : ManagerTable) (now : Nat)
    (handles : Nat → Option Handle) (c : Nat) (a : Address) (cl : Client) :
    Prop where
  lease : ∀ ino d, cl.leases ino = some ⟨d, true⟩ → Backed m now ino d a
  missing : ∀ ino kind, cl.op = some ⟨ino, kind, .missing⟩ →
    Unopened handles c ino
  answered : ∀ ino kind r,
    cl.op = some ⟨ino, kind, .answered r⟩ ∨
      cl.op = some ⟨ino, kind, .updating r⟩ →
    (r.ok = true → Backed m now ino r.latestDue a) ∧
    (r.ok = false → Backed m now ino r.latestDue r.remoteAddr ∨
      r.remoteAddr = a ∧ Unopened handles c ino)
  acquired : ∀ ino kind ok temp, cl.op = some ⟨ino, kind, .acquired ok temp⟩ →
    (ok = true → temp = []) ∧
    (ok = false → ∃ e, cl.leases ino = some e ∧
      (Backed m now ino e.due temp ∨ temp = a ∧ Unopened handles c ino))
  retrying : ∀ ino h phase, cl.op = some ⟨ino, .retry h, phase⟩ →
    ∃ handle, handles h = some handle ∧ handle.client = c ∧ handle.ino = ino
  table : ∀ ino t, cl.tables ino = some t →
    (t.loc = .LOCAL → t.leaderIp = []) ∧
    (t.loc = .REMOTE → ∃ e, cl.leases ino = some e ∧
      (Backed m now ino e.due t.leaderIp ∨
        t.leaderIp = a ∧ Untried handles c a ino))

theorem leaderInv_initial
    (m : ManagerTable) (now : Nat) (handles : Nat → Option Handle) (c : Nat)
    (a : Address) : LeaderInv m now handles c a .initial := by
  constructor <;> simp [Client.initial]

section ClientSteps

variable {m m' : ManagerTable} {now now' : Nat}
  {handles handles' : Nat → Option Handle} {c : Nat} {a : Address}
  {cl cl' : Client} {ino : Uuid} {kind : OpKind}

theorem LeaderInv.mono
    (h : LeaderInv m now handles c a cl) (hnow : now ≤ now')
    (hm : m.Keeps m' now') : LeaderInv m' now' handles c a cl where
  lease := fun ino d hd => (h.lease ino d hd).mono hnow hm
  missing := h.missing
  answered := by
    intro ino kind r hop
    obtain ⟨hok, hno⟩ := h.answered ino kind r hop
    exact ⟨fun hr => (hok hr).mono hnow hm,
      fun hr => (hno hr).imp_left fun hb => hb.mono hnow hm⟩
  acquired := by
    intro ino kind ok temp hop
    obtain ⟨hok, hno⟩ := h.acquired ino kind ok temp hop
    refine ⟨hok, ?_⟩
    intro hf
    obtain ⟨e, he, hb⟩ := hno hf
    exact ⟨e, he, hb.imp_left fun hb => hb.mono hnow hm⟩
  retrying := h.retrying
  table := by
    intro ino t ht
    obtain ⟨hlocal, hremote⟩ := h.table ino t ht
    refine ⟨hlocal, ?_⟩
    intro hloc
    obtain ⟨e, he, hb⟩ := hremote hloc
    exact ⟨e, he, hb.imp_left fun hb => hb.mono hnow hm⟩

/-- Tables may be dropped, and the operation given up. -/
theorem LeaderInv.drop
    (h : LeaderInv m now handles c a cl) (hleases : cl'.leases = cl.leases)
    (hop : cl'.op = none)
    (htables : ∀ ino t, cl'.tables ino = some t → cl.tables ino = some t) :
    LeaderInv m now handles c a cl' where
  lease := by
    rw [hleases]
    exact h.lease
  missing := by simp [hop]
  answered := by simp [hop]
  acquired := by simp [hop]
  retrying := by simp [hop]
  table := by
    intro ino t ht
    rw [hleases]
    exact h.table ino t (htables ino t ht)

theorem LeaderInv.getDentryTable
    (h : LeaderInv m now handles c a cl) (hop : cl.op = none) (ino : Uuid)
    (remote : Bool) (now' : Nat) :
    LeaderInv m now handles c a (cl.getDentryTable ino remote now').2 := by
  obtain ⟨hl, ho, ht⟩ := getDentryTable_snd cl ino remote now'
  exact h.drop hl (ho.trans hop) ht

/-- The operation proceeds to another phase. -/
theorem LeaderInv.setOp
    (h : LeaderInv m now handles c a cl) (kind : OpKind) (phase : Phase)
    (hmissing : phase = .missing → Unopened handles c ino)
    (hanswered : ∀ r, phase = .answered r ∨ phase = .updating r →
      (r.ok = true → Backed m now ino r.latestDue a) ∧
      (r.ok = false → Backed m now ino r.latestDue r.remoteAddr ∨
        r.remoteAddr = a ∧ Unopened handles c ino))
    (hacquired : ∀ ok temp, phase = .acquired ok temp → ok = true ∧ temp = [])
    (hretrying : ∀ h, kind = .retry h → ∃ handle, handles h = some handle ∧
      handle.client = c ∧ handle.ino = ino) :
    LeaderInv m now handles c a { cl with op := some ⟨ino, kind, phase⟩ } where
  lease := h.lease
  missing := by
    intro ino' kind' hop
    simp only [Option.some.injEq, Op.mk.injEq] at hop
    obtain ⟨rfl, rfl, hphase⟩ := hop
    exact hmissing hphase
  answered := by
    intro ino' kind' r hop
    simp only [Option.some.injEq, Op.mk.injEq] at hop
    rcases hop with ⟨rfl, rfl, hphase⟩ | ⟨rfl, rfl, hphase⟩
    · exact hanswered r (Or.inl hphase)
    · exact hanswered r (Or.inr hphase)
  acquired := by
    intro ino' kind' ok temp hop
    simp only [Option.some.injEq, Op.mk.injEq] at hop
    obtain ⟨rfl, rfl, hphase⟩ := hop
    obtain ⟨rfl, rfl⟩ := hacquired ok temp hphase
    simp
  retrying := by
    intro ino' h' phase' hop
    simp only [Option.some.injEq, Op.mk.injEq] at hop
    obtain ⟨rfl, rfl, -⟩ := hop
    exact hretrying h' rfl
  table := h.table

theorem LeaderInv.startLease
    (h : LeaderInv m now handles c a cl) (kind : OpKind) (now' : Nat)
    (hretrying : ∀ h, kind = .retry h → ∃ handle, handles h = some handle ∧
      handle.client = c ∧ handle.ino = ino) :
    LeaderInv m now handles c a (cl.lease ino kind now') := by
  refine h.setOp kind _ ?_ ?_ ?_ hretrying
  · split <;> simp
  · intro r hr
    split at hr <;> simp at hr
  · intro ok temp hr
    split at hr
    · simp only [Phase.acquired.injEq] at hr
      exact ⟨hr.1.symm, hr.2.symm⟩
    · cases hr

/-- A step of the operation before the client has the answer. -/
theorem LeaderInv.setPhase
    (h : LeaderInv m now handles c a cl) {phase phase' : Phase}
    (hop : cl.op = some ⟨ino, kind, phase⟩)
    (hmissing : phase' = .missing → Unopened handles c ino)
    (hanswered : ∀ r, phase' = .answered r ∨ phase' = .updating r →
      (r.ok = true → Backed m now ino r.latestDue a) ∧
      (r.ok = false → Backed m now ino r.latestDue r.remoteAddr ∨
        r.remoteAddr = a ∧ Unopened handles c ino))
    (hacquired : ∀ ok temp, phase' ≠ .acquired ok temp) :
    LeaderInv m now handles c a (cl.setPhase ino kind phase') := by
  refine h.setOp kind phase' hmissing hanswered ?_ ?_
  · intro ok temp hphase
    exact absurd hphase (hacquired ok temp)
  · rintro h' rfl
    exact h.retrying ino h' phase hop

theorem LeaderInv.update
    (h : LeaderInv m now handles c a cl) (hinv : ClientInv m a cl)
    {r : LeaseResponse} (hop : cl.op = some ⟨ino, kind, .updating r⟩) :
    LeaderInv m now handles c a (cl.update ino kind r) := by
  obtain ⟨hok, hno⟩ := h.answered ino kind r (Or.inr hop)
  have hnone : cl.tables ino = none := hinv.leasing _ hop
  -- the entry behind the update has the due and the role of the response
  have hself : cl.leases.update ino r.latestDue r.ok ino =
      some ⟨r.latestDue, r.ok⟩ := by
    rcases cl.leases.update_self ino r.latestDue r.ok with
      ⟨-, hu⟩ | ⟨e, he, ⟨-, hu⟩ | ⟨hge, hu⟩⟩
    · exact hu
    · exact hu
    · obtain ⟨hle, heq⟩ := (hinv.answered ino kind r (Or.inr hop)).2 e he
      have hdue : e.due = r.latestDue := Nat.le_antisymm hle hge
      rw [hu, ← hdue, ← heq hdue]
  constructor
  · intro ino' d hd
    simp only [Client.update] at hd
    by_cases hi : ino' = ino
    · subst hi
      rw [hself] at hd
      simp only [Option.some.injEq, LeaseEntry.mk.injEq] at hd
      rw [← hd.1]
      exact hok hd.2
    · rw [LeaseTable.update_of_ne hi] at hd
      exact h.lease ino' d hd
  · intro ino' kind' hop'
    simp [Client.update] at hop'
  · intro ino' kind' r' hop'
    simp [Client.update] at hop'
  · intro ino' kind' ok temp hop'
    simp only [Client.update, Option.some.injEq, Op.mk.injEq,
      Phase.acquired.injEq] at hop'
    obtain ⟨rfl, rfl, rfl, rfl⟩ := hop'
    constructor
    · intro hr
      simp [hr]
    · intro hr
      refine ⟨_, hself, ?_⟩
      simpa [hr] using hno hr
  · intro ino' h' phase hop'
    simp only [Client.update, Option.some.injEq, Op.mk.injEq] at hop'
    obtain ⟨rfl, rfl, -⟩ := hop'
    exact h.retrying _ h' _ hop
  · intro ino' t ht
    simp only [Client.update] at ht ⊢
    have hi : ino' ≠ ino := by
      rintro rfl
      rw [hnone] at ht
      cases ht
    rw [LeaseTable.update_of_ne hi]
    exact h.table ino' t ht

theorem LeaderInv.finish
    (h : LeaderInv m now handles c a cl) (hinv : ClientInv m a cl)
    {ok : Bool} {temp : Address}
    (hop : cl.op = some ⟨ino, kind, .acquired ok temp⟩) (built : Bool) :
    LeaderInv m now handles c a (cl.finish ino kind ok temp built).1 := by
  have hbase : LeaderInv m now handles c a { cl with op := none } :=
    h.drop rfl rfl (fun _ _ ht => ht)
  have hnone : cl.tables ino = none := hinv.leasing _ hop
  obtain ⟨hok, hno⟩ := h.acquired ino kind ok temp hop
  have hadd : LeaderInv m now handles c a
      (Client.addDentryTable { cl with op := none } ino
        ⟨if ok then .LOCAL else .REMOTE, temp⟩) := by
    simp only [Client.addDentryTable, hnone]
    refine { hbase with
      missing := by simp
      answered := by simp
      acquired := by simp
      retrying := by simp
      table := ?_ }
    intro ino' t ht
    by_cases hi : ino' = ino
    · subst hi
      simp only [Function.update_self, Option.some.injEq] at ht
      subst ht
      cases ok with
      | true => simpa using hok
      | false =>
          obtain ⟨e, he, hb⟩ := hno rfl
          simp only [Bool.false_eq_true, if_false, reduceCtorEq, false_implies,
            true_and]
          intro _
          refine ⟨e, he, hb.imp_right ?_⟩
          rintro ⟨rfl, hun⟩
          exact ⟨rfl, fun h' handle hh hc hi => absurd hi (hun h' handle hh hc)⟩
    · simp only [Function.update_of_ne hi] at ht
      exact h.table ino' t ht
  cases hthrows : (if kind = .mkdir then !ok else ok && !built) with
  | true =>
      simp only [Client.finish, hthrows, if_true]
      exact hbase
  | false =>
      simp only [Client.finish, hthrows, Bool.false_eq_true, if_false]
      exact hadd

/-- Handles are made from tables only, and those of a directory whose leader
is not known stay as they are. -/
theorem LeaderInv.setHandles
    (h : LeaderInv m now handles c a cl) (hinv : ClientInv m a cl)
    (hkept : ∀ h handle, handles h = some handle →
      ∃ handle', handles' h = some handle' ∧ handle'.client = handle.client ∧
        handle'.ino = handle.ino)
    (hnew : ∀ h handle', handles' h = some handle' → handle'.client = c →
      (∃ handle, handles h = some handle ∧ handle.client = c ∧
        handle.ino = handle'.ino) ∨ ∃ t, cl.tables handle'.ino = some t)
    (huntried : ∀ ino t, cl.tables ino = some t → t.leaderIp = a →
      Untried handles c a ino → Untried handles' c a ino) :
    LeaderInv m now handles' c a cl := by
  -- an operation has no table yet
  have hun : ∀ op, cl.op = some op → Unopened handles c op.ino →
      Unopened handles' c op.ino := by
    intro op hop hun h' handle' hh hc hi
    rcases hnew h' handle' hh hc with ⟨handle, hold, hc', hi'⟩ | ⟨t, ht⟩
    · exact hun h' handle hold hc' (hi'.trans hi)
    · rw [hi, hinv.leasing op hop] at ht
      cases ht
  refine
    { lease := h.lease, missing := ?_, answered := ?_, acquired := ?_
      retrying := ?_, table := ?_ }
  · intro ino kind hop
    exact hun _ hop (h.missing ino kind hop)
  · intro ino kind r hop
    obtain ⟨hok, hno⟩ := h.answered ino kind r hop
    refine ⟨hok, ?_⟩
    intro hr
    refine (hno hr).imp_right ?_
    rintro ⟨ha, hu⟩
    rcases hop with hop | hop
    · exact ⟨ha, hun _ hop hu⟩
    · exact ⟨ha, hun _ hop hu⟩
  · intro ino kind ok temp hop
    obtain ⟨hok, hno⟩ := h.acquired ino kind ok temp hop
    refine ⟨hok, ?_⟩
    intro hf
    obtain ⟨e, he, hb⟩ := hno hf
    exact ⟨e, he, hb.imp_right fun hu => ⟨hu.1, hun _ hop hu.2⟩⟩
  · intro ino h' phase hop
    obtain ⟨handle, hh, hc, hi⟩ := h.retrying ino h' phase hop
    obtain ⟨handle', hh', hc', hi'⟩ := hkept h' handle hh
    exact ⟨handle', hh', hc'.trans hc, hi'.trans hi⟩
  · intro ino t ht
    obtain ⟨hlocal, hremote⟩ := h.table ino t ht
    refine ⟨hlocal, ?_⟩
    intro hloc
    obtain ⟨e, he, hb⟩ := hremote hloc
    exact ⟨e, he, hb.imp_right fun hu => ⟨hu.1, huntried ino t ht hu.1 hu.2⟩⟩

end ClientSteps

/-- The invariant of all clients: a directory with a handle is known to the
manager. -/
structure RetryInv (addr : Nat → Address) (s : State) : Prop where
  clients : Inv addr s
  opened : ∀ h handle, s.handles h = some handle →
    ∃ e, s.manager (uuidToString handle.ino) = some e
  leaders : ∀ c,
    LeaderInv s.manager s.now s.handles c (addr c) (s.clients c)

section Invariant

variable {addr : Nat → Address} {s s' : State}

theorem retryInv_initial (addr : Nat → Address) (now : Nat) :
    RetryInv addr (initial now) where
  clients := inv_initial addr now
  opened := by simp [initial]
  leaders := fun c => leaderInv_initial _ _ _ c (addr c)

/-- Time passes, the manager's table advances, and one client changes. -/
theorem RetryInv.setClient
    (h : RetryInv addr s) (hinv : Inv addr s') {c : Nat} {cl : Client}
    (hnow : s.now ≤ s'.now) (hm : Advances s.manager s'.manager)
    (hkeeps : s.manager.Keeps s'.manager s'.now)
    (hhandles : s'.handles = s.handles)
    (hclients : s'.clients = Function.update s.clients c cl)
    (hcl : LeaderInv s'.manager s'.now s.handles c (addr c) cl) :
    RetryInv addr s' where
  clients := hinv
  opened := by
    intro h' handle hh
    rw [hhandles] at hh
    obtain ⟨e, he⟩ := h.opened h' handle hh
    obtain ⟨e', he', -⟩ := hm _ e he
    exact ⟨e', he'⟩
  leaders := by
    intro c'
    rw [hhandles, hclients]
    by_cases hc : c' = c
    · subst hc
      rw [Function.update_self]
      exact hcl
    · rw [Function.update_of_ne hc]
      exact (h.leaders c').mono hnow hkeeps

/-- A client takes a step of its own. -/
theorem RetryInv.local
    (h : RetryInv addr s) {c : Nat} {cl : Client}
    (hinv : Inv addr (s.setClient c cl))
    (hcl : LeaderInv s.manager s.now s.handles c (addr c) cl) :
    RetryInv addr (s.setClient c cl) :=
  h.setClient hinv (Nat.le_refl _) (Advances.refl _)
    (ManagerTable.Keeps.refl _ _) rfl rfl hcl

/-- Time passes, and the manager's table advances. -/
theorem RetryInv.advance
    (h : RetryInv addr s) (hinv : Inv addr s') (hnow : s.now ≤ s'.now)
    (hm : Advances s.manager s'.manager)
    (hkeeps : s.manager.Keeps s'.manager s'.now)
    (hhandles : s'.handles = s.handles) (hclients : s'.clients = s.clients) :
    RetryInv addr s' := by
  have hupdate : s'.clients = Function.update s.clients 0 (s.clients 0) := by
    rw [hclients, Function.update_eq_self]
  exact h.setClient hinv hnow hm hkeeps hhandles hupdate
    ((h.leaders 0).mono hnow hkeeps)

/-- One handle is made or changed. -/
theorem RetryInv.setHandle
    (h : RetryInv addr s) {h' : Nat} {handle : Handle}
    (hinv : Inv addr (s.setHandle h' handle))
    (hids : ∀ old, s.handles h' = some old →
      handle.client = old.client ∧ handle.ino = old.ino)
    (hopened : ∃ e, s.manager (uuidToString handle.ino) = some e)
    (hnew : s.handles h' = none →
      ∃ t, (s.clients handle.client).tables handle.ino = some t)
    (huntried : ∀ t,
      (s.clients handle.client).tables handle.ino = some t →
      t.leaderIp = addr handle.client →
      Untried s.handles handle.client (addr handle.client) handle.ino →
      handle.address = addr handle.client ∧ handle.notLeader = false) :
    RetryInv addr (s.setHandle h' handle) where
  clients := hinv
  opened := by
    intro h₁ handle₁ hh
    by_cases hi : h₁ = h'
    · subst hi
      simp only [State.setHandle, Function.update_self,
        Option.some.injEq] at hh
      exact hh ▸ hopened
    · simp only [State.setHandle, Function.update_of_ne hi] at hh
      exact h.opened h₁ handle₁ hh
  leaders := by
    intro c
    refine (h.leaders c).setHandles (h.clients c) ?_ ?_ ?_
    · intro h₁ old hh
      by_cases hi : h₁ = h'
      · subst hi
        exact ⟨handle, by simp [State.setHandle], hids old hh⟩
      · exact ⟨old, by simp [State.setHandle, hi, hh], rfl, rfl⟩
    · intro h₁ handle₁ hh hc
      by_cases hi : h₁ = h'
      · subst hi
        simp only [State.setHandle, Function.update_self,
          Option.some.injEq] at hh
        subst hh
        cases hold : s.handles h₁ with
        | none => exact Or.inr (hc ▸ hnew hold)
        | some old =>
            obtain ⟨hclient, hino⟩ := hids old hold
            exact Or.inl ⟨old, rfl, hclient ▸ hc, hino.symm⟩
      · simp only [State.setHandle, Function.update_of_ne hi] at hh
        exact Or.inl ⟨handle₁, hh, hc, rfl⟩
    · intro ino t ht hip hun h₁ handle₁ hh hc hino
      by_cases hi : h₁ = h'
      · subst hi
        simp only [State.setHandle, Function.update_self,
          Option.some.injEq] at hh
        subst hh hc hino
        exact huntried t ht hip hun
      · simp only [State.setHandle, Function.update_of_ne hi] at hh
        exact hun h₁ handle₁ hh hc hino

/-- A retry ends with a table: its address goes to the handle. -/
theorem RetryInv.setAddress
    (h : RetryInv addr s) {h' : Nat} {handle : Handle} {t : DirTable}
    (hh : s.handles h' = some handle)
    (ht : (s.clients handle.client).tables handle.ino = some t) :
    RetryInv addr (s.setAddress (.retry h') (some t)) := by
  have hs : s.setAddress (.retry h') (some t) =
      s.setHandle h' { handle with address := t.leaderIp, notLeader := false } := by
    simp [State.setAddress, hh]
  rw [hs]
  refine h.setHandle (fun c => h.clients c) ?_ (h.opened h' handle hh) ?_ ?_
  · intro old hold
    rw [hh] at hold
    cases hold
    exact ⟨rfl, rfl⟩
  · intro hnone
    rw [hh] at hnone
    cases hnone
  · intro t' ht' hip _
    simp only at ht' hip
    rw [ht] at ht'
    cases ht'
    exact ⟨hip, rfl⟩

theorem insert_remoteAddr
    (m : ManagerTable) (ino : Uuid) (now : Nat) (a : Address) :
    (m.insert ino now a).1.remoteAddr = a := by
  unfold ManagerTable.insert
  split <;> rfl

theorem keeps_managerStep
    (m : ManagerTable) (ino : Uuid) {now now' : Nat} (a : Address)
    (hnow : now ≤ now') :
    m.Keeps (managerStep m ino now now' a).2 now' := by
  unfold managerStep
  split
  · exact ManagerTable.keeps_insert m ino now' now' a
  · exact ManagerTable.keeps_cas ‹_› hnow

theorem getDentryTable_hit
    {cl : Client} {ino : Uuid} {remote : Bool} {now : Nat} {t : DirTable}
    (h : (cl.getDentryTable ino remote now).1 = .hit t) :
    cl.tables ino = some t ∧ cl.leases.isValid ino now = true := by
  unfold Client.getDentryTable at h
  split at h
  · split at h
    · simp only [Lookup.hit.injEq] at h
      exact ⟨h ▸ ‹_›, ‹_›⟩
    · split at h <;> cases h
  · split at h <;> cases h

/-- Behind `finish` the leases are what they were, and a table that is returned
has been added. -/
theorem finish_spec
    {cl : Client} {ino : Uuid} (hnone : cl.tables ino = none) (kind : OpKind)
    (ok : Bool) (temp : Address) (built : Bool) :
    (cl.finish ino kind ok temp built).1.leases = cl.leases ∧
      ∀ t, (cl.finish ino kind ok temp built).2 = some t →
        (cl.finish ino kind ok temp built).1.tables ino = some t ∧
          t = ⟨if ok then .LOCAL else .REMOTE, temp⟩ := by
  cases hthrows : (if kind = .mkdir then !ok else ok && !built) with
  | true => simp [Client.finish, hthrows]
  | false =>
      simp only [Client.finish, hthrows, Bool.false_eq_true, if_false,
        Option.some.injEq, Client.addDentryTable, hnone]
      refine ⟨trivial, ?_⟩
      rintro t rfl
      exact ⟨Function.update_self .., rfl⟩

theorem retryInv_step (hinj : Function.Injective addr) :
    Stepper.Invariant (step addr) (RetryInv addr) := by
  intro s a s' h hstep
  have hinv : Inv addr s' := inv_step addr s a s' h.clients hstep
  cases step_cases hstep with
  | tick hnow hs =>
      subst hs
      exact h.advance hinv hnow (Advances.refl _)
        (ManagerTable.Keeps.refl _ _) rfl rfl
  | hit hs =>
      subst hs
      exact h
  | @miss c ino hop hmiss hs =>
      subst hs
      exact h.local hinv
        (((h.leaders c).getDentryTable hop ino false s.now).startLease .lookup
          s.now (by simp))
  | @serve c ino hop hs =>
      subst hs
      exact h.local hinv ((h.leaders c).getDentryTable hop ino true s.now)
  | @leaseMkdir c ino hop hnone hs =>
      subst hs
      exact h.local hinv ((h.leaders c).startLease .mkdir s.now (by simp))
  | @find c ino kind phase hop hphase hs =>
      subst hs
      refine h.local hinv ((h.leaders c).setPhase hop ?_ ?_ ?_)
      · rintro rfl
        obtain ⟨-, hnone⟩ := hphase.resolve_left (by simp)
        rintro h' handle hh hc rfl
        obtain ⟨e, he⟩ := h.opened h' handle hh
        rw [hnone] at he
        cases he
      · rcases hphase with rfl | ⟨rfl, -⟩ <;> simp
      · rcases hphase with rfl | ⟨rfl, -⟩ <;> simp
  | @cas c now' ino kind e hop he hnow hs =>
      subst hs
      have hkeeps := ManagerTable.keeps_cas (a := addr c) he hnow
      have hbacked := backed_cas s.manager ino e s.now now' (addr c)
      refine h.setClient hinv hnow (advances_cas he hnow) hkeeps rfl rfl
        (((h.leaders c).mono hnow hkeeps).setPhase hop (by simp) ?_ (by simp))
      intro r hr
      simp only [Phase.answered.injEq, reduceCtorEq, or_false] at hr
      subst hr
      constructor
      · intro hok _
        rw [hbacked, hok]
        rfl
      · intro hno
        left
        intro _
        rw [hbacked, hno]
        rfl
  | @insert c ino kind hop hs =>
      subst hs
      have hkeeps := ManagerTable.keeps_insert s.manager ino s.now s.now (addr c)
      refine h.setClient hinv (Nat.le_refl _)
        (advances_insert s.manager ino s.now (addr c)) hkeeps rfl rfl
        (((h.leaders c).mono (Nat.le_refl _) hkeeps).setPhase hop (by simp) ?_
          (by simp))
      intro r hr
      simp only [Phase.answered.injEq, reduceCtorEq, or_false] at hr
      subst hr
      constructor
      · intro hok _
        exact backed_insert hok
      · intro _
        exact Or.inr ⟨insert_remoteAddr .., (h.leaders c).missing ino kind hop⟩
  | @receive c ino kind r hop hs =>
      subst hs
      refine h.local hinv ((h.leaders c).setPhase hop (by simp) ?_ (by simp))
      intro r' hr
      simp only [reduceCtorEq, Phase.updating.injEq, false_or] at hr
      subst hr
      exact (h.leaders c).answered ino kind r (Or.inl hop)
  | @update c ino kind r hop hs =>
      subst hs
      exact h.local hinv ((h.leaders c).update (h.clients c) hop)
  | @finish c ino kind ok temp built hop hs =>
      have hnone : (s.clients c).tables ino = none := (h.clients c).leasing _ hop
      have hlocal : RetryInv addr
          (s.setClient c ((s.clients c).finish ino kind ok temp built).1) :=
        h.local (h.clients.setClient (Advances.refl _) rfl
            ((h.clients c).finish hop built))
          ((h.leaders c).finish (h.clients c) hop built)
      subst hs
      cases kind with
      | lookup => exact hlocal
      | mkdir => exact hlocal
      | retry h' =>
          cases ht : ((s.clients c).finish ino (.retry h') ok temp built).2 with
          | none => exact hlocal
          | some t =>
              obtain ⟨handle, hh, rfl, rfl⟩ :=
                (h.leaders c).retrying ino h' _ hop
              refine hlocal.setAddress hh ?_
              simpa [State.setClient] using
                ((finish_spec hnone _ ok temp built).2 t ht).1
  | @fail c hs =>
      subst hs
      exact h.local hinv ((h.leaders c).drop rfl rfl (fun _ _ ht => ht))
  | @deleteTable c ino hop hs =>
      subst hs
      refine h.local hinv ((h.leaders c).drop rfl hop ?_)
      intro ino' t ht
      simp only [Client.deleteDentryTable] at ht
      by_cases hi : ino' = ino
      · subst hi
        simp at ht
      · simpa [hi] using ht
  | @foreign ino a now' hnow hs =>
      subst hs
      exact h.advance hinv hnow (advances_managerStep s.manager ino a hnow)
        (keeps_managerStep s.manager ino a hnow) rfl rfl
  | @openHandle h' c ino leaderIp hnone ht hs =>
      subst hs
      refine h.setHandle hinv ?_ ?_ (fun _ => ⟨_, ht⟩) ?_
      · intro old hold
        rw [hnone] at hold
        cases hold
      · obtain ⟨e, he, -⟩ := (h.clients c).table ino _ ht
        obtain ⟨e', he', -⟩ := (h.clients c).leases ino e he
        exact ⟨e', he'⟩
      · intro t ht' hip _
        simp only at ht' hip
        rw [ht] at ht'
        cases ht'
        exact ⟨hip, rfl⟩
  | @request h' c handle hh haddr hop hs =>
      subst hs
      have hlocal : RetryInv addr (s.setClient c
          ((s.clients c).getDentryTable handle.ino true s.now).2) :=
        h.local (h.clients.setClient (Advances.refl _) rfl
            ((h.clients c).getDentryTable hop handle.ino true s.now))
          ((h.leaders c).getDentryTable hop handle.ino true s.now)
      refine hlocal.setHandle hinv ?_ (h.opened h' handle hh) ?_ ?_
      · intro old hold
        simp only [setClient_handles, hh, Option.some.injEq] at hold
        subst hold
        exact ⟨rfl, rfl⟩
      · simp [hh]
      · intro t ht _ hun
        obtain ⟨haddr', -⟩ := hun h' handle hh rfl rfl
        -- the request has arrived at the client that made it
        have hc : handle.client = c := hinj (haddr'.symm.trans haddr)
        refine ⟨haddr', ?_⟩
        simp only [decide_eq_false_iff_not]
        intro hmiss
        have hnone := @getDentryTable_miss (s.clients c) handle.ino true s.now
          (by simp [hmiss])
        simp only [State.setClient, hc, Function.update_self] at ht
        rw [hnone] at ht
        cases ht
  | @retryHit h' handle t hh hflag hhit hs =>
      subst hs
      exact h.setAddress hh (getDentryTable_hit hhit).1
  | @retryMiss h' handle hh hflag hop hmiss hs =>
      subst hs
      refine h.local hinv (((h.leaders _).getDentryTable hop handle.ino false
        s.now).startLease (.retry h') s.now ?_)
      rintro h₁ hkind
      cases hkind
      exact ⟨handle, hh, rfl, rfl⟩

theorem retryInv_of_run
    {now : Nat} {as : List Action} (hinj : Function.Injective addr)
    (hrun : (step addr).runFrom (initial now) as = some s) : RetryInv addr s :=
  (retryInv_step hinj).runFrom (retryInv_initial addr now) hrun

end Invariant

/-- `find_remote_dentry_table_again` returns with this action: it has a table
already, or is given one by `lease_dentry_table`.  The directory still exists,
so that its objects can be read. -/
inductive RetryReturns (s : State) (h : Nat) (handle : Handle) : Action → Prop
  | hit {t : DirTable} (hh : s.handles h = some handle)
      (hhit : ((s.clients handle.client).getDentryTable handle.ino false
        s.now).1 = .hit t) :
      RetryReturns s h handle (.retry h)
  | finish {ino : Uuid} {ok : Bool} {temp : Address}
      (hh : s.handles h = some handle)
      (hop : (s.clients handle.client).op =
        some ⟨ino, .retry h, .acquired ok temp⟩) :
      RetryReturns s h handle (.finish handle.client true)

/-- The next request through the handle is sent, and goes to the client that
holds the lease. -/
def Reaches (s : State) (h : Nat) : Prop :=
  ∃ handle, s.handles h = some handle ∧ handle.notLeader = false ∧
    ∀ e, s.manager (uuidToString handle.ino) = some e → s.now < e.due →
      handle.address = e.addr

section Retry

variable {addr : Nat → Address} {s : State} {h : Nat} {handle : Handle}

theorem reaches_setAddress_iff
    (hinv : RetryInv addr s) (hne : ∀ c, addr c ≠ [])
    (hh : s.handles h = some handle) {t : DirTable} {e : LeaseEntry}
    (he : (s.clients handle.client).leases handle.ino = some e)
    (hvalid : s.now < e.due)
    (hlocal : e.leader = true → t.leaderIp = [])
    (hremote : e.leader = false →
      Backed s.manager s.now handle.ino e.due t.leaderIp) :
    Reaches (s.setAddress (.retry h) (some t)) h ↔
      (s.clients handle.client).leases.isMine handle.ino s.now = false := by
  have hmine : (s.clients handle.client).leases.isMine handle.ino s.now =
      e.leader := by
    simp [LeaseTable.isMine, he, hvalid]
  have hs : s.setAddress (.retry h) (some t) =
      s.setHandle h { handle with address := t.leaderIp, notLeader := false } := by
    simp [State.setAddress, hh]
  rw [hmine, hs]
  obtain ⟨due, leader⟩ := e
  cases leader with
  | true =>
      -- the lease is the caller's, whose address is never set
      have hentry := (hinv.leaders handle.client).lease handle.ino due he hvalid
      simp only [Bool.true_eq_false, iff_false]
      rintro ⟨handle', hh', -, hreach⟩
      simp only [State.setHandle, Function.update_self, Option.some.injEq] at hh'
      subst hh'
      exact hne handle.client ((hreach _ hentry hvalid).symm.trans (hlocal rfl))
  | false =>
      simp only [iff_true]
      refine ⟨_, Function.update_self .., rfl, ?_⟩
      intro e' he' _
      have hentry := hremote rfl hvalid
      simp only [setHandle_manager] at he'
      rw [hentry] at he'
      cases he'
      rfl

end Retry

/-- **The retry after `-ENOTLEADER`.** In every state that the system can get
into, when `find_remote_dentry_table_again` ends with a lease that has not
expired, the next attempt reaches the leader exactly if the leader is not the
caller itself. -/
theorem retry_reaches_leader_iff
    (addr : Nat → Address) (hinj : Function.Injective addr)
    (hne : ∀ c, addr c ≠ []) (now : Nat) (as : List Action) (s s' : State)
    (hrun : (step addr).runFrom (initial now) as = some s)
    (h : Nat) (handle : Handle) (a : Action) (hreturns : RetryReturns s h handle a)
    (hstep : step addr s a = some s')
    (hvalid : (s.clients handle.client).leases.isValid handle.ino s.now = true) :
    Reaches s' h ↔
      (s.clients handle.client).leases.isMine handle.ino s.now = false := by
  have hinv := retryInv_of_run hinj hrun
  obtain ⟨e, he, hlt⟩ := LeaseTable.isValid_iff.mp hvalid
  cases hreturns with
  | @hit t hh hhit =>
      obtain ⟨ht, -⟩ := getDentryTable_hit hhit
      obtain ⟨e₀, he₀, hloc⟩ := (hinv.clients handle.client).table _ t ht
      rw [he] at he₀
      cases he₀
      cases step_cases hstep with
      | @retryMiss _ handle₀ hh₀ hflag hop hmiss hs =>
          rw [hh] at hh₀
          cases hh₀
          exact absurd hhit (hmiss t)
      | @retryHit _ handle₀ t₀ hh₀ hflag hhit₀ hs =>
          rw [hh] at hh₀
          cases hh₀
          rw [hhit] at hhit₀
          cases hhit₀
          subst hs
          obtain ⟨hlocal, hremote⟩ := (hinv.leaders handle.client).table _ t ht
          refine reaches_setAddress_iff hinv hne hh he hlt ?_ ?_
          · intro hleader
            exact hlocal (by rw [hloc, hleader]; rfl)
          · intro hleader
            obtain ⟨e₁, he₁, hb | ⟨-, hun⟩⟩ :=
              hremote (by rw [hloc, hleader]; rfl)
            · rw [he] at he₁
              cases he₁
              exact hb
            · -- a table from the lost race has never been refused
              rw [(hun h handle hh rfl rfl).2] at hflag
              cases hflag
  | @finish ino ok temp hh hop =>
      obtain ⟨handle₀, hh₀, -, rfl⟩ :=
        (hinv.leaders handle.client).retrying ino h _ hop
      rw [hh] at hh₀
      cases hh₀
      have hnone := (hinv.clients handle.client).leasing _ hop
      obtain ⟨e₀, he₀, hleader⟩ := (hinv.clients handle.client).acquired _ _ _ _ hop
      rw [he] at he₀
      cases he₀
      obtain ⟨hok, hno⟩ := (hinv.leaders handle.client).acquired _ _ _ _ hop
      cases step_cases hstep with
      | finish hop' hs =>
          rw [hop] at hop'
          cases hop'
          obtain ⟨hleases, hadded⟩ :=
            finish_spec hnone (.retry h) ok temp true
          have hlocal : RetryInv addr (s.setClient handle.client
              ((s.clients handle.client).finish handle.ino (.retry h) ok temp
                true).1) :=
            hinv.local (hinv.clients.setClient (Advances.refl _) rfl
                ((hinv.clients _).finish hop true))
              ((hinv.leaders _).finish (hinv.clients _) hop true)
          have ht : ((s.clients handle.client).finish handle.ino (.retry h) ok
              temp true).2 = some ⟨if ok then .LOCAL else .REMOTE, temp⟩ := by
            simp [Client.finish]
          have hiff := reaches_setAddress_iff hlocal hne hh
            (t := ⟨if ok then .LOCAL else .REMOTE, temp⟩) (e := e)
            (by simpa [State.setClient, hleases] using he) hlt
            (fun hl => hok (hleader ▸ hl)) (fun hl => ?_)
          · subst hs
            rw [ht]
            simpa [State.setClient, hleases] using hiff
          · obtain ⟨e₁, he₁, hb | ⟨-, hun⟩⟩ := hno (hleader ▸ hl)
            · rw [he] at he₁
              cases he₁
              exact hb
            · -- the race is lost before there is a handle
              exact absurd rfl (hun h handle hh rfl)

/-- Client 1 leads the root, and client 0 has a handle for it, until the lease
expires. -/
def refused : List Action :=
  [.getTable 1 .root, .find 1, .insert 1, .receive 1, .update 1, .finish 1 true,
    .getTable 0 .root, .find 0, .cas 0 8, .receive 0, .update 0, .finish 0 true,
    .openHandle 0 0 .root, .tick (7 + leasePeriod), .request 0 1]

/-- Client 2 gets the lease, and then the manager's answer to the retry. -/
def leaderMoves : List Action :=
  refused ++ [.getTable 2 .root, .find 2, .cas 2 (7 + leasePeriod), .receive 2,
    .update 2, .finish 2 true, .retry 0, .find 0, .cas 0 (8 + leasePeriod),
    .receive 0, .update 0]

theorem retry_reaches_leader_moved :
    ∃ s s', (step (fun c => Nat.toDigits 10 c)).runFrom (initial 7)
        leaderMoves = some s ∧
      step (fun c => Nat.toDigits 10 c) s (.finish 0 true) = some s' ∧
      Reaches s' 0 := by
  have hinj : Function.Injective (fun c => Nat.toDigits 10 c) := by
    intro c c' h
    have := congrArg (fun l => Nat.ofDigitChars 10 l 0) h
    simpa only [Nat.ofDigitChars_ten_toDigits] using this
  exact ⟨_, _, rfl, rfl, (retry_reaches_leader_iff
    (fun c => Nat.toDigits 10 c) hinj (fun _ => Nat.toDigits_ne_nil) 7 leaderMoves _ _ rfl 0
    ⟨0, .root, ['1'], true⟩ (.finish 0 true) (.finish rfl rfl) rfl
    (by decide)).mpr (by decide)⟩

/-- The retry acquires the lease itself: the handle has no address then. -/
theorem retry_loses_own_lease :
    ∃ s s', (step (fun c => Nat.toDigits 10 c)).runFrom (initial 7)
        (refused ++ [.retry 0, .find 0, .cas 0 (7 + leasePeriod), .receive 0,
          .update 0]) = some s ∧
      RetryReturns s 0 ⟨0, .root, ['1'], true⟩ (.finish 0 true) ∧
      step (fun c => Nat.toDigits 10 c) s (.finish 0 true) = some s' ∧
      s'.handles 0 = some ⟨0, .root, [], false⟩ ∧
      (s'.clients 0).leases.isMine .root s'.now = true ∧ ¬ Reaches s' 0 := by
  refine ⟨_, _, rfl, .finish rfl rfl, rfl, rfl, by decide, ?_⟩
  rintro ⟨handle, hh, -, hreach⟩
  cases hh
  have := hreach ⟨7 + leasePeriod + leasePeriod, ['0']⟩ rfl (by decide)
  cases this

end Cluster

end Nmfs
