import Nmfs.Lease.Retry

/-!
# The lease of a new directory

`fuse_ops::mkdir` first enters the new directory in its parent (`local_mkdir`,
or `rpc_mkdir` at the leader of the parent), then journals the new inode
(`mkself`, which a remote creator does when it has the response), and last
acquires the lease with `lease_dentry_table_mkdir`.  Behind the first step,
other clients find the directory on their paths and may ask for its lease
themselves.

The machine of this module follows one new directory `new` of the client
`creator`.  It contains the machine of `Nmfs.Lease.Directories`, which moves
all directory tables, leases and the manager.
-/

namespace Nmfs

namespace NewDirectory

structure State where
  cluster : Cluster.State
  /-- the parent has the entry -/
  entered : Bool
  /-- the journal has the inode -/
  recorded : Bool
  /-- the INODE object exists -/
  stored : Bool
  /-- `lease_dentry_table_mkdir` has been called -/
  called : Bool
  /-- what `lease_dentry_table_mkdir` has returned; `some none` is the
  exception "New directory should have local dentry table" -/
  result : Option (Option Cluster.DirTable)

def initial (now : Nat) : State where
  cluster := Cluster.initial now
  entered := false
  recorded := false
  stored := false
  called := false
  result := none

inductive Action where
  /-- `local_mkdir`, or `rpc_mkdir` if the parent is remote -/
  | enter (remote : Bool)
  /-- `mkself` in `rpc_client::mkdir` -/
  | record
  /-- the journal is committed and checkpointed -/
  | checkpoint
  | cluster (a : Cluster.Action)

section Machine

variable (addr : Nat → Address) (creator : Nat) (new : Uuid)

/-- When the other threads and clients may act on the new directory. -/
def permits (s : State) : Cluster.Action → Bool
  -- paths lead to it once it has an entry
  | .getTable _ ino => ino ≠ new || s.entered
  | .leaseMkdir c ino => ino ≠ new || (c = creator && s.recorded && !s.called)
  -- its table is read from the INODE object
  | .finish c built =>
      match (s.cluster.clients c).op with
      | some ⟨ino, kind, _⟩ => ino ≠ new || kind = .mkdir || !built || s.stored
      | none => true
  -- the manager is there for its creator
  | .fail c =>
      match (s.cluster.clients c).op with
      | some ⟨ino, kind, _⟩ => ino ≠ new || kind ≠ .mkdir
      | none => true
  -- and all its users are among the clients
  | .foreign ino _ _ => ino ≠ new
  | _ => true

/-- What `fuse_ops::mkdir` learns from an action of the cluster. -/
def record (s : State) : Cluster.Action → State
  | .leaseMkdir _ ino => { s with called := s.called || ino = new }
  | .finish c built =>
      match (s.cluster.clients c).op with
      | some ⟨ino, .mkdir, .acquired ok temp⟩ =>
          let (_, t) := (s.cluster.clients c).finish ino .mkdir ok temp built
          { s with result := if ino = new then some t else s.result }
      | _ => s
  | _ => s

def step : Stepper State Action
  | s, .enter remote =>
      if s.entered then none
      else some { s with entered := true, recorded := !remote }
  | s, .record => if s.entered then some { s with recorded := true } else none
  | s, .checkpoint => if s.recorded then some { s with stored := true } else none
  | s, .cluster a =>
      if permits creator new s a then
        (Cluster.step addr s.cluster a).map fun cluster =>
          { record new s a with cluster := cluster }
      else none

/-- The condition: the manager serves another client's request for the new
directory only while the creator has the lease, or when the creator has got its
table and the inode is stored. -/
def Unraced (s : State) : Action → Prop
  | .cluster (.cas c _) | .cluster (.insert c) =>
      ∀ kind phase, (s.cluster.clients c).op = some ⟨new, kind, phase⟩ →
        c ≠ creator →
        (∃ e, s.cluster.manager (uuidToString new) = some e ∧
          s.cluster.now < e.due ∧ e.addr = addr creator) ∨
        (s.stored = true ∧ s.result ≠ none)
  | _ => True

end Machine

section Inner

variable {addr : Nat → Address} {creator : Nat} {new : Uuid}

@[simp] theorem record_cluster (s : State) (a : Cluster.Action) :
    (record new s a).cluster = s.cluster := by
  unfold record
  split
  · rfl
  · split <;> rfl
  · rfl

@[simp] theorem record_stored (s : State) (a : Cluster.Action) :
    (record new s a).stored = s.stored := by
  unfold record
  split
  · rfl
  · split <;> rfl
  · rfl

theorem contains_cluster :
    Stepper.Contains (step addr creator new) (Cluster.step addr)
      State.cluster := by
  intro s a s' hstep
  cases a with
  | enter remote =>
      simp only [step, Option.ite_none_left_eq_some, Option.some.injEq] at hstep
      exact Or.inl (by rw [← hstep.2])
  | record =>
      simp only [step, Option.ite_none_right_eq_some, Option.some.injEq] at hstep
      exact Or.inl (by rw [← hstep.2])
  | checkpoint =>
      simp only [step, Option.ite_none_right_eq_some, Option.some.injEq] at hstep
      exact Or.inl (by rw [← hstep.2])
  | cluster b =>
      simp only [step, Option.ite_none_right_eq_some, Option.map_eq_some_iff]
        at hstep
      obtain ⟨-, cluster, hb, rfl⟩ := hstep
      exact Or.inr ⟨b, hb⟩

end Inner

/-- An operation `lease_dentry_table_mkdir` for the new directory is the
creator's, has not returned, and is granted the lease. -/
def Granted (creator : Nat) (new : Uuid) (called : Bool)
    (result : Option (Option Cluster.DirTable)) (c : Nat)
    (cl : Cluster.Client) : Prop :=
  ∀ phase, cl.op = some ⟨new, .mkdir, phase⟩ →
    c = creator ∧ called = true ∧ result = none ∧
    (∀ r, phase = .answered r ∨ phase = .updating r → r.ok = true) ∧
    ∀ ok temp, phase = .acquired ok temp → ok = true

/-- The invariant of the runs that satisfy the condition. -/
structure Inv (addr : Nat → Address) (creator : Nat) (new : Uuid) (s : State) :
    Prop where
  /-- nobody else has ever had the lease -/
  leader : s.stored = false ∨ s.result = none →
    ∀ e, s.cluster.manager (uuidToString new) = some e → e.addr = addr creator
  granted : ∀ c, Granted creator new s.called s.result c (s.cluster.clients c)
  uncalled : s.called = false → s.result = none
  result : ∀ r, s.result = some r → ∃ t, r = some t ∧ t.loc = .LOCAL

theorem inv_initial (addr : Nat → Address) (creator : Nat) (new : Uuid)
    (now : Nat) : Inv addr creator new (initial now) where
  leader := by simp [initial, Cluster.initial]
  granted := by
    intro c phase hop
    simp [initial, Cluster.initial, Cluster.Client.initial] at hop
  uncalled := fun _ => rfl
  result := by simp [initial]

section Steps

variable {addr : Nat → Address} {creator : Nat} {new : Uuid} {s : State}

/-- One client takes a step; nothing is learned from it. -/
theorem granted_update
    {called : Bool} {result : Option (Option Cluster.DirTable)}
    {clients : Nat → Cluster.Client} {c : Nat} {cl : Cluster.Client}
    (h : ∀ c, Granted creator new called result c (clients c))
    (hcl : Granted creator new called result c cl) (c' : Nat) :
    Granted creator new called result c' (Function.update clients c cl c') := by
  by_cases hc : c' = c
  · subst hc
    simpa using hcl
  · simpa [hc] using h c'

theorem granted_of_idle
    {called : Bool} {result : Option (Option Cluster.DirTable)} {c : Nat}
    {cl : Cluster.Client}
    (hop : cl.op = none) : Granted creator new called result c cl := by
  intro phase hop'
  rw [hop] at hop'
  cases hop'

/-- The manager's entry for the new directory may change, and one client
does. -/
theorem Inv.setCluster
    (h : Inv addr creator new s) {cluster : Cluster.State} {c : Nat}
    {cl : Cluster.Client}
    (hleader : s.stored = false ∨ s.result = none →
      ∀ e, cluster.manager (uuidToString new) = some e → e.addr = addr creator)
    (hclients : cluster.clients = Function.update s.cluster.clients c cl)
    (hcl : Granted creator new s.called s.result c cl) :
    Inv addr creator new { s with cluster := cluster } where
  leader := hleader
  granted := by
    simp only [hclients]
    exact granted_update h.granted hcl
  uncalled := h.uncalled
  result := h.result

/-- Nothing changes for the new directory but one client. -/
theorem Inv.setClient
    (h : Inv addr creator new s) {c : Nat} {cl : Cluster.Client}
    (hcl : Granted creator new s.called s.result c cl) :
    Inv addr creator new { s with cluster := s.cluster.setClient c cl } :=
  h.setCluster h.leader rfl hcl

/-- No client changes. -/
theorem Inv.advance
    (h : Inv addr creator new s) {cluster : Cluster.State}
    (hmanager : cluster.manager (uuidToString new) =
      s.cluster.manager (uuidToString new))
    (hclients : cluster.clients = s.cluster.clients) :
    Inv addr creator new { s with cluster := cluster } := by
  have hupdate : cluster.clients =
      Function.update s.cluster.clients 0 (s.cluster.clients 0) := by
    rw [hclients, Function.update_eq_self]
  refine h.setCluster ?_ hupdate (h.granted 0)
  rw [hmanager]
  exact h.leader

/-- The operation goes on; an answer is that the lease is granted. -/
theorem granted_setPhase
    {c : Nat} {cl : Cluster.Client} {ino : Uuid} {kind : Cluster.OpKind}
    {phase phase' : Cluster.Phase} {called : Bool}
    {result : Option (Option Cluster.DirTable)}
    (h : Granted creator new called result c cl)
    (hop : cl.op = some ⟨ino, kind, phase⟩)
    (hok : ino = new → kind = .mkdir → c = creator → result = none →
      (∀ r, phase' = .answered r ∨ phase' = .updating r → r.ok = true) ∧
      ∀ ok temp, phase' = .acquired ok temp → ok = true) :
    ∀ cl', cl'.op = some ⟨ino, kind, phase'⟩ →
      Granted creator new called result c cl' := by
  intro cl' hop' phase₁ hphase
  rw [hop'] at hphase
  simp only [Option.some.injEq, Cluster.Op.mk.injEq] at hphase
  obtain ⟨rfl, rfl, rfl⟩ := hphase
  obtain ⟨hc, hcalled, hresult, -⟩ := h phase hop
  exact ⟨hc, hcalled, hresult, hok rfl rfl hc hresult⟩

/-- A lookup is not the operation of `fuse_ops::mkdir`. -/
theorem granted_of_kind
    {c : Nat} {cl : Cluster.Client} {op : Cluster.Op}
    {called : Bool} {result : Option (Option Cluster.DirTable)} (hop : cl.op = some op)
    (hkind : op.kind ≠ .mkdir) : Granted creator new called result c cl := by
  intro phase hop'
  rw [hop] at hop'
  cases hop'
  exact absurd rfl hkind

theorem cas_addr
    (e : ManagerEntry) (now now' : Nat) (a : Address) :
    (e.cas now now' a).2.addr = e.addr ∨ (e.cas now now' a).2.addr = a := by
  unfold ManagerEntry.cas
  split
  · exact Or.inr rfl
  · split <;> exact Or.inl rfl

/-- The owner of the entry is granted the lease. -/
theorem cas_ok_of_addr
    {e : ManagerEntry} {a : Address} (h : e.addr = a) (now now' : Nat) :
    (e.cas now now' a).1.ok = true := by
  unfold ManagerEntry.cas
  split
  · rfl
  · rfl

theorem finish_op
    (cl : Cluster.Client) (ino : Uuid) (kind : Cluster.OpKind) (ok : Bool)
    (temp : Address) (built : Bool) :
    (cl.finish ino kind ok temp built).1.op = none := by
  cases hthrows : (if kind = .mkdir then !ok else ok && !built) with
  | true => simp [Cluster.Client.finish, hthrows]
  | false =>
      simp only [Cluster.Client.finish, hthrows, Bool.false_eq_true, if_false,
        Cluster.Client.addDentryTable]
      split <;> rfl

theorem inv_cluster
    (h : Inv addr creator new s) {a : Cluster.Action} {cluster : Cluster.State}
    (hpermits : permits creator new s a = true)
    (hunraced : Unraced addr creator new s (.cluster a))
    (hstep : Cluster.step addr s.cluster a = some cluster) :
    Inv addr creator new { record new s a with cluster := cluster } := by
  cases Cluster.step_cases hstep with
  | tick hnow hs =>
      subst hs
      exact h.advance rfl rfl
  | hit hs =>
      subst hs
      exact h
  | @miss c ino hop hmiss hs =>
      subst hs
      exact h.setClient (granted_of_kind rfl (by simp))
  | @serve c ino hop hs =>
      subst hs
      exact h.setClient (granted_of_idle
        ((Cluster.getDentryTable_snd _ ino true _).2.1.trans hop))
  | @leaseMkdir c ino hop hnone hs =>
      subst hs
      by_cases hi : ino = new
      · subst hi
        simp only [permits, ne_eq, not_true_eq_false, decide_false,
          Bool.false_or, Bool.and_eq_true, decide_eq_true_eq,
          Bool.not_eq_true'] at hpermits
        obtain ⟨⟨rfl, -⟩, hcalled⟩ := hpermits
        have hcl : Granted c ino true s.result c
            ((s.cluster.clients c).lease ino .mkdir s.cluster.now) := by
          intro phase hphase
          simp only [Cluster.Client.lease, Option.some.injEq,
            Cluster.Op.mk.injEq, true_and] at hphase
          subst hphase
          refine ⟨rfl, rfl, h.uncalled hcalled, ?_, ?_⟩
          · intro r hr
            split at hr <;> simp at hr
          · intro ok temp hr
            split at hr
            · cases hr
              rfl
            · cases hr
        have hothers : ∀ c', Granted c ino true s.result c'
            (s.cluster.clients c') := by
          intro c' phase hphase
          obtain ⟨hc, -, hrest⟩ := h.granted c' phase hphase
          exact ⟨hc, rfl, hrest⟩
        have hrecord : record ino s (.leaseMkdir c ino) =
            { s with called := true } := by
          simp [record]
        rw [hrecord]
        exact
          { leader := h.leader
            granted := granted_update hothers hcl
            uncalled := by simp
            result := h.result }
      · have hrecord : record new s (.leaseMkdir c ino) = s := by
          simp [record, hi]
        rw [hrecord]
        refine h.setClient ?_
        intro phase hphase
        simp only [Cluster.Client.lease, Option.some.injEq,
          Cluster.Op.mk.injEq] at hphase
        exact absurd hphase.1 hi
  | @find c ino kind phase hop hphase hs =>
      subst hs
      refine h.setClient (granted_setPhase (h.granted c) hop ?_ _ rfl)
      rcases hphase with rfl | ⟨rfl, -⟩ <;> simp
  | @cas c now' ino kind e hop he hnow hs =>
      subst hs
      by_cases hi : ino = new
      · subst hi
        refine h.setCluster ?_ rfl
          (granted_setPhase (h.granted c) hop ?_ _ rfl)
        · intro hearly e' he'
          simp only [Function.update_self, Option.some.injEq] at he'
          subst he'
          by_cases hc : c = creator
          · subst hc
            rcases cas_addr e s.cluster.now now' (addr c) with haddr | haddr
            · exact haddr.trans (h.leader hearly e he)
            · exact haddr
          · rcases hunraced kind _ hop hc with
              ⟨e', he', hlt, haddr⟩ | ⟨hstored, hresult⟩
            · -- the creator's lease is not touched
              rw [he] at he'
              cases he'
              rw [e.cas_of_lt hlt]
              exact haddr
            · rcases hearly with hearly | hearly
              · rw [hstored] at hearly
                cases hearly
              · exact absurd hearly hresult
        · rintro - - rfl hresult
          simp only [Cluster.Phase.answered.injEq, reduceCtorEq, or_false,
            forall_eq', false_implies, implies_true, and_true]
          exact cas_ok_of_addr (h.leader (Or.inr hresult) e he) _ _
      · refine h.setCluster ?_ rfl
          (granted_setPhase (h.granted c) hop (fun hi' => absurd hi' hi) _ rfl)
        have hkey : uuidToString new ≠ uuidToString ino :=
          fun hk => hi (uuidToString_inj hk).symm
        simpa [hkey] using h.leader
  | @insert c ino kind hop hs =>
      subst hs
      by_cases hi : ino = new
      · subst hi
        refine h.setCluster ?_ rfl
          (granted_setPhase (h.granted c) hop ?_ _ rfl)
        · intro hearly e' he'
          simp only [ManagerTable.insert] at he'
          split at he'
          · simp only [Function.update_self, Option.some.injEq] at he'
            subst he'
            by_cases hc : c = creator
            · rw [hc]
            · rename_i hnone
              rcases hunraced kind _ hop hc with
                ⟨e', he', -⟩ | ⟨hstored, hresult⟩
              · rw [hnone] at he'
                cases he'
              · rcases hearly with hearly | hearly
                · rw [hstored] at hearly
                  cases hearly
                · exact absurd hearly hresult
          · exact h.leader hearly e' he'
        · rintro - - rfl hresult
          simp only [Cluster.Phase.answered.injEq, reduceCtorEq, or_false,
            forall_eq', false_implies, implies_true, and_true]
          unfold ManagerTable.insert
          split
          · rfl
          · simpa using h.leader (Or.inr hresult) _ ‹_›
      · refine h.setCluster ?_ rfl
          (granted_setPhase (h.granted c) hop (fun hi' => absurd hi' hi) _ rfl)
        have hkey : uuidToString new ≠ uuidToString ino :=
          fun hk => hi (uuidToString_inj hk).symm
        unfold ManagerTable.insert
        split
        · simpa [hkey] using h.leader
        · exact h.leader
  | @receive c ino kind r hop hs =>
      subst hs
      refine h.setClient (granted_setPhase (h.granted c) hop ?_ _ rfl)
      rintro rfl rfl - -
      obtain ⟨-, -, -, hr, -⟩ := h.granted c _ hop
      simpa using hr r (Or.inl rfl)
  | @update c ino kind r hop hs =>
      subst hs
      refine h.setClient (granted_setPhase (h.granted c) hop ?_ _ rfl)
      rintro rfl rfl - -
      obtain ⟨-, -, -, hr, -⟩ := h.granted c _ hop
      simpa using hr r (Or.inr rfl)
  | @finish c ino kind ok temp built hop hs =>
      obtain ⟨hcl, hm, -⟩ := Cluster.setAddress_same
        (s.cluster.setClient c
          ((s.cluster.clients c).finish ino kind ok temp built).1) kind
        ((s.cluster.clients c).finish ino kind ok temp built).2
      rw [← hs] at hcl hm
      have hidle := finish_op (s.cluster.clients c) ino kind ok temp built
      have hbase : Inv addr creator new { s with cluster := cluster } :=
        h.setCluster (by rw [hm]; exact h.leader) hcl (granted_of_idle hidle)
      by_cases hmine : ino = new ∧ kind = .mkdir
      · obtain ⟨rfl, rfl⟩ := hmine
        obtain ⟨rfl, hcalled, hnone, -, hok⟩ := h.granted c _ hop
        obtain rfl : ok = true := hok ok temp rfl
        have hrecord : record ino s (.finish c built) =
            { s with result := some (some ⟨.LOCAL, temp⟩) } := by
          simp [record, hop, Cluster.Client.finish]
        rw [hrecord]
        refine
          { leader := fun _ => hbase.leader (Or.inr hnone)
            granted := ?_, uncalled := ?_, result := ?_ }
        · intro c' phase hop'
          -- the creator was the only caller, and has returned
          obtain ⟨rfl, -⟩ := hbase.granted c' phase hop'
          simp only [hcl, Cluster.State.setClient, Function.update_self,
            hidle] at hop'
          cases hop'
        · intro huncalled
          simp only [hcalled] at huncalled
          cases huncalled
        · rintro r hr
          cases hr
          exact ⟨_, rfl, rfl⟩
      · have hrecord : record new s (.finish c built) = s := by
          simp only [record, hop]
          split
          · rename_i hop'
            simp only [Option.some.injEq, Cluster.Op.mk.injEq] at hop'
            obtain ⟨rfl, rfl, -⟩ := hop'
            rw [if_neg (fun hi => hmine ⟨hi, rfl⟩)]
          · rfl
        rw [hrecord]
        exact hbase
  | @fail c hs =>
      subst hs
      exact h.setClient (granted_of_idle rfl)
  | @deleteTable c ino hop hs =>
      subst hs
      exact h.setClient (granted_of_idle hop)
  | @foreign ino a now' hnow hs =>
      subst hs
      have hi : ino ≠ new := by simpa [permits] using hpermits
      have hkey : uuidToString new ≠ uuidToString ino :=
        fun hk => hi (uuidToString_inj hk).symm
      refine h.advance ?_ rfl
      simp only [Cluster.managerStep, ManagerTable.insert]
      split
      · split <;> simp [hkey]
      · simp [hkey]
  | openHandle hnone ht hs =>
      subst hs
      exact h.advance rfl rfl
  | @request h' c handle hh haddr hop hs =>
      subst hs
      exact h.setCluster h.leader rfl (granted_of_idle
        ((Cluster.getDentryTable_snd _ handle.ino true _).2.1.trans hop))
  | @retryHit h' handle t hh hflag hhit hs =>
      obtain ⟨hcl, hm, -⟩ :=
        Cluster.setAddress_same s.cluster (.retry h') (some t)
      rw [← hs] at hcl hm
      exact h.advance (by rw [hm]) hcl
  | @retryMiss h' handle hh hflag hop hmiss hs =>
      subst hs
      exact h.setClient (granted_of_kind rfl (by simp))

theorem inv_step :
    Stepper.InvariantUnder (step addr creator new) (Unraced addr creator new)
      (Inv addr creator new) := by
  intro s a s' h hunraced hstep
  cases a with
  | enter remote =>
      simp only [step, Option.ite_none_left_eq_some, Option.some.injEq] at hstep
      obtain ⟨-, rfl⟩ := hstep
      exact ⟨h.leader, h.granted, h.uncalled, h.result⟩
  | record =>
      simp only [step, Option.ite_none_right_eq_some, Option.some.injEq] at hstep
      obtain ⟨-, rfl⟩ := hstep
      exact ⟨h.leader, h.granted, h.uncalled, h.result⟩
  | checkpoint =>
      simp only [step, Option.ite_none_right_eq_some, Option.some.injEq] at hstep
      obtain ⟨-, rfl⟩ := hstep
      refine ⟨?_, h.granted, h.uncalled, h.result⟩
      intro hearly
      exact h.leader (hearly.imp_left nofun)
  | cluster b =>
      simp only [step, Option.ite_none_right_eq_some, Option.map_eq_some_iff]
        at hstep
      obtain ⟨hpermits, cluster, hb, rfl⟩ := hstep
      exact inv_cluster h hpermits hunraced hb

end Steps

/-- The creator has not been refused, and nobody else has the lease while the
INODE object does not exist. -/
def CreatorLeads (addr : Nat → Address) (creator : Nat) (new : Uuid)
    (s : State) : Prop :=
  (∀ r, s.result = some r → ∃ t, r = some t ∧ t.loc = .LOCAL) ∧
  (s.stored = false →
    (∀ e, s.cluster.manager (uuidToString new) = some e →
      s.cluster.now < e.due → e.addr = addr creator) ∧
    ∀ c, (s.cluster.clients c).leases.isMine new s.cluster.now = true →
      c = creator)

/-- **The creator of a directory becomes its leader**, in every run in which
the manager serves other clients only behind it. -/
theorem creator_leads_new_directory
    (addr : Nat → Address) (hinj : Function.Injective addr) (creator : Nat)
    (new : Uuid) (now : Nat) (as : List Action) (s : State)
    (hunraced : (step addr creator new).Steps (Unraced addr creator new)
      (initial now) as)
    (hrun : (step addr creator new).runFrom (initial now) as = some s) :
    CreatorLeads addr creator new s := by
  have hinv : Inv addr creator new s :=
    inv_step.runFrom (inv_initial addr creator new now) hunraced hrun
  have hretry : Cluster.RetryInv addr s.cluster :=
    ((Cluster.retryInv_step hinj).lift contains_cluster).runFrom
      (s := initial now) (Cluster.retryInv_initial addr now) hrun
  refine ⟨hinv.result, fun hstored => ⟨?_, ?_⟩⟩
  · intro e he _
    exact hinv.leader (Or.inl hstored) e he
  · intro c hmine
    obtain ⟨d, hd, hlt⟩ := LeaseTable.isMine_iff.mp hmine
    have hentry := (hretry.leaders c).lease new d hd hlt
    exact hinj (hinv.leader (Or.inl hstored) _ hentry)

/-- An inode number. -/
def newIno : Uuid where
  data := List.replicate 15 0 ++ [2]
  size := by simp

/-- A remote mkdir; another client comes by when the lease is granted. -/
def visitedLate : List Action :=
  [.enter true, .record, .cluster (.leaseMkdir 0 newIno), .cluster (.find 0),
    .cluster (.insert 0), .cluster (.getTable 1 newIno), .cluster (.find 1),
    .cluster (.cas 1 8), .cluster (.receive 0), .cluster (.update 0),
    .cluster (.finish 0 true)]

theorem creator_leads_new_directory_first :
    ∃ s, (step (fun c => Nat.toDigits 10 c) 0 newIno).runFrom (initial 7)
        visitedLate = some s ∧
      s.result = some (some ⟨.LOCAL, []⟩) ∧
      CreatorLeads (fun c => Nat.toDigits 10 c) 0 newIno s := by
  have hinj : Function.Injective fun c => Nat.toDigits 10 c := by
    intro c c' h
    have := congrArg (fun l => Nat.ofDigitChars 10 l 0) h
    simpa only [Nat.ofDigitChars_ten_toDigits] using this
  refine ⟨_, rfl, rfl, creator_leads_new_directory _ hinj 0 newIno 7
    visitedLate _ ?_ rfl⟩
  refine .cons trivial rfl (.cons trivial rfl (.cons trivial rfl
    (.cons trivial rfl (.cons ?_ rfl (.cons trivial rfl (.cons trivial rfl
      (.cons ?_ rfl (.cons trivial rfl (.cons trivial rfl (.cons trivial rfl
        trivial))))))))))
  · intro _ _ _ hc
    exact absurd rfl hc
  · intro _ _ _ _
    exact Or.inl ⟨_, rfl, by decide, rfl⟩

/-- Another client comes by first: it gets the lease of a directory that it
cannot read, and the creator gets the exception. -/
theorem visitor_leads_new_directory :
    ∃ s, (step (fun c => Nat.toDigits 10 c) 0 newIno).runFrom (initial 7)
        [.enter false, .cluster (.getTable 1 newIno), .cluster (.find 1),
          .cluster (.insert 1), .cluster (.receive 1), .cluster (.update 1),
          .cluster (.leaseMkdir 0 newIno), .cluster (.find 0),
          .cluster (.cas 0 8), .cluster (.receive 0), .cluster (.update 0),
          .cluster (.finish 0 true)] = some s ∧
      s.result = some none ∧ s.stored = false ∧
      (s.cluster.clients 1).leases.isMine newIno s.cluster.now = true ∧
      ¬ CreatorLeads (fun c => Nat.toDigits 10 c) 0 newIno s := by
  refine ⟨_, rfl, rfl, rfl, by decide, ?_⟩
  rintro ⟨hresult, -⟩
  obtain ⟨t, ht, -⟩ := hresult none rfl
  cases ht

end NewDirectory

end Nmfs
