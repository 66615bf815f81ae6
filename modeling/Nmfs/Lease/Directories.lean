import Nmfs.Lib.Transitions
import Nmfs.Lease.LeaseTable
import Nmfs.Meta.Inode
import Mathlib.Logic.Function.Basic

/-!
# Directory tables over the lease protocol

Every client has a `directory_table`, which holds a LOCAL table for the
directories it leads and a REMOTE table, with the leader's address, for those
it has asked for in vain.  All its operations run under
`directory_table_mutex`, so that a client is inside one of them at most; they
are the only callers of `lease_client::acquire`.

The manager, the clock and everything else that asks the manager for a lease
are shared.  The first half of the module translates the operations; the
second half relates the tables of one client to the manager's (`ClientInv`)
and shows that the role of a table is the role of the lease.
-/

namespace Nmfs

namespace Cluster

/-- What a `directory_table` knows of a `dentry_table`. -/
structure DirTable where
  loc : MetaLocation
  leaderIp : Address
deriving DecidableEq, Repr

/-- How far `lease_dentry_table` or `lease_dentry_table_mkdir` has got. -/
inductive Phase where
  | requested
  | found
  | missing
  | answered (r : LeaseResponse)
  | updating (r : LeaseResponse)
  /-- `lc->acquire` has returned; `tempAddress` is what it has set -/
  | acquired (ok : Bool) (tempAddress : Address)
deriving DecidableEq, Repr

/-- Who is waiting for the lease. -/
inductive OpKind where
  | lookup
  | mkdir
  /-- `find_remote_dentry_table_again` on a handle -/
  | retry (handle : Nat)
deriving DecidableEq, Repr

structure Op where
  ino : Uuid
  kind : OpKind
  phase : Phase
deriving DecidableEq

/-- One client.  `op` is the operation that holds `directory_table_mutex`
while it waits for the manager. -/
structure Client where
  leases : LeaseTable
  tables : Uuid → Option DirTable
  op : Option Op

/-- The outcome of the first part of `get_dentry_table`. -/
inductive Lookup where
  | hit (t : DirTable)
  /-- the exception `not_leader` -/
  | notLeader
  /-- go on with `lease_dentry_table` -/
  | lease
deriving DecidableEq, Repr

namespace Client

/-- A client that has just been started. -/
def initial : Client where
  leases := fun _ => none
  tables := fun _ => none
  op := none

/-- `get_dentry_table`, up to the call of `lease_dentry_table`. -/
def getDentryTable (cl : Client) (ino : Uuid) (remote : Bool) (now : Nat) :
    Lookup × Client :=
  match cl.tables ino with
  | some t =>
      if cl.leases.isValid ino now then (.hit t, cl)
      else
        (if remote then .notLeader else .lease,
          { cl with tables := Function.update cl.tables ino none })
  | none => (if remote then .notLeader else .lease, cl)

/-- The first step of `lc->acquire`: the leader does not ask the manager. -/
def lease (cl : Client) (ino : Uuid) (kind : OpKind) (now : Nat) : Client :=
  let phase := if cl.leases.isMine ino now then .acquired true [] else .requested
  { cl with op := some ⟨ino, kind, phase⟩ }

def setPhase (cl : Client) (ino : Uuid) (kind : OpKind) (phase : Phase) :
    Client :=
  { cl with op := some ⟨ino, kind, phase⟩ }

/-- The last step of `lc->acquire`.  On success `remote_addr` is not set. -/
def update (cl : Client) (ino : Uuid) (kind : OpKind) (r : LeaseResponse) :
    Client :=
  { cl with
    leases := cl.leases.update ino r.latestDue r.ok
    op := some ⟨ino, kind,
      .acquired r.ok (if r.ok then [] else r.remoteAddr)⟩ }

def addDentryTable (cl : Client) (ino : Uuid) (t : DirTable) : Client :=
  match cl.tables ino with
  | none => { cl with tables := Function.update cl.tables ino (some t) }
  | some _ => cl

def deleteDentryTable (cl : Client) (ino : Uuid) : Client :=
  { cl with tables := Function.update cl.tables ino none }

/-- The rest of `lease_dentry_table` and `lease_dentry_table_mkdir`, with the
table that it returns, or `none` when it throws.  `built` tells whether the
INODE and DENTRY objects of the directory and the INODE objects of its children
can be read. -/
def finish (cl : Client) (ino : Uuid) (kind : OpKind) (ok : Bool)
    (tempAddress : Address) (built : Bool) : Client × Option DirTable :=
  let cl := { cl with op := none }
  let t : DirTable := ⟨if ok then .LOCAL else .REMOTE, tempAddress⟩
  -- a new directory must not have a leader, and has no objects to read
  let throws := if kind = .mkdir then !ok else ok && !built
  if throws then (cl, none) else (cl.addDentryTable ino t, some t)

end Client

/-- A `remote_inode` in an open file or in a running operation.  `notLeader`
records that its last request was answered with `-ENOTLEADER`. -/
structure Handle where
  client : Nat
  ino : Uuid
  address : Address
  notLeader : Bool
deriving DecidableEq

structure State where
  now : Nat
  manager : ManagerTable
  clients : Nat → Client
  handles : Nat → Option Handle

def initial (now : Nat) : State where
  now := now
  manager := fun _ => none
  clients := fun _ => .initial
  handles := fun _ => none

def State.setClient (s : State) (c : Nat) (cl : Client) : State :=
  { s with clients := Function.update s.clients c cl }

def State.setHandle (s : State) (h : Nat) (handle : Handle) : State :=
  { s with handles := Function.update s.handles h (some handle) }

/-- `find_remote_dentry_table_again`: the handle gets the leader's address of
the table that was returned. -/
def State.setAddress (s : State) (kind : OpKind) (t : Option DirTable) : State :=
  match kind, t with
  | .retry h, some t =>
      match s.handles h with
      | some handle =>
          s.setHandle h { handle with address := t.leaderIp, notLeader := false }
      | none => s
  | _, _ => s

inductive Action where
  | tick (now : Nat)
  /-- `get_dentry_table` of a client's own operation -/
  | getTable (c : Nat) (ino : Uuid)
  /-- a request for `ino` arrives at the server of client `c` -/
  | serve (c : Nat) (ino : Uuid)
  | leaseMkdir (c : Nat) (ino : Uuid)
  | find (c : Nat)
  | cas (c now' : Nat)
  | insert (c : Nat)
  | receive (c : Nat)
  | update (c : Nat)
  | finish (c : Nat) (built : Bool)
  /-- the RPC to the manager fails, and `acquire` throws -/
  | fail (c : Nat)
  | deleteTable (c : Nat) (ino : Uuid)
  /-- anybody else gets an answer from the manager -/
  | foreign (ino : Uuid) (a : Address) (now' : Nat)
  /-- a handle is made from a REMOTE table -/
  | openHandle (h c : Nat) (ino : Uuid)
  /-- a request through the handle arrives at the server of client `c` -/
  | request (h c : Nat)
  /-- `find_remote_dentry_table_again` -/
  | retry (h : Nat)

section Step

variable (addr : Nat → Address)

/-- The manager serves a request that has found no entry before, or one. -/
def managerStep (m : ManagerTable) (ino : Uuid) (now now' : Nat) (a : Address) :
    LeaseResponse × ManagerTable :=
  match m (uuidToString ino) with
  | none => m.insert ino now' a
  | some e =>
      let (r, e') := e.cas now now' a
      (r, Function.update m (uuidToString ino) (some e'))

/-- One action; `none` if it is not possible, in particular for an operation
of a client whose `directory_table_mutex` is taken. -/
def step : Stepper State Action
  | s, .tick now => if s.now ≤ now then some { s with now := now } else none
  | s, .getTable c ino =>
      if (s.clients c).op.isNone then
        match (s.clients c).getDentryTable ino false s.now with
        | (.hit _, _) => some s
        | (_, cl) => some (s.setClient c (cl.lease ino .lookup s.now))
      else none
  | s, .serve c ino =>
      if (s.clients c).op.isNone then
        some (s.setClient c ((s.clients c).getDentryTable ino true s.now).2)
      else none
  | s, .leaseMkdir c ino =>
      if (s.clients c).op.isNone ∧ ((s.clients c).tables ino).isNone then
        some (s.setClient c ((s.clients c).lease ino .mkdir s.now))
      else none
  | s, .find c =>
      match (s.clients c).op with
      | some ⟨ino, kind, .requested⟩ =>
          let phase := if (s.manager (uuidToString ino)).isSome
            then Phase.found else Phase.missing
          some (s.setClient c ((s.clients c).setPhase ino kind phase))
      | _ => none
  | s, .cas c now' =>
      match (s.clients c).op with
      | some ⟨ino, kind, .found⟩ =>
          match s.manager (uuidToString ino) with
          | none => none
          | some e =>
              if s.now ≤ now' then
                let (r, e') := e.cas s.now now' (addr c)
                some { (s.setClient c
                    ((s.clients c).setPhase ino kind (.answered r))) with
                  now := now'
                  manager := Function.update s.manager (uuidToString ino)
                    (some e') }
              else none
      | _ => none
  | s, .insert c =>
      match (s.clients c).op with
      | some ⟨ino, kind, .missing⟩ =>
          let (r, manager) := s.manager.insert ino s.now (addr c)
          some { (s.setClient c
              ((s.clients c).setPhase ino kind (.answered r))) with
            manager := manager }
      | _ => none
  | s, .receive c =>
      match (s.clients c).op with
      | some ⟨ino, kind, .answered r⟩ =>
          some (s.setClient c ((s.clients c).setPhase ino kind (.updating r)))
      | _ => none
  | s, .update c =>
      match (s.clients c).op with
      | some ⟨ino, kind, .updating r⟩ =>
          some (s.setClient c ((s.clients c).update ino kind r))
      | _ => none
  | s, .finish c built =>
      match (s.clients c).op with
      | some ⟨ino, kind, .acquired ok tempAddress⟩ =>
          let (cl, t) := (s.clients c).finish ino kind ok tempAddress built
          some ((s.setClient c cl).setAddress kind t)
      | _ => none
  | s, .fail c =>
      match (s.clients c).op with
      | some ⟨_, _, .acquired _ _⟩ => none
      | some ⟨_, _, .updating _⟩ => none
      | some _ => some (s.setClient c { (s.clients c) with op := none })
      | none => none
  | s, .deleteTable c ino =>
      if (s.clients c).op.isNone then
        some (s.setClient c ((s.clients c).deleteDentryTable ino))
      else none
  | s, .foreign ino a now' =>
      if s.now ≤ now' then
        some { s with
          now := now'
          manager := (managerStep s.manager ino s.now now' a).2 }
      else none
  | s, .openHandle h c ino =>
      match s.handles h, (s.clients c).tables ino with
      | none, some ⟨.REMOTE, leaderIp⟩ =>
          some (s.setHandle h ⟨c, ino, leaderIp, false⟩)
      | _, _ => none
  | s, .request h c =>
      match s.handles h with
      | some handle =>
          if handle.address = addr c ∧ (s.clients c).op.isNone then
            let (result, cl) := (s.clients c).getDentryTable handle.ino true s.now
            some ((s.setClient c cl).setHandle h
              { handle with notLeader := result = .notLeader })
          else none
      | none => none
  | s, .retry h =>
      match s.handles h with
      | some handle =>
          if handle.notLeader ∧ (s.clients handle.client).op.isNone then
            match (s.clients handle.client).getDentryTable handle.ino false
                s.now with
            | (.hit t, _) => some (s.setAddress (.retry h) (some t))
            | (_, cl) =>
                some (s.setClient handle.client
                  (cl.lease handle.ino (.retry h) s.now))
          else none
      | none => none

end Step

/-- What the manager does to its table: an entry stays as it is, or gets a
later due. -/
def Advances (m m' : ManagerTable) : Prop :=
  ∀ key e, m key = some e →
    ∃ e', m' key = some e' ∧ (e' = e ∨ e.due < e'.due)

theorem Advances.refl (m : ManagerTable) : Advances m m :=
  fun _ e he => ⟨e, he, Or.inl rfl⟩

theorem advances_cas
    {m : ManagerTable} {ino : Uuid} {e : ManagerEntry} {now now' : Nat}
    {a : Address} (he : m (uuidToString ino) = some e) (hnow : now ≤ now') :
    Advances m (Function.update m (uuidToString ino)
      (some (e.cas now now' a).2)) := by
  intro key e₀ he₀
  by_cases hkey : key = uuidToString ino
  · subst hkey
    rw [he] at he₀
    cases he₀
    refine ⟨_, Function.update_self .., ?_⟩
    rcases Nat.lt_or_ge now e.due with hlt | hge
    · exact Or.inl (e.cas_of_lt hlt)
    · right
      have hpos := leasePeriod_pos
      simp only [ManagerEntry.cas, hge, if_true]
      omega
  · exact ⟨e₀, by simp [hkey, he₀], Or.inl rfl⟩

theorem advances_insert
    (m : ManagerTable) (ino : Uuid) (now : Nat) (a : Address) :
    Advances m (m.insert ino now a).2 := by
  intro key e he
  refine ⟨e, ?_, Or.inl rfl⟩
  rw [ManagerTable.insert]
  split
  · rename_i hnone
    have hne : key ≠ uuidToString ino := by
      rintro rfl
      rw [he] at hnone
      cases hnone
    simp [hne, he]
  · exact he

theorem advances_managerStep
    (m : ManagerTable) (ino : Uuid) {now now' : Nat} (a : Address)
    (hnow : now ≤ now') :
    Advances m (managerStep m ino now now' a).2 := by
  unfold managerStep
  split
  · exact advances_insert m ino now' a
  · exact advances_cas ‹_› hnow

/-- The client with address `a` was told the truth: the manager's entry had
this due, and belonged to the client if `mine`. -/
def Known (m : ManagerTable) (a : Address) (ino : Uuid) (due : Nat)
    (mine : Bool) : Prop :=
  ∃ e, m (uuidToString ino) = some e ∧ due ≤ e.due ∧
    (due = e.due → (mine = true ↔ e.addr = a))

theorem Known.advance
    {m m' : ManagerTable} {a : Address} {ino : Uuid} {due : Nat} {mine : Bool}
    (h : Known m a ino due mine) (hm : Advances m m') :
    Known m' a ino due mine := by
  obtain ⟨e, he, hle, heq⟩ := h
  obtain ⟨e', he', rfl | hlt⟩ := hm _ e he
  · exact ⟨e', he', hle, heq⟩
  · exact ⟨e', he', by omega, by omega⟩

/-- A response tells the truth about the manager's table behind it. -/
theorem known_cas
    (m : ManagerTable) (ino : Uuid) (e : ManagerEntry) (now now' : Nat)
    (a : Address) :
    Known (Function.update m (uuidToString ino) (some (e.cas now now' a).2)) a
      ino (e.cas now now' a).1.latestDue (e.cas now now' a).1.ok := by
  refine ⟨_, Function.update_self .., ?_⟩
  unfold ManagerEntry.cas
  split
  · simp
  · split
    · simp [*]
    · simp [*]

theorem known_insert
    (m : ManagerTable) (ino : Uuid) (now : Nat) (a : Address) :
    Known (m.insert ino now a).2 a ino (m.insert ino now a).1.latestDue
      (m.insert ino now a).1.ok := by
  rcases hm : m (uuidToString ino) with _ | e
  · refine ⟨⟨now + leasePeriod, a⟩, ?_, ?_⟩ <;>
      simp [ManagerTable.insert, hm]
  · refine ⟨e, ?_, ?_⟩ <;> simp [ManagerTable.insert, hm]

/-- What the tables of a client have to do with each other and with the
manager's. -/
structure ClientInv (m : ManagerTable) (a : Address) (cl : Client) : Prop where
  leases : ∀ ino e, cl.leases ino = some e → Known m a ino e.due e.leader
  answered : ∀ ino kind r,
    cl.op = some ⟨ino, kind, .answered r⟩ ∨
      cl.op = some ⟨ino, kind, .updating r⟩ →
    Known m a ino r.latestDue r.ok ∧
      ∀ e, cl.leases ino = some e → e.due ≤ r.latestDue ∧
        (e.due = r.latestDue → e.leader = r.ok)
  acquired : ∀ ino kind ok temp, cl.op = some ⟨ino, kind, .acquired ok temp⟩ →
    ∃ e, cl.leases ino = some e ∧ e.leader = ok
  leasing : ∀ op, cl.op = some op → cl.tables op.ino = none
  table : ∀ ino t, cl.tables ino = some t → ∃ e, cl.leases ino = some e ∧
    t.loc = if e.leader then .LOCAL else .REMOTE

theorem clientInv_initial (m : ManagerTable) (a : Address) :
    ClientInv m a .initial := by
  constructor <;> simp [Client.initial]

section ClientSteps

variable {m m' : ManagerTable} {a : Address} {cl : Client}

theorem ClientInv.advance
    (h : ClientInv m a cl) (hm : Advances m m') : ClientInv m' a cl where
  leases := fun ino e he => (h.leases ino e he).advance hm
  answered := fun ino kind r hop =>
    ⟨(h.answered ino kind r hop).1.advance hm, (h.answered ino kind r hop).2⟩
  acquired := h.acquired
  leasing := h.leasing
  table := h.table

/-- Tables may be dropped, and the operation given up. -/
theorem ClientInv.drop
    (h : ClientInv m a cl) {cl' : Client} (hleases : cl'.leases = cl.leases)
    (hop : cl'.op = none)
    (htables : ∀ ino t, cl'.tables ino = some t → cl.tables ino = some t) :
    ClientInv m a cl' where
  leases := by
    rw [hleases]
    exact h.leases
  answered := by simp [hop]
  acquired := by simp [hop]
  leasing := by simp [hop]
  table := by
    intro ino t ht
    rw [hleases]
    exact h.table ino t (htables ino t ht)

theorem getDentryTable_snd
    (cl : Client) (ino : Uuid) (remote : Bool) (now : Nat) :
    (cl.getDentryTable ino remote now).2.leases = cl.leases ∧
      (cl.getDentryTable ino remote now).2.op = cl.op ∧
      ∀ ino' t, (cl.getDentryTable ino remote now).2.tables ino' = some t →
        cl.tables ino' = some t := by
  unfold Client.getDentryTable
  split
  · split
    · exact ⟨rfl, rfl, fun _ _ ht => ht⟩
    · refine ⟨rfl, rfl, ?_⟩
      intro ino' t' ht'
      by_cases hi : ino' = ino
      · subst hi
        simp at ht'
      · simpa [hi] using ht'
  · exact ⟨rfl, rfl, fun _ _ ht => ht⟩

/-- What a miss leaves behind has no table for the directory. -/
theorem getDentryTable_miss
    {ino : Uuid} {remote : Bool} {now : Nat}
    (h : ∀ t, (cl.getDentryTable ino remote now).1 ≠ .hit t) :
    (cl.getDentryTable ino remote now).2.tables ino = none := by
  unfold Client.getDentryTable at h ⊢
  split
  · split
    · rename_i t ht hvalid
      simp [ht, hvalid] at h
    · simp
  · assumption

theorem ClientInv.getDentryTable
    (h : ClientInv m a cl) (hop : cl.op = none) (ino : Uuid) (remote : Bool)
    (now : Nat) : ClientInv m a (cl.getDentryTable ino remote now).2 := by
  obtain ⟨hl, ho, ht⟩ := getDentryTable_snd cl ino remote now
  exact h.drop hl (ho.trans hop) ht

theorem ClientInv.lease
    (h : ClientInv m a cl) {ino : Uuid} (hnone : cl.tables ino = none)
    (kind : OpKind) (now : Nat) : ClientInv m a (cl.lease ino kind now) where
  leases := h.leases
  answered := by
    intro ino' kind' r hr
    simp only [Client.lease, Option.some.injEq, Op.mk.injEq] at hr
    split at hr <;> simp at hr
  acquired := by
    intro ino' kind' ok temp hr
    simp only [Client.lease, Option.some.injEq, Op.mk.injEq] at hr
    obtain ⟨rfl, rfl, hphase⟩ := hr
    split at hphase
    · rename_i hmine
      obtain ⟨d, hd, -⟩ := LeaseTable.isMine_iff.mp hmine
      simp only [Phase.acquired.injEq] at hphase
      exact ⟨_, hd, hphase.1⟩
    · cases hphase
  leasing := by
    intro op hop
    simp only [Client.lease, Option.some.injEq] at hop
    subst hop
    exact hnone
  table := h.table

theorem ClientInv.setPhase
    (h : ClientInv m a cl) {ino : Uuid} {kind : OpKind} {phase phase' : Phase}
    (hop : cl.op = some ⟨ino, kind, phase⟩)
    (hanswered : ∀ r, phase' = .answered r ∨ phase' = .updating r →
      Known m a ino r.latestDue r.ok ∧
        ∀ e, cl.leases ino = some e → e.due ≤ r.latestDue ∧
          (e.due = r.latestDue → e.leader = r.ok))
    (hacquired : ∀ ok temp, phase' ≠ .acquired ok temp) :
    ClientInv m a (cl.setPhase ino kind phase') where
  leases := h.leases
  answered := by
    intro ino' kind' r hr
    simp only [Client.setPhase, Option.some.injEq, Op.mk.injEq] at hr
    rcases hr with ⟨rfl, rfl, hr⟩ | ⟨rfl, rfl, hr⟩
    · exact hanswered r (Or.inl hr)
    · exact hanswered r (Or.inr hr)
  acquired := by
    intro ino' kind' ok temp hr
    simp only [Client.setPhase, Option.some.injEq, Op.mk.injEq] at hr
    exact absurd hr.2.2 (hacquired ok temp)
  leasing := by
    intro op hop'
    simp only [Client.setPhase, Option.some.injEq] at hop'
    subst hop'
    exact h.leasing ⟨ino, kind, phase⟩ hop
  table := h.table

/-- The manager answers: what the client knew before is not newer. -/
theorem ClientInv.answer
    (h : ClientInv m a cl) {ino : Uuid} {r : LeaseResponse}
    (hm : Advances m m') (hr : Known m' a ino r.latestDue r.ok)
    (hr' : ∃ e, m' (uuidToString ino) = some e ∧ e.due = r.latestDue) :
    ∀ e, cl.leases ino = some e → e.due ≤ r.latestDue ∧
      (e.due = r.latestDue → e.leader = r.ok) := by
  intro e he
  obtain ⟨e', he', hdue⟩ := hr'
  obtain ⟨e₁, he₁, hle₁, heq₁⟩ := (h.leases ino e he).advance hm
  obtain ⟨e₂, he₂, -, heq₂⟩ := hr
  rw [he'] at he₁ he₂
  cases he₁
  cases he₂
  refine ⟨by omega, ?_⟩
  intro heq
  have h₁ := heq₁ (by omega)
  have h₂ := heq₂ (by omega)
  exact Bool.eq_iff_iff.mpr (h₁.trans h₂.symm)

theorem ClientInv.update
    (h : ClientInv m a cl) {ino : Uuid} {kind : OpKind} {r : LeaseResponse}
    (hop : cl.op = some ⟨ino, kind, .updating r⟩) :
    ClientInv m a (cl.update ino kind r) := by
  obtain ⟨hknown, hle⟩ := h.answered ino kind r (Or.inr hop)
  have hnone : cl.tables ino = none := h.leasing _ hop
  -- the entry behind the update is the response, or says the same
  have hself : ∃ e, cl.leases.update ino r.latestDue r.ok ino = some e ∧
      e.leader = r.ok ∧ Known m a ino e.due e.leader := by
    rcases cl.leases.update_self ino r.latestDue r.ok with
      ⟨-, hu⟩ | ⟨e, he, ⟨-, hu⟩ | ⟨hge, hu⟩⟩
    · exact ⟨_, hu, rfl, hknown⟩
    · exact ⟨_, hu, rfl, hknown⟩
    · obtain ⟨hle', heq⟩ := hle e he
      exact ⟨e, hu, heq (by omega), h.leases ino e he⟩
  obtain ⟨e₀, hu₀, hleader₀, hknown₀⟩ := hself
  constructor
  · intro ino' e he
    simp only [Client.update] at he
    by_cases hi : ino' = ino
    · subst hi
      rw [hu₀] at he
      cases he
      exact hknown₀
    · rw [LeaseTable.update_of_ne hi] at he
      exact h.leases ino' e he
  · intro ino' kind' r' hr'
    simp [Client.update] at hr'
  · intro ino' kind' ok temp hr'
    simp only [Client.update, Option.some.injEq, Op.mk.injEq,
      Phase.acquired.injEq] at hr'
    obtain ⟨rfl, rfl, rfl, rfl⟩ := hr'
    exact ⟨e₀, hu₀, hleader₀⟩
  · intro op hop'
    simp only [Client.update, Option.some.injEq] at hop'
    subst hop'
    exact hnone
  · intro ino' t ht
    simp only [Client.update] at ht ⊢
    have hi : ino' ≠ ino := by
      rintro rfl
      rw [hnone] at ht
      cases ht
    rw [LeaseTable.update_of_ne hi]
    exact h.table ino' t ht

theorem ClientInv.finish
    (h : ClientInv m a cl) {ino : Uuid} {kind : OpKind} {ok : Bool}
    {temp : Address} (hop : cl.op = some ⟨ino, kind, .acquired ok temp⟩)
    (built : Bool) : ClientInv m a (cl.finish ino kind ok temp built).1 := by
  have hbase : ClientInv m a { cl with op := none } :=
    h.drop rfl rfl (fun _ _ ht => ht)
  have hnone : cl.tables ino = none := h.leasing _ hop
  obtain ⟨e, he, hleader⟩ := h.acquired ino kind ok temp hop
  -- a table is added in the role of the lease
  have hadd : ClientInv m a
      (Client.addDentryTable { cl with op := none } ino
        ⟨if ok then .LOCAL else .REMOTE, temp⟩) := by
    simp only [Client.addDentryTable, hnone]
    refine { hbase with leasing := by simp, table := ?_ }
    intro ino' t ht
    by_cases hi : ino' = ino
    · subst hi
      simp only [Function.update_self, Option.some.injEq] at ht
      subst ht
      exact ⟨e, he, by rw [hleader]⟩
    · simp only [Function.update_of_ne hi] at ht
      exact h.table ino' t ht
  cases hthrows : (if kind = .mkdir then !ok else ok && !built) with
  | true =>
      simp only [Client.finish, hthrows, if_true]
      exact hbase
  | false =>
      simp only [Client.finish, hthrows, Bool.false_eq_true, if_false]
      exact hadd

end ClientSteps

/-- What a step does, action by action. -/
inductive StepCases (addr : Nat → Address) (s s' : State) : Action → Prop
  | tick {now : Nat} (hnow : s.now ≤ now) (hs : s' = { s with now := now }) :
      StepCases addr s s' (.tick now)
  | hit {c : Nat} {ino : Uuid} (hs : s' = s) :
      StepCases addr s s' (.getTable c ino)
  | miss {c : Nat} {ino : Uuid} (hop : (s.clients c).op = none)
      (hmiss : ∀ t, ((s.clients c).getDentryTable ino false s.now).1 ≠ .hit t)
      (hs : s' = s.setClient c
        (((s.clients c).getDentryTable ino false s.now).2.lease ino .lookup
          s.now)) :
      StepCases addr s s' (.getTable c ino)
  | serve {c : Nat} {ino : Uuid} (hop : (s.clients c).op = none)
      (hs : s' = s.setClient c
        ((s.clients c).getDentryTable ino true s.now).2) :
      StepCases addr s s' (.serve c ino)
  | leaseMkdir {c : Nat} {ino : Uuid} (hop : (s.clients c).op = none)
      (hnone : (s.clients c).tables ino = none)
      (hs : s' = s.setClient c ((s.clients c).lease ino .mkdir s.now)) :
      StepCases addr s s' (.leaseMkdir c ino)
  | find {c : Nat} {ino : Uuid} {kind : OpKind} {phase : Phase}
      (hop : (s.clients c).op = some ⟨ino, kind, .requested⟩)
      (hphase : phase = .found ∨
        (phase = .missing ∧ s.manager (uuidToString ino) = none))
      (hs : s' = s.setClient c ((s.clients c).setPhase ino kind phase)) :
      StepCases addr s s' (.find c)
  | cas {c now' : Nat} {ino : Uuid} {kind : OpKind} {e : ManagerEntry}
      (hop : (s.clients c).op = some ⟨ino, kind, .found⟩)
      (he : s.manager (uuidToString ino) = some e) (hnow : s.now ≤ now')
      (hs : s' = { (s.setClient c ((s.clients c).setPhase ino kind
          (.answered (e.cas s.now now' (addr c)).1))) with
        now := now'
        manager := Function.update s.manager (uuidToString ino)
          (some (e.cas s.now now' (addr c)).2) }) :
      StepCases addr s s' (.cas c now')
  | insert {c : Nat} {ino : Uuid} {kind : OpKind}
      (hop : (s.clients c).op = some ⟨ino, kind, .missing⟩)
      (hs : s' = { (s.setClient c ((s.clients c).setPhase ino kind
          (.answered (s.manager.insert ino s.now (addr c)).1))) with
        manager := (s.manager.insert ino s.now (addr c)).2 }) :
      StepCases addr s s' (.insert c)
  | receive {c : Nat} {ino : Uuid} {kind : OpKind} {r : LeaseResponse}
      (hop : (s.clients c).op = some ⟨ino, kind, .answered r⟩)
      (hs : s' = s.setClient c
        ((s.clients c).setPhase ino kind (.updating r))) :
      StepCases addr s s' (.receive c)
  | update {c : Nat} {ino : Uuid} {kind : OpKind} {r : LeaseResponse}
      (hop : (s.clients c).op = some ⟨ino, kind, .updating r⟩)
      (hs : s' = s.setClient c ((s.clients c).update ino kind r)) :
      StepCases addr s s' (.update c)
  | finish {c : Nat} {ino : Uuid} {kind : OpKind} {ok : Bool} {temp : Address}
      {built : Bool}
      (hop : (s.clients c).op = some ⟨ino, kind, .acquired ok temp⟩)
      (hs : s' = (s.setClient c
          ((s.clients c).finish ino kind ok temp built).1).setAddress kind
        ((s.clients c).finish ino kind ok temp built).2) :
      StepCases addr s s' (.finish c built)
  | fail {c : Nat}
      (hs : s' = s.setClient c { (s.clients c) with op := none }) :
      StepCases addr s s' (.fail c)
  | deleteTable {c : Nat} {ino : Uuid} (hop : (s.clients c).op = none)
      (hs : s' = s.setClient c ((s.clients c).deleteDentryTable ino)) :
      StepCases addr s s' (.deleteTable c ino)
  | foreign {ino : Uuid} {a : Address} {now' : Nat} (hnow : s.now ≤ now')
      (hs : s' = { s with
        now := now'
        manager := (managerStep s.manager ino s.now now' a).2 }) :
      StepCases addr s s' (.foreign ino a now')
  | openHandle {h c : Nat} {ino : Uuid} {leaderIp : Address}
      (hnone : s.handles h = none)
      (ht : (s.clients c).tables ino = some ⟨.REMOTE, leaderIp⟩)
      (hs : s' = s.setHandle h ⟨c, ino, leaderIp, false⟩) :
      StepCases addr s s' (.openHandle h c ino)
  | request {h c : Nat} {handle : Handle} (hh : s.handles h = some handle)
      (haddr : handle.address = addr c) (hop : (s.clients c).op = none)
      (hs : s' = (s.setClient c
          ((s.clients c).getDentryTable handle.ino true s.now).2).setHandle h
        { handle with notLeader :=
          ((s.clients c).getDentryTable handle.ino true s.now).1 =
            .notLeader }) :
      StepCases addr s s' (.request h c)
  | retryHit {h : Nat} {handle : Handle} {t : DirTable}
      (hh : s.handles h = some handle) (hflag : handle.notLeader = true)
      (hhit : ((s.clients handle.client).getDentryTable handle.ino false
        s.now).1 = .hit t)
      (hs : s' = s.setAddress (.retry h) (some t)) :
      StepCases addr s s' (.retry h)
  | retryMiss {h : Nat} {handle : Handle}
      (hh : s.handles h = some handle) (hflag : handle.notLeader = true)
      (hop : (s.clients handle.client).op = none)
      (hmiss : ∀ t, ((s.clients handle.client).getDentryTable handle.ino false
        s.now).1 ≠ .hit t)
      (hs : s' = s.setClient handle.client
        (((s.clients handle.client).getDentryTable handle.ino false
          s.now).2.lease handle.ino (.retry h) s.now)) :
      StepCases addr s s' (.retry h)

theorem step_cases
    {addr : Nat → Address} {s s' : State} {a : Action}
    (h : step addr s a = some s') : StepCases addr s s' a := by
  cases a with
  | tick now =>
      simp only [step, Option.ite_none_right_eq_some, Option.some.injEq] at h
      exact .tick h.1 h.2.symm
  | getTable c ino =>
      simp only [step, Option.ite_none_right_eq_some,
        Option.isNone_iff_eq_none] at h
      obtain ⟨hop, h⟩ := h
      rcases hl : (s.clients c).getDentryTable ino false s.now with ⟨l, cl⟩
      rw [hl] at h
      cases l with
      | hit t => exact .hit (Option.some.inj h).symm
      | notLeader | lease =>
          refine .miss hop (by simp [hl]) ?_
          rw [hl]
          exact (Option.some.inj h).symm
  | serve c ino =>
      simp only [step, Option.ite_none_right_eq_some,
        Option.isNone_iff_eq_none, Option.some.injEq] at h
      exact .serve h.1 h.2.symm
  | leaseMkdir c ino =>
      simp only [step, Option.ite_none_right_eq_some,
        Option.isNone_iff_eq_none, Option.some.injEq] at h
      exact .leaseMkdir h.1.1 h.1.2 h.2.symm
  | find c =>
      simp only [step] at h
      split at h
      · refine .find ‹_› ?_ (Option.some.inj h).symm
        split
        · exact Or.inl rfl
        · rename_i hnone
          exact Or.inr ⟨rfl, by simpa using hnone⟩
      · cases h
  | cas c now' =>
      simp only [step] at h
      split at h
      · split at h
        · cases h
        · split at h
          · exact .cas ‹_› ‹_› ‹_› (Option.some.inj h).symm
          · cases h
      · cases h
  | insert c =>
      simp only [step] at h
      split at h
      · exact .insert ‹_› (Option.some.inj h).symm
      · cases h
  | receive c =>
      simp only [step] at h
      split at h
      · exact .receive ‹_› (Option.some.inj h).symm
      · cases h
  | update c =>
      simp only [step] at h
      split at h
      · exact .update ‹_› (Option.some.inj h).symm
      · cases h
  | finish c built =>
      simp only [step] at h
      split at h
      · exact .finish ‹_› (Option.some.inj h).symm
      · cases h
  | fail c =>
      simp only [step] at h
      split at h
      · cases h
      · cases h
      · exact .fail (Option.some.inj h).symm
      · cases h
  | deleteTable c ino =>
      simp only [step, Option.ite_none_right_eq_some,
        Option.isNone_iff_eq_none, Option.some.injEq] at h
      exact .deleteTable h.1 h.2.symm
  | foreign ino a now' =>
      simp only [step, Option.ite_none_right_eq_some, Option.some.injEq] at h
      exact .foreign h.1 h.2.symm
  | openHandle h' c ino =>
      simp only [step] at h
      split at h
      · exact .openHandle ‹_› ‹_› (Option.some.inj h).symm
      · cases h
  | request h' c =>
      simp only [step] at h
      split at h
      · simp only [Option.ite_none_right_eq_some,
          Option.isNone_iff_eq_none, Option.some.injEq] at h
        exact .request ‹_› h.1.1 h.1.2 h.2.symm
      · cases h
  | retry h' =>
      simp only [step] at h
      split at h
      · rename_i handle hh
        simp only [Option.ite_none_right_eq_some,
          Option.isNone_iff_eq_none] at h
        obtain ⟨⟨hflag, hop⟩, h⟩ := h
        rcases hl : (s.clients handle.client).getDentryTable handle.ino false
          s.now with ⟨l, cl⟩
        rw [hl] at h
        cases l with
        | hit t => exact .retryHit hh hflag (by rw [hl]) (Option.some.inj h).symm
        | notLeader | lease =>
            refine .retryMiss hh hflag hop (by simp [hl]) ?_
            rw [hl]
            exact (Option.some.inj h).symm
      · cases h

section Handles

variable (s : State) (c h : Nat) (cl : Client) (handle : Handle) (kind : OpKind)
  (t : Option DirTable)

@[simp] theorem setHandle_clients :
    (s.setHandle h handle).clients = s.clients := rfl

@[simp] theorem setHandle_manager :
    (s.setHandle h handle).manager = s.manager := rfl

@[simp] theorem setHandle_now : (s.setHandle h handle).now = s.now := rfl

@[simp] theorem setClient_manager :
    (s.setClient c cl).manager = s.manager := rfl

@[simp] theorem setClient_now : (s.setClient c cl).now = s.now := rfl

@[simp] theorem setClient_handles :
    (s.setClient c cl).handles = s.handles := rfl

theorem setAddress_same :
    (s.setAddress kind t).clients = s.clients ∧
      (s.setAddress kind t).manager = s.manager ∧
      (s.setAddress kind t).now = s.now := by
  unfold State.setAddress
  split
  · split <;> simp
  · simp

end Handles

/-- The invariant of all clients. -/
def Inv (addr : Nat → Address) (s : State) : Prop :=
  ∀ c, ClientInv s.manager (addr c) (s.clients c)

section Invariant

variable {addr : Nat → Address} {s s' : State}

theorem inv_initial (addr : Nat → Address) (now : Nat) :
    Inv addr (initial now) :=
  fun c => clientInv_initial _ (addr c)

/-- The manager's table advances, and one client changes. -/
theorem Inv.setClient
    (h : Inv addr s) {c : Nat} {cl : Client}
    (hm : Advances s.manager s'.manager)
    (hclients : s'.clients = Function.update s.clients c cl)
    (hcl : ClientInv s'.manager (addr c) cl) : Inv addr s' := by
  intro c'
  rw [hclients]
  by_cases hc : c' = c
  · subst hc
    rw [Function.update_self]
    exact hcl
  · rw [Function.update_of_ne hc]
    exact (h c').advance hm

/-- Only the manager's table advances. -/
theorem Inv.advance
    (h : Inv addr s) (hm : Advances s.manager s'.manager)
    (hclients : s'.clients = s.clients) : Inv addr s' := by
  intro c
  rw [hclients]
  exact (h c).advance hm

theorem inv_step (addr : Nat → Address) :
    Stepper.Invariant (step addr) (Inv addr) := by
  intro s a s' h hstep
  have hrefl := Advances.refl s.manager
  cases step_cases hstep with
  | tick hnow hs =>
      subst hs
      exact h.advance hrefl rfl
  | hit hs =>
      subst hs
      exact h
  | @miss c ino hop hmiss hs =>
      subst hs
      exact h.setClient hrefl rfl
        (((h c).getDentryTable hop ino false s.now).lease
          (getDentryTable_miss hmiss) .lookup s.now)
  | @serve c ino hop hs =>
      subst hs
      exact h.setClient hrefl rfl ((h c).getDentryTable hop ino true s.now)
  | @leaseMkdir c ino hop hnone hs =>
      subst hs
      exact h.setClient hrefl rfl ((h c).lease hnone .mkdir s.now)
  | @find c ino kind phase hop hphase hs =>
      subst hs
      refine h.setClient hrefl rfl ((h c).setPhase hop ?_ ?_)
      · rcases hphase with rfl | ⟨rfl, -⟩ <;> simp
      · rcases hphase with rfl | ⟨rfl, -⟩ <;> simp
  | @cas c now' ino kind e hop he hnow hs =>
      subst hs
      have hm := advances_cas (a := addr c) he hnow
      have hknown := known_cas s.manager ino e s.now now' (addr c)
      have hentry : ∃ e', Function.update s.manager (uuidToString ino)
          (some (e.cas s.now now' (addr c)).2) (uuidToString ino) = some e' ∧
            e'.due = (e.cas s.now now' (addr c)).1.latestDue := by
        refine ⟨_, Function.update_self .., ?_⟩
        unfold ManagerEntry.cas
        split
        · rfl
        · split <;> rfl
      refine h.setClient hm rfl (((h c).advance hm).setPhase hop ?_ (by simp))
      intro r hr
      simp only [Phase.answered.injEq, reduceCtorEq, or_false] at hr
      subst hr
      exact ⟨hknown, (h c).answer hm hknown hentry⟩
  | @insert c ino kind hop hs =>
      subst hs
      have hm := advances_insert s.manager ino s.now (addr c)
      have hknown := known_insert s.manager ino s.now (addr c)
      have hentry : ∃ e', (s.manager.insert ino s.now (addr c)).2
          (uuidToString ino) = some e' ∧
            e'.due = (s.manager.insert ino s.now (addr c)).1.latestDue := by
        rcases hman : s.manager (uuidToString ino) with _ | e
        · exact ⟨⟨s.now + leasePeriod, addr c⟩, by
            simp [ManagerTable.insert, hman]⟩
        · exact ⟨e, by simp [ManagerTable.insert, hman]⟩
      refine h.setClient hm rfl (((h c).advance hm).setPhase hop ?_ (by simp))
      intro r hr
      simp only [Phase.answered.injEq, reduceCtorEq, or_false] at hr
      subst hr
      exact ⟨hknown, (h c).answer hm hknown hentry⟩
  | @receive c ino kind r hop hs =>
      subst hs
      refine h.setClient hrefl rfl ((h c).setPhase hop ?_ (by simp))
      intro r' hr
      simp only [reduceCtorEq, Phase.updating.injEq, false_or] at hr
      subst hr
      exact (h c).answered ino kind r (Or.inl hop)
  | @update c ino kind r hop hs =>
      subst hs
      exact h.setClient hrefl rfl ((h c).update hop)
  | @finish c ino kind ok temp built hop hs =>
      obtain ⟨hcl, hm, -⟩ := setAddress_same
        (s.setClient c ((s.clients c).finish ino kind ok temp built).1) kind
        ((s.clients c).finish ino kind ok temp built).2
      rw [← hs] at hcl hm
      refine h.setClient (by rw [hm]; exact hrefl) hcl ?_
      rw [hm]
      exact (h c).finish hop built
  | @fail c hs =>
      subst hs
      exact h.setClient hrefl rfl ((h c).drop rfl rfl (fun _ _ ht => ht))
  | @deleteTable c ino hop hs =>
      subst hs
      refine h.setClient hrefl rfl ((h c).drop rfl hop ?_)
      intro ino' t ht
      simp only [Client.deleteDentryTable] at ht
      by_cases hi : ino' = ino
      · subst hi
        simp at ht
      · simpa [hi] using ht
  | @foreign ino a now' hnow hs =>
      subst hs
      exact h.advance (advances_managerStep s.manager ino a hnow) rfl
  | openHandle hnone ht hs =>
      subst hs
      exact h.advance hrefl rfl
  | @request h' c handle hh haddr hop hs =>
      subst hs
      exact h.setClient hrefl rfl
        ((h c).getDentryTable hop handle.ino true s.now)
  | @retryHit h' handle t hh hflag hhit hs =>
      obtain ⟨hcl, hm, -⟩ := setAddress_same s (.retry h') (some t)
      rw [← hs] at hcl hm
      exact h.advance (by rw [hm]; exact hrefl) hcl
  | @retryMiss h' handle hh hflag hop hmiss hs =>
      subst hs
      exact h.setClient hrefl rfl
        (((h _).getDentryTable hop handle.ino false s.now).lease
          (getDentryTable_miss hmiss) (.retry h') s.now)

theorem inv_of_run
    {now : Nat} {as : List Action}
    (hrun : (step addr).runFrom (initial now) as = some s) : Inv addr s :=
  (inv_step addr).runFrom (inv_initial addr now) hrun

/-- Under a valid lease, the role of a table is the role of the lease. -/
theorem Inv.role
    (h : Inv addr s) {c : Nat} {ino : Uuid} {t : DirTable}
    (ht : (s.clients c).tables ino = some t)
    (hvalid : (s.clients c).leases.isValid ino s.now = true) :
    (t.loc = .LOCAL ↔ (s.clients c).leases.isMine ino s.now = true) ∧
      (t.loc = .LOCAL ∨ t.loc = .REMOTE) := by
  obtain ⟨e, he, hloc⟩ := (h c).table ino t ht
  obtain ⟨e', he', hlt⟩ := LeaseTable.isValid_iff.mp hvalid
  rw [he] at he'
  cases he'
  have hmine : (s.clients c).leases.isMine ino s.now = e.leader := by
    simp [LeaseTable.isMine, he, hlt]
  rw [hmine, hloc]
  cases e.leader <;> simp

end Invariant

/-- **Table role matches lease role.** In every state that the system can get
into, a table under a valid lease is LOCAL exactly if the client is the
leader. -/
theorem table_role_of_lease
    (addr : Nat → Address) (now : Nat) (as : List Action) (s : State)
    (hrun : (step addr).runFrom (initial now) as = some s)
    (c : Nat) (ino : Uuid) (t : DirTable)
    (ht : (s.clients c).tables ino = some t)
    (hvalid : (s.clients c).leases.isValid ino s.now = true) :
    t.loc = .LOCAL ↔ (s.clients c).leases.isMine ino s.now = true :=
  ((inv_of_run hrun).role ht hvalid).1

/-- A client that leads a directory, and one that has asked in vain. -/
def leaderAndFollower : List Action :=
  [.getTable 0 .root, .find 0, .insert 0, .receive 0, .update 0, .finish 0 true,
    .getTable 1 .root, .find 1, .cas 1 9, .receive 1, .update 1, .finish 1 true]

theorem table_role_of_lease_follower :
    ∃ s t, (step (fun c => Nat.toDigits 10 c)).runFrom (initial 7)
        leaderAndFollower = some s ∧
      (s.clients 1).tables .root = some t ∧
      (t.loc = .LOCAL ↔ (s.clients 1).leases.isMine .root s.now = true) :=
  ⟨_, _, rfl, rfl, table_role_of_lease (fun c => Nat.toDigits 10 c) 7
    leaderAndFollower _ rfl 1 .root _ rfl (by decide)⟩

end Cluster

end Nmfs
