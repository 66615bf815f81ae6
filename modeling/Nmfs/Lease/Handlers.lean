import Nmfs.Lease.Directories

/-!
# Requests from other clients

Every handler of `rpc_server` begins in the same way: it asks for the table of
the directory with `get_dentry_table(ino, true)`, and refuses the request if
that throws.  A handler is meant to act only on a directory that its client
leads.

`get_dentry_table` looks at the validity of the lease, but not at whose it is.
A client that has asked in vain for a directory has a REMOTE table under a
valid lease, and hands it to its handlers.
-/

namespace Nmfs

namespace Cluster

/-- `rpc_readdir` answers with a stream of responses, every other handler with
one. -/
inductive RequestKind where
  | unary
  | readdir
deriving DecidableEq, Repr

/-- What the sender of a request gets. -/
inductive Answer (β : Type) where
  | response (b : β)
  /-- the response `-ENOTLEADER` -/
  | notLeader
  /-- a stream that ends without a response -/
  | empty
deriving DecidableEq, Repr

/-- What is left of the exception `not_leader`. -/
def RequestKind.refusal {β : Type} : RequestKind → Answer β
  | .unary => .notLeader
  -- `rpc_readdir` sets the response, but returns without writing it
  | .readdir => .empty

/-- A handler of `rpc_server`: `body` is what it does with the table. -/
def rpcHandler {β : Type} (kind : RequestKind) (cl : Client) (ino : Uuid)
    (now : Nat) (body : DirTable → Client → β × Client) : Answer β × Client :=
  match cl.getDentryTable ino true now with
  | (.hit t, cl') =>
      let (b, cl'') := body t cl'
      (.response b, cl'')
  | (_, cl') => (kind.refusal, cl')

/-- Nothing has changed, but for the table of `ino` if its lease has
expired. -/
def DropsExpired (cl cl' : Client) (ino : Uuid) (now : Nat) : Prop :=
  cl'.leases = cl.leases ∧ cl'.op = cl.op ∧
    (∀ ino', ino' ≠ ino → cl'.tables ino' = cl.tables ino') ∧
    (cl'.tables ino = cl.tables ino ∨ cl.leases.isValid ino now = false)

/-- What a handler does about `ino`: it acts on a LOCAL table while the client
is the leader, or answers `-ENOTLEADER`. -/
def ActsAsLeader (kind : RequestKind) (cl : Client) (ino : Uuid) (now : Nat) :
    Prop :=
  ∀ (β : Type) (body : DirTable → Client → β × Client),
    (∃ t, t.loc = .LOCAL ∧ cl.leases.isMine ino now = true ∧
      rpcHandler kind cl ino now body =
        (.response (body t cl).1, (body t cl).2)) ∨
    ∃ cl', DropsExpired cl cl' ino now ∧
      rpcHandler kind cl ino now body = (.notLeader, cl')

section Outcomes

variable {β : Type} (kind : RequestKind) {cl : Client} {ino : Uuid} {now : Nat}
  (body : DirTable → Client → β × Client)

theorem rpcHandler_valid
    {t : DirTable} (ht : cl.tables ino = some t)
    (hvalid : cl.leases.isValid ino now = true) :
    rpcHandler kind cl ino now body =
      (.response (body t cl).1, (body t cl).2) := by
  simp [rpcHandler, Client.getDentryTable, ht, hvalid]

theorem rpcHandler_expired
    {t : DirTable} (ht : cl.tables ino = some t)
    (hvalid : cl.leases.isValid ino now = false) :
    rpcHandler kind cl ino now body =
      (kind.refusal,
        { cl with tables := Function.update cl.tables ino none }) := by
  simp [rpcHandler, Client.getDentryTable, ht, hvalid]

theorem rpcHandler_missing
    (ht : cl.tables ino = none) :
    rpcHandler kind cl ino now body = (kind.refusal, cl) := by
  simp [rpcHandler, Client.getDentryTable, ht]

/-- Without a table under a valid lease a request is refused, and only an
expired table is dropped. -/
theorem rpcHandler_refused
    (hnone : ¬ ∃ t, cl.tables ino = some t ∧
      cl.leases.isValid ino now = true) :
    ∃ cl', DropsExpired cl cl' ino now ∧
      rpcHandler kind cl ino now body = (kind.refusal, cl') := by
  cases ht : cl.tables ino with
  | none =>
      exact ⟨cl, ⟨rfl, rfl, fun _ _ => rfl, Or.inl rfl⟩,
        rpcHandler_missing kind body ht⟩
  | some t =>
      cases hvalid : cl.leases.isValid ino now with
      | true => exact absurd ⟨t, ht, hvalid⟩ hnone
      | false =>
          refine ⟨{ cl with tables := Function.update cl.tables ino none },
            ⟨rfl, rfl, ?_, Or.inr hvalid⟩,
            rpcHandler_expired kind body ht hvalid⟩
          intro ino' hne
          simp [hne]

end Outcomes

/-- A REMOTE table under a valid lease is handed to the handler. -/
theorem not_actsAsLeader_of_remote
    (kind : RequestKind) {cl : Client} {ino : Uuid} {now : Nat} {t : DirTable}
    (ht : cl.tables ino = some t) (hremote : t.loc = .REMOTE)
    (hvalid : cl.leases.isValid ino now = true) :
    ¬ ActsAsLeader kind cl ino now := by
  intro hacts
  -- a handler that returns its table
  have hrun := rpcHandler_valid kind (fun t cl => (t, cl)) ht hvalid
  rcases hacts _ (fun t cl => (t, cl)) with
    ⟨t', hlocal, -, heq⟩ | ⟨cl', -, heq⟩
  · rw [hrun] at heq
    simp only [Prod.mk.injEq, Answer.response.injEq, and_true] at heq
    subst heq
    rw [hlocal] at hremote
    cases hremote
  · rw [hrun] at heq
    simp at heq

/-- A refused `rpc_readdir` looks like an empty directory to its sender. -/
theorem not_actsAsLeader_of_readdir
    {cl : Client} {ino : Uuid} {now : Nat}
    (hnone : ¬ ∃ t, cl.tables ino = some t ∧
      cl.leases.isValid ino now = true) :
    ¬ ActsAsLeader .readdir cl ino now := by
  intro hacts
  obtain ⟨cl₀, -, hrun⟩ :=
    rpcHandler_refused .readdir (fun t cl => (t, cl)) hnone
  rcases hacts _ (fun t cl => (t, cl)) with
    ⟨t', -, -, heq⟩ | ⟨cl', -, heq⟩
  · rw [hrun] at heq
    simp [RequestKind.refusal] at heq
  · rw [hrun] at heq
    simp [RequestKind.refusal] at heq

/-- **The gate of the handlers.** In every state that the system can get into,
a request for a directory is handled by its leader or answered with
`-ENOTLEADER`, exactly if the client that gets it has no REMOTE table for the
directory under a valid lease, and for `rpc_readdir` has a table under a valid
lease. -/
theorem handlers_act_as_leader_iff
    (addr : Nat → Address) (now : Nat) (as : List Action) (s : State)
    (hrun : (step addr).runFrom (initial now) as = some s)
    (kind : RequestKind) (c : Nat) (ino : Uuid) :
    ActsAsLeader kind (s.clients c) ino s.now ↔
      (∀ t, (s.clients c).tables ino = some t →
        (s.clients c).leases.isValid ino s.now = true → t.loc ≠ .REMOTE) ∧
      (kind = .readdir → ∃ t, (s.clients c).tables ino = some t ∧
        (s.clients c).leases.isValid ino s.now = true) := by
  have hinv := inv_of_run hrun
  constructor
  · intro hacts
    constructor
    · intro t ht hvalid hremote
      exact not_actsAsLeader_of_remote kind ht hremote hvalid hacts
    · rintro rfl
      by_contra hnone
      exact not_actsAsLeader_of_readdir hnone hacts
  · rintro ⟨hnone, hreaddir⟩ β body
    by_cases hhit : ∃ t, (s.clients c).tables ino = some t ∧
        (s.clients c).leases.isValid ino s.now = true
    · left
      obtain ⟨t, ht, hvalid⟩ := hhit
      obtain ⟨hrole, hloc⟩ := hinv.role ht hvalid
      have hlocal : t.loc = .LOCAL := hloc.resolve_right (hnone t ht hvalid)
      exact ⟨t, hlocal, hrole.mp hlocal, rpcHandler_valid kind body ht hvalid⟩
    · right
      cases kind with
      | unary => exact rpcHandler_refused .unary body hhit
      | readdir => exact absurd (hreaddir rfl) hhit

/-- The leader serves a request. -/
theorem handlers_act_as_leader_first :
    ∃ s, (step (fun c => Nat.toDigits 10 c)).runFrom (initial 7)
        leaderAndFollower = some s ∧
      ActsAsLeader .unary (s.clients 0) .root s.now := by
  refine ⟨_, rfl, (handlers_act_as_leader_iff (fun c => Nat.toDigits 10 c) 7
    leaderAndFollower _ rfl .unary 0 .root).mpr ⟨?_, nofun⟩⟩
  intro t ht _ hremote
  cases ht
  cases hremote

/-- Client 1 leads the root until its lease is due; client 0 gets the lease;
client 1 looks the root up again. -/
def formerLeader : List Action :=
  [.getTable 1 .root, .find 1, .insert 1, .receive 1, .update 1, .finish 1 true,
    .tick (7 + leasePeriod), .getTable 0 .root, .find 0,
    .cas 0 (7 + leasePeriod), .receive 0, .update 0, .finish 0 true,
    .getTable 1 .root, .find 1, .cas 1 (8 + leasePeriod), .receive 1, .update 1,
    .finish 1 true]

/-- A request through an old handle arrives at the former leader, which gives
its handler the REMOTE table. -/
theorem handlers_act_on_remote_table :
    ∃ s, (step (fun c => Nat.toDigits 10 c)).runFrom (initial 7) formerLeader =
        some s ∧
      rpcHandler .unary (s.clients 1) .root s.now (fun t cl => (t, cl)) =
        (.response ⟨.REMOTE, ['0']⟩, s.clients 1) ∧
      (s.clients 1).leases.isMine .root s.now = false ∧
      ¬ ActsAsLeader .unary (s.clients 1) .root s.now := by
  refine ⟨_, rfl, ?_, ?_, ?_⟩
  · exact rpcHandler_valid _ _ rfl (by decide)
  · decide
  · exact not_actsAsLeader_of_remote _ rfl rfl (by decide)

end Cluster

end Nmfs
