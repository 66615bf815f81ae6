import Nmfs.Lease.Handlers
import Nmfs.Local.DentryTable
import Nmfs.Rpc.Messages

/-!
# Listing a directory at another client

`rpc_readdir` streams one response for each name.  The result code travels in
the responses: a server that does not lead the directory sets it, but returns
without writing the response, and the client reads an empty stream as an empty
directory.  A REMOTE table has no children, and is listed as `.` and `..`.

The names in the responses come from `child_inodes`, those of `local_readdir`
from the list of `dentries`.
-/

namespace Nmfs

/-- `ENOTLEADER` -/
def ENOTLEADER : Int := 8000

/-- `rpc_name_respond` -/
structure RpcNameRespond where
  filename : Bytes
  ret : Int
deriving DecidableEq

/-- A client as the server of requests.  `content` are the tables behind the
LOCAL ones. -/
structure Server where
  client : Cluster.Client
  content : Uuid → DentryTable

namespace Server

variable (s : Server) (ino : Uuid) (now : Nat)

/-- The names between `get_child_inode_begin` and `get_child_inode_end`.  Nothing
puts a child into a REMOTE table. -/
def childNames (t : Cluster.DirTable) : List Name :=
  match t.loc with
  | .LOCAL => (s.content ino).childInodes.keys
  | _ => []

/-- `rpc_readdir`: what it writes to the stream. -/
def rpcReaddir : List RpcNameRespond × Server :=
  match s.client.getDentryTable ino true now with
  | (.hit t, client) =>
      (([46] :: [46, 46] :: s.childNames ino t).map (⟨·, 0⟩),
        { s with client := client })
  | (_, client) => ([], { s with client := client })

/-- `local_readdir` on the table of the leader: what it passes to the filler. -/
def localReaddir : List Bytes :=
  [46] :: [46, 46] :: (s.content ino).dentries.childList.keys.map cString

/-- The client leads the directory, and has its table. -/
def Leads : Prop :=
  ∃ t, s.client.tables ino = some t ∧ t.loc = .LOCAL ∧
    s.client.leases.isMine ino now = true

end Server

/-- The loop of `rpc_client::readdir`.  `Output` is the response that was read
last, and `passed` what the filler has been given. -/
def readLoop (output : RpcNameRespond) (passed : List Bytes) :
    List RpcNameRespond → RpcNameRespond × List Bytes
  | [] => (output, passed)
  | r :: rest =>
      if r.ret = 0 then readLoop r (passed ++ [cString r.filename]) rest
      else (r, passed)

/-- `rpc_client::readdir`, of a stream that arrives. -/
def clientReaddir (stream : List RpcNameRespond) : Int × List Bytes :=
  let x := readLoop ⟨[], 0⟩ [] stream
  (if x.1.ret = -ENOTLEADER then -ENOTLEADER else x.1.ret, x.2)

/-- The client's result for a directory of the server. -/
def Server.remoteReaddir (s : Server) (ino : Uuid) (now : Nat) :
    Int × List Bytes :=
  clientReaddir (s.rpcReaddir ino now).1

/-- The loop of `fuse_ops::readdir` on a REMOTE table, over the servers that it
asks, one after the other: the last of them, its result, and all that the filler
has been given. -/
def readdirLoop (ino : Uuid) (passed : List Bytes) :
    List (Server × Nat) → Option ((Server × Nat) × Int × List Bytes)
  | [] => none
  | (s, now) :: rest =>
      let x := s.remoteReaddir ino now
      if x.1 = -ENOTLEADER then readdirLoop ino (passed ++ x.2) rest
      else some ((s, now), x.1, passed ++ x.2)

section Streams

/-- A stream of names is passed on as it is. -/
theorem readLoop_names
    (output : RpcNameRespond) (hret : output.ret = 0) (passed : List Bytes)
    (names : List Name) :
    (readLoop output passed (names.map (⟨·, 0⟩))).1.ret = 0 ∧
      (readLoop output passed (names.map (⟨·, 0⟩))).2 =
        passed ++ names.map cString := by
  induction names generalizing output passed with
  | nil => exact ⟨hret, by simp [readLoop]⟩
  | cons name names ih =>
      obtain ⟨hret', hpassed⟩ := ih ⟨name, 0⟩ rfl (passed ++ [cString name])
      simp only [List.map_cons, readLoop, if_true]
      exact ⟨hret', by rw [hpassed, List.append_assoc, List.singleton_append]⟩

theorem clientReaddir_names (names : List Name) :
    clientReaddir (names.map (⟨·, 0⟩)) = (0, names.map cString) := by
  obtain ⟨hret, hpassed⟩ := readLoop_names ⟨[], 0⟩ rfl [] names
  simp [clientReaddir, hret, hpassed, ENOTLEADER]

end Streams

namespace DentryTable

/-- The two maps of a table have the same names. -/
theorem keys_perm (t : DentryTable) :
    t.childInodes.keys.Perm t.dentries.childList.keys := by
  rw [List.perm_ext_iff_of_nodup t.childInodes.keys_nodup
    t.dentries.childList.keys_nodup]
  intro name
  rw [← AList.mem_keys, ← AList.mem_keys, ← AList.lookup_isSome,
    ← AList.lookup_isSome, t.agree]

end DentryTable

namespace Server

variable {s : Server} {ino : Uuid} {now : Nat}

/-- The result for a directory with a table under a valid lease. -/
theorem remoteReaddir_valid
    {t : Cluster.DirTable} (ht : s.client.tables ino = some t)
    (hvalid : s.client.leases.isValid ino now = true) :
    s.remoteReaddir ino now =
      (0, ([46] :: [46, 46] :: s.childNames ino t).map cString) := by
  simp only [remoteReaddir, rpcReaddir, Cluster.Client.getDentryTable, ht, hvalid,
    if_true]
  exact clientReaddir_names _

/-- Nothing is written to the stream of a refused request. -/
theorem remoteReaddir_refused
    (hnone : ¬ ∃ t, s.client.tables ino = some t ∧
      s.client.leases.isValid ino now = true) :
    s.remoteReaddir ino now = (0, []) := by
  cases ht : s.client.tables ino with
  | none =>
      simp [remoteReaddir, rpcReaddir, Cluster.Client.getDentryTable, ht,
        clientReaddir, readLoop, ENOTLEADER]
  | some t =>
      have hvalid : s.client.leases.isValid ino now = false := by
        rw [← Bool.not_eq_true]
        exact fun h => hnone ⟨t, ht, h⟩
      simp [remoteReaddir, rpcReaddir, Cluster.Client.getDentryTable, ht, hvalid,
        clientReaddir, readLoop, ENOTLEADER]

/-- Whoever is asked, the answer is 0. -/
theorem remoteReaddir_ret : (s.remoteReaddir ino now).1 = 0 := by
  by_cases h : ∃ t, s.client.tables ino = some t ∧
      s.client.leases.isValid ino now = true
  · obtain ⟨t, ht, hvalid⟩ := h
    rw [remoteReaddir_valid ht hvalid]
  · rw [remoteReaddir_refused h]

/-- The leader's answer. -/
theorem remoteReaddir_leads (h : s.Leads ino now) :
    s.remoteReaddir ino now =
      (0, [46] :: [46, 46] :: (s.content ino).childInodes.keys.map cString) := by
  obtain ⟨t, ht, hloc, hmine⟩ := h
  rw [remoteReaddir_valid ht (LeaseTable.isValid_of_isMine hmine), childNames, hloc]
  rfl

theorem remoteReaddir_perm (h : s.Leads ino now) :
    (s.remoteReaddir ino now).2.Perm (s.localReaddir ino) := by
  rw [remoteReaddir_leads h]
  exact ((s.content ino).keys_perm.map cString).cons _ |>.cons _

/-- Names as FUSE passes them are passed on as they are. -/
theorem localReaddir_of_not_mem
    (h : ∀ name ∈ (s.content ino).dentries.childList.keys, 0 ∉ name) :
    s.localReaddir ino =
      [46] :: [46, 46] :: (s.content ino).dentries.childList.keys := by
  have hmap : (s.content ino).dentries.childList.keys.map cString =
      (s.content ino).dentries.childList.keys.map id :=
    List.map_congr_left fun name hname => cString_of_not_mem (h name hname)
  rw [localReaddir, hmap, List.map_id]

end Server

/-- The client gets `-ENOTLEADER` and no name from a server that does not lead
the directory, and otherwise the listing of the leader. -/
def ListsRemotely (s : Server) (ino : Uuid) (now : Nat) : Prop :=
  (s.remoteReaddir ino now = (-ENOTLEADER, []) ∧ ¬ s.Leads ino now) ∨
    ((s.remoteReaddir ino now).1 = 0 ∧ s.Leads ino now ∧
      (s.remoteReaddir ino now).2 =
        [46] :: [46, 46] :: (s.content ino).childInodes.keys.map cString ∧
      (s.remoteReaddir ino now).2.Perm (s.localReaddir ino))

/-- The loop of `fuse_ops::readdir` ends with the listing of a leader, once. -/
def EndsListed (ino : Uuid) (attempts : List (Server × Nat)) : Prop :=
  ∃ s now passed, readdirLoop ino [] attempts = some ((s, now), 0, passed) ∧
    s.Leads ino now ∧ passed.Perm (s.localReaddir ino)

/-- The loop does not ask a second time. -/
theorem readdirLoop_cons
    (ino : Uuid) (s : Server) (now : Nat) (rest : List (Server × Nat)) :
    readdirLoop ino [] ((s, now) :: rest) =
      some ((s, now), 0, (s.remoteReaddir ino now).2) := by
  simp [readdirLoop, Server.remoteReaddir_ret, ENOTLEADER]

/-- **Listing at another client.** It is right if the server leads the
directory; otherwise the client takes what it gets for the whole listing. -/
theorem lists_remotely_iff (s : Server) (ino : Uuid) (now : Nat) :
    (ListsRemotely s ino now ↔ s.Leads ino now) ∧
      ∀ rest, EndsListed ino ((s, now) :: rest) ↔ s.Leads ino now := by
  constructor
  · constructor
    · rintro (⟨hret, -⟩ | ⟨-, hleads, -⟩)
      · have hzero : (s.remoteReaddir ino now).1 = 0 := Server.remoteReaddir_ret
        rw [hret] at hzero
        exact absurd hzero (by decide)
      · exact hleads
    · intro hleads
      refine .inr ⟨Server.remoteReaddir_ret, hleads, ?_,
        Server.remoteReaddir_perm hleads⟩
      rw [Server.remoteReaddir_leads hleads]
  · intro rest
    rw [EndsListed, readdirLoop_cons]
    constructor
    · rintro ⟨s', now', passed, heq, hleads, -⟩
      cases heq
      exact hleads
    · intro hleads
      exact ⟨s, now, _, rfl, hleads, Server.remoteReaddir_perm hleads⟩

/-- A client without a table of the root directory is asked for its listing. -/
theorem lists_empty_directory :
    let s : Server := ⟨.initial, fun ino =>
      .new (.new .nil 0 0 (sIFDIR ||| 0o755) ino ⟨0, 0⟩)⟩
    ¬ s.Leads .root 7 ∧ s.remoteReaddir .root 7 = (0, []) ∧
      ¬ ListsRemotely s .root 7 ∧ ¬ EndsListed .root [(s, 7)] := by
  intro s
  have hleads : ¬ s.Leads .root 7 := by
    rintro ⟨t, ht, -⟩
    cases ht
  refine ⟨hleads, rfl, ?_, ?_⟩
  · rintro (⟨hret, -⟩ | ⟨-, hleads', -⟩)
    · exact absurd (congrArg Prod.fst hret) (by decide)
    · exact hleads hleads'
  · rintro ⟨s', now', passed, heq, hleads', -⟩
    cases heq
    exact hleads hleads'

end Nmfs
