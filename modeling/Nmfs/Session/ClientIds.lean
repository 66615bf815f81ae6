import Nmfs.Lib.LittleEndian
import Nmfs.Lib.Transitions
import Nmfs.Rados.StorageErrors

/-!
# Client ids

The session service of the manager numbers the clients.  It keeps `next_id` in
memory and writes it to the pool on every `mount`, where a manager that is
started again finds it.  A `mount` whose write fails is answered by an error, but
its number has been taken.

The numbers end at `1 << CLIENT_BITS`; from then on the answer is -1, which the
client takes for its id.
-/

namespace Nmfs

open Bytes

/-- `CLIENT_BITS` -/
def clientBits : Nat := 24

/-- The key `"next_id"`. -/
def nextIdKey : Key := ['n', 'e', 'x', 't', '_', 'i', 'd']

namespace Session

/-- The constructor of `session_impl`: `next_id` has eight bytes. -/
def new : IoProg UInt64 := do
  let found ← RadosIo.stat .CLIENT nextIdKey
  match found with
  | none => return 1
  | some size =>
      if 8 < size then .fault .undefinedBehaviour
      else do
        let bl ← RadosIo.read .CLIENT nextIdKey size 0
        return UInt64.ofNat (leNat (resize bl 8))

/-- `next_id < (1 << CLIENT_BITS)` -/
def HasId (nextId : UInt64) : Prop := nextId.toNat < 2 ^ clientBits

instance (nextId : UInt64) : Decidable (HasId nextId) :=
  inferInstanceAs (Decidable (_ < _))

/-- The answer of `session_impl::mount`. -/
def mountId (nextId : UInt64) : Int64 :=
  if HasId nextId then nextId.toInt64 else -1

/-- `next_id` afterwards. -/
def mountNext (nextId : UInt64) : UInt64 :=
  if HasId nextId then nextId + 1 else nextId

/-- What `mount` writes. -/
def mountStore (nextId : UInt64) : IoProg Unit :=
  if HasId nextId then do
    let _ ← RadosIo.write .CLIENT nextIdKey (leBytes 8 (nextId + 1).toNat) 0
    return ()
  else .ret ()

/-- What `session_client::mount` makes of the answer. -/
def clientId (id : Int64) : UInt64 := id.toUInt64

end Session

/-- The manager, the meta pool, and the ids that clients have got. -/
structure SessionService where
  pool : Pool
  nextId : Option UInt64
  given : List UInt64

namespace SessionService

open Session

/-- The environment starts and stops the manager, and chooses which calls of a
`mount` fail; others use the pool too.  A manager that stops within a `mount`
has made the calls before the first that fails. -/
inductive Act where
  | start
  | mount (fails : Failures)
  | stop
  | others (p : Pool)

/-- A start that fails changes nothing. -/
def step : Stepper SessionService Act
  | s, .start =>
      match s.nextId, new.run Pool.handle s.pool with
      | none, (.ok nextId, p) => some { s with
          pool := p
          nextId := some nextId }
      | _, _ => none
  | s, .mount fails =>
      match s.nextId with
      | none => none
      | some nextId =>
          match (mountStore nextId).run (Pool.failing fails) (s.pool, 0) with
          | (.ok _, (p, _)) => some {
              pool := p
              nextId := some (mountNext nextId)
              given := s.given ++ [clientId (mountId nextId)] }
          | (_, (p, _)) => some { s with
              pool := p
              nextId := some (mountNext nextId) }
  | s, .stop => some { s with nextId := none }
  | s, .others p => some { s with pool := p }

/-- Nobody else writes the object of `next_id`. -/
def Allowed (s : SessionService) : Act → Prop
  | .others p => ∀ k, p (objName .CLIENT nextIdKey k) = s.pool (objName .CLIENT nextIdKey k)
  | .start | .mount _ | .stop => True

/-- The pool says that `stored` is the next number. -/
def Stored (p : Pool) (stored : Nat) : Prop :=
  (FileIs p .CLIENT nextIdKey [] 0 ∧ stored = 1) ∨
    ∃ n, FileIs p .CLIENT nextIdKey (leBytes 8 stored) n

end SessionService

namespace RadosIo

open Bytes

variable {category : ObjCategory} {key : Key} {value : Bytes} {p : Pool}

theorem objSize_lt_offMax : objSize < offMax := by
  simp [objSize, offMax]

/-- The loop of `write` makes one call for a value that fits into the first
object. -/
theorem writeLoop_first (hpos : 0 < value.length) (hle : value.length ≤ objSize) :
    writeLoop category key value (offStop 0 value.length) 0 0 =
      .call (.write (objName category key 0) value 0) fun
        | .ok _ => .ret value.length
        | .error _ => .throw (.runtimeError "rados_io::write_obj() failed") := by
  have hnum : objNum 0 = 0 := by simp [objNum]
  have hoffset : objOffset 0 = 0 := by simp [objOffset]
  have hnext : nextBound 0 = objSize := by
    rw [nextBound_eq, hnum, Nat.zero_mul, Nat.zero_add]
  have hsub : subLen 0 value.length = value.length := by
    rw [subLen, hnext, Nat.sub_zero, Nat.sub_zero, Nat.min_eq_right hle]
  have hstop : offStop 0 value.length = value.length := by
    rw [offStop_of_lt, Nat.zero_add]
    rw [Nat.zero_add]
    exact Nat.lt_of_le_of_lt hle objSize_lt_offMax
  rw [hstop, writeLoop, dif_pos hpos, hnext, if_pos objSize_lt_offMax, hsub, hnum,
    hoffset, List.drop_zero, writeObj, if_neg (Nat.lt_irrefl _), List.take_length,
    Prog.call_bind]
  congr 1
  funext r
  cases r with
  | ok u =>
      rw [Prog.ret_bind, writeLoop, dif_neg (Nat.not_lt.mpr hle), Nat.zero_add]
  | error e => rfl

/-- A value that fits into the first object is written by one call. -/
theorem write_first (hpos : 0 < value.length) (hle : value.length ≤ objSize) :
    write category key value 0 =
      .call (.stat (objName category key 0)) fun
        | .error (.other _) =>
            .throw (.runtimeError "rados_io::write() failed (stat() failed)")
        | _ =>
            .call (.write (objName category key 0) value 0) fun
              | .ok _ => .ret value.length
              | .error _ => .throw (.runtimeError "rados_io::write_obj() failed") := by
  have hnum : objNum 0 = 0 := by simp [objNum]
  have hgap : ∀ lb, fillGap category key lb 0 = .ret () := fun lb => if_neg (Nat.not_lt_zero lb)
  unfold write
  rw [hnum, lbFileSize, statPrev, writeLoop_first hpos hle, Prog.call_bind]
  congr 1
  funext r
  cases r with
  | ok size =>
      rw [Prog.ret_bind, hgap, Prog.ret_bind]
  | error e =>
      cases e with
      | ENOENT => rw [Prog.ret_bind, hgap, Prog.ret_bind]
      | other code => rfl

/-- Such a value is written, or a call has failed and nothing has changed. -/
theorem run_write_first
    (hpos : 0 < value.length) (hle : value.length ≤ objSize) (fails : Failures) :
    ∃ o k, (write category key value 0).run (Pool.failing fails) (p, 0) = (o, k) ∧
      ((o = .ok value.length ∧
          (write category key value 0).run Pool.handle p = (o, k.1)) ∨
        (∃ e, o = .throws e) ∧ k.1 = p) := by
  rw [write_first hpos hle]
  unfold Pool.failing
  simp only [Prog.run_call]
  cases h₀ : fails 0 with
  | some e =>
      rw [Prog.failing_of_some Pool.handle h₀]
      exact ⟨_, _, rfl, .inr ⟨⟨_, rfl⟩, rfl⟩⟩
  | none =>
      rw [Prog.failing_of_none Pool.handle h₀]
      have hstat : (Pool.handle (.stat (objName category key 0)) p).2 = p := by
        cases hobj : p (objName category key 0) <;> simp [Pool.handle, hobj]
      have hreply : (Pool.handle (.stat (objName category key 0)) p).1 = .error .ENOENT ∨
          ∃ size, (Pool.handle (.stat (objName category key 0)) p).1 = .ok size := by
        cases hobj : p (objName category key 0) <;> simp [Pool.handle, hobj]
      rw [hstat]
      cases h₁ : fails (0 + 1) with
      | some e =>
          refine ⟨.throws (.runtimeError "rados_io::write_obj() failed"), (p, 2), ?_,
            .inr ⟨⟨_, rfl⟩, rfl⟩⟩
          rcases hreply with hr | ⟨size, hr⟩
          · rw [hr, Prog.run_call, Prog.failing_of_some Pool.handle h₁]
            rfl
          · rw [hr, Prog.run_call, Prog.failing_of_some Pool.handle h₁]
            rfl
      | none =>
          refine ⟨.ok value.length, ((Pool.handle (.write (objName category key 0) value 0)
            p).2, 2), ?_, .inl ⟨rfl, ?_⟩⟩
          · rcases hreply with hr | ⟨size, hr⟩
            · rw [hr, Prog.run_call, Prog.failing_of_none Pool.handle h₁]
              rfl
            · rw [hr, Prog.run_call, Prog.failing_of_none Pool.handle h₁]
              rfl
          · rcases hreply with hr | ⟨size, hr⟩
            · rw [hr]
              rfl
            · rw [hr]
              rfl

end RadosIo

namespace SessionService

open Session

variable {p : Pool} {stored : Nat} {nextId : UInt64}

theorem leBytes_first (n : Nat) :
    0 < (leBytes 8 n).length ∧ (leBytes 8 n).length ≤ objSize := by
  simp [objSize]

theorem leBytes_below (n : Nat) : 0 + (leBytes 8 n).length ≤ offEnd := by
  rw [Nat.zero_add, length_leBytes]
  exact le_offEnd (by decide)

/-- The content that says what the next number is, at most eight bytes. -/
theorem Stored.content (h : Stored p stored) :
    ∃ c n, FileIs p .CLIENT nextIdKey c n ∧ c.length ≤ 8 := by
  rcases h with ⟨hf, -⟩ | ⟨n, hf⟩
  · exact ⟨_, _, hf, Nat.zero_le 8⟩
  · exact ⟨_, _, hf, by simp⟩

/-- `mount` stores the number behind the one it gives, or a call has failed and
the pool is as before. -/
theorem run_mountStore
    (h : Stored p stored) (hid : HasId nextId) (fails : Failures) :
    ∃ o k, (mountStore nextId).run (Pool.failing fails) (p, 0) = (o, k) ∧
      ((o = .ok () ∧ Stored k.1 (nextId + 1).toNat) ∨
        (∃ e, o = .throws e) ∧ k.1 = p) := by
  obtain ⟨hpos, hle⟩ := leBytes_first (nextId + 1).toNat
  obtain ⟨o, k, hrun, hcases⟩ := @RadosIo.run_write_first .CLIENT nextIdKey _ p hpos hle fails
  rw [mountStore, if_pos hid]
  rcases hcases with ⟨rfl, hplain⟩ | ⟨⟨e, rfl⟩, hk⟩
  · refine ⟨.ok (), k, ?_, .inl ⟨rfl, ?_⟩⟩
    · rw [Prog.run_bind_ok _ hrun]
      rfl
    · obtain ⟨c, n, hf, hc⟩ := h.content
      obtain ⟨p', n', hrun', hf', -⟩ :=
        RadosIo.run_write hf (leBytes_below (nextId + 1).toNat)
      rw [hplain] at hrun'
      cases hrun'
      have hover : overwrite c 0 (leBytes 8 (nextId + 1).toNat) =
          leBytes 8 (nextId + 1).toNat := by
        rw [overwrite_zero, List.drop_of_length_le (by rw [length_leBytes]; exact hc),
          List.append_nil]
      rw [hover] at hf'
      exact .inr ⟨n', hf'⟩
  · exact ⟨.throws e, k, Prog.run_bind_throws _ hrun, .inr ⟨⟨e, rfl⟩, hk⟩⟩

/-- Without a failure nothing is thrown. -/
theorem mountStore_ne_throws
    (h : Stored p stored) (hid : HasId nextId) (e : Exn) (k : Pool × Nat) :
    (mountStore nextId).run (Pool.failing fun _ => none) (p, 0) ≠ (.throws e, k) := by
  obtain ⟨c, n, hf, -⟩ := h.content
  obtain ⟨p', n', hrun, -⟩ := RadosIo.run_write hf (leBytes_below (nextId + 1).toNat)
  have hplain : (mountStore nextId).run Pool.handle p = (.ok (), p') := by
    rw [mountStore, if_pos hid, Prog.run_bind_ok _ hrun]
    rfl
  have hfail : (mountStore nextId).run (Pool.failing fun _ => none) (p, 0) = _ :=
    Prog.run_failing_of_none (mountStore nextId) fun _ _ => rfl
  rw [hplain] at hfail
  rw [hfail]
  rintro ⟨⟩

/-- A manager that is started finds the number. -/
theorem run_new (h : Stored p stored) (hlt : stored < 2 ^ 64) :
    Session.new.run Pool.handle p = (.ok (UInt64.ofNat stored), p) := by
  rcases h with ⟨hf, rfl⟩ | ⟨n, hf⟩
  · unfold Session.new
    rw [Prog.run_bind_ok _ (RadosIo.run_stat hf (Nat.zero_le _))]
    rfl
  · have hlen : (leBytes 8 stored).length = 8 := length_leBytes 8 stored
    have hn : 0 < n := by
      have hcovers := hf.covers
      rw [hlen] at hcovers
      by_contra hzero
      rw [Nat.eq_zero_of_not_pos hzero, Nat.zero_mul] at hcovers
      omega
    have hread : (RadosIo.read .CLIENT nextIdKey 8 0).run Pool.handle p =
        (.ok (leBytes 8 stored), p) := by
      have hcond : 0 + 8 ≤ 0 ∨ objNum (0 + 8 - 1) < n := by
        right
        rw [objNum_eq, Nat.div_eq_of_lt (by simp [objSize])]
        exact hn
      rw [RadosIo.run_read hf (Nat.lt_of_le_of_lt (le_offEnd (by decide))
        offEnd_lt_offMax) (.inl (le_offEnd (by decide))), RadosIo.readOutcome,
        if_pos hcond, List.nil_append]
      simp [slice, List.take_of_length_le]
    unfold Session.new
    rw [Prog.run_bind_ok _ (RadosIo.run_stat hf (by
      rw [hlen]
      exact le_offEnd (by decide))), if_neg (by omega), hlen]
    dsimp only
    rw [if_neg (Nat.lt_irrefl 8), Prog.run_bind_ok _ hread]
    rw [show resize (leBytes 8 stored) 8 = leBytes 8 stored by
      rw [resize_of_le (by simp)]; exact List.take_of_length_le (by simp),
      leNat_leBytes_of_lt (by omega)]
    rfl

/-- What a client takes for its id when there are no more numbers. -/
def noId : UInt64 := clientId (-1)

theorem clientId_mountId (h : HasId nextId) : clientId (mountId nextId) = nextId := by
  rw [mountId, if_pos h, clientId, UInt64.toUInt64_toInt64]

theorem clientId_mountId_none (h : ¬ HasId nextId) :
    clientId (mountId nextId) = noId := by
  rw [mountId, if_neg h, noId]

theorem toNat_mountNext (h : HasId nextId) :
    (mountNext nextId).toNat = nextId.toNat + 1 := by
  have hlt : nextId.toNat < 2 ^ 24 := h
  rw [mountNext, if_pos h, UInt64.toNat_add, Nat.mod_eq_of_lt]
  · rfl
  · change nextId.toNat + 1 < 2 ^ 64
    omega

section Steps

variable {s : SessionService}

/-- A manager that is started has the stored number. -/
theorem step_start
    (h : Stored s.pool stored) (hlt : stored < 2 ^ 64) (hstopped : s.nextId = none) :
    step s .start = some { s with nextId := some (UInt64.ofNat stored) } := by
  simp only [step, hstopped, run_new h hlt]

/-- A `mount` gives the number in memory, and stores the one behind it. -/
theorem step_mount
    (h : Stored s.pool stored) (hn : s.nextId = some nextId) (hid : HasId nextId) :
    ∃ p, step s (.mount fun _ => none) = some ⟨p, some (nextId + 1), s.given ++ [nextId]⟩ ∧
      Stored p (nextId + 1).toNat := by
  obtain ⟨o, k, hrun, hcases⟩ := run_mountStore h hid fun _ => none
  have hplain : (mountStore nextId).run (Pool.failing fun _ => none) (s.pool, 0) =
      (o, k) := hrun
  rcases hcases with ⟨rfl, hstored⟩ | ⟨⟨e, rfl⟩, -⟩
  · refine ⟨k.1, ?_, hstored⟩
    simp only [step, hn, hrun, clientId_mountId hid, mountNext, if_pos hid]
  · exact absurd hplain (mountStore_ne_throws h hid e k)

/-- If the first call fails, the number is taken all the same. -/
theorem step_mount_failing
    (hn : s.nextId = some nextId) (hid : HasId nextId) (code : Nat) :
    step s (.mount fun _ => some code) = some { s with nextId := some (nextId + 1) } := by
  obtain ⟨hpos, hle⟩ := leBytes_first (nextId + 1).toNat
  have hrun : (mountStore nextId).run (Pool.failing fun _ => some code) (s.pool, 0) =
      (.throws (.runtimeError "rados_io::write() failed (stat() failed)"),
        (s.pool, 1)) := by
    rw [mountStore, if_pos hid, RadosIo.write_first hpos hle]
    rfl
  simp only [step, hn, hrun, mountNext, if_pos hid]

end Steps

/-- The ids that have been given lie below the stored number, and that is at most
the number in memory. -/
structure NumberedBelow (s : SessionService) (stored : Nat) : Prop where
  pool : Stored s.pool stored
  pos : 1 ≤ stored
  le : stored ≤ 2 ^ clientBits
  memory : ∀ n, s.nextId = some n → stored ≤ n.toNat ∧ n.toNat ≤ 2 ^ clientBits
  range : ∀ id ∈ s.given, id ≠ noId → 1 ≤ id.toNat ∧ id.toNat < stored
  increasing : (s.given.filter (· ≠ noId)).Pairwise (· < ·)

def Numbered (s : SessionService) : Prop := ∃ stored, NumberedBelow s stored

theorem stored_of_others
    {p' : Pool} (h : Stored p stored)
    (hsame : ∀ k, p' (objName .CLIENT nextIdKey k) = p (objName .CLIENT nextIdKey k)) :
    Stored p' stored := by
  have hfile : ∀ c n, FileIs p .CLIENT nextIdKey c n → FileIs p' .CLIENT nextIdKey c n := by
    intro c n hf
    unfold FileIs
    rw [funext hsame]
    exact hf
  exact h.imp (fun hf => ⟨hfile _ _ hf.1, hf.2⟩)
    fun hf => hf.imp fun n hn => hfile _ _ hn

/-- The new id is the largest. -/
theorem increasing_append
    {given : List UInt64} (hinc : (given.filter (· ≠ noId)).Pairwise (· < ·))
    (hrange : ∀ id ∈ given, id ≠ noId → id.toNat < stored)
    (hle : stored ≤ nextId.toNat) :
    ((given ++ [nextId]).filter (· ≠ noId)).Pairwise (· < ·) := by
  rw [List.filter_append, List.pairwise_append]
  refine ⟨hinc, ?_, ?_⟩
  · exact (List.pairwise_singleton _ nextId).filter _
  · intro id hid new hnew
    obtain ⟨hid, hproper⟩ := List.mem_filter.mp hid
    obtain rfl := List.mem_singleton.mp (List.mem_filter.mp hnew).1
    have hlt := hrange id hid (by simpa using hproper)
    exact UInt64.lt_iff_toNat_lt.mpr (by omega)

/-- A `mount` gives the number in memory, or -1, or nothing. -/
theorem NumberedBelow.mount
    {s s' : SessionService} (h : NumberedBelow s stored) {fails : Failures}
    (hstep : step s (.mount fails) = some s') : Numbered s' := by
  cases hnext : s.nextId with
  | none =>
      simp only [step, hnext] at hstep
      cases hstep
  | some nextId =>
      obtain ⟨hle, hmax⟩ := h.memory nextId hnext
      simp only [step, hnext] at hstep
      by_cases hid : HasId nextId
      · have hlt : nextId.toNat < 2 ^ clientBits := hid
        have hnextNat := toNat_mountNext hid
        have hplus : (nextId + 1).toNat = nextId.toNat + 1 := by
          rw [mountNext, if_pos hid] at hnextNat
          exact hnextNat
        obtain ⟨o, k, hrun, hcases⟩ := run_mountStore h.pool hid fails
        rw [hrun] at hstep
        rcases hcases with ⟨rfl, hstored⟩ | ⟨⟨e, rfl⟩, hpool⟩
        · cases hstep
          rw [hplus] at hstored
          refine ⟨nextId.toNat + 1, hstored, by omega, by omega, ?_, ?_, ?_⟩
          · rintro n ⟨⟩
            omega
          · intro id hid' hproper
            rcases List.mem_append.mp hid' with hold | hnew
            · obtain ⟨hpos, hsmall⟩ := h.range id hold hproper
              exact ⟨hpos, by omega⟩
            · rw [List.mem_singleton.mp hnew, clientId_mountId hid]
              have := h.pos
              omega
          · rw [clientId_mountId hid]
            exact increasing_append h.increasing
              (fun id hid' hproper => (h.range id hid' hproper).2) hle
        · cases hstep
          refine ⟨stored, ?_, h.pos, h.le, ?_, h.range, h.increasing⟩
          · rw [show SessionService.pool _ = k.1 from rfl, hpool]
            exact h.pool
          · rintro n ⟨⟩
            omega
      · have hrun : (mountStore nextId).run (Pool.failing fails) (s.pool, 0) =
            (.ok (), (s.pool, 0)) := by
          rw [mountStore, if_neg hid]
          rfl
        rw [hrun] at hstep
        cases hstep
        refine ⟨stored, h.pool, h.pos, h.le, ?_, ?_, ?_⟩
        · rintro n ⟨⟩
          rw [mountNext, if_neg hid]
          exact ⟨hle, hmax⟩
        · intro id hid' hproper
          rcases List.mem_append.mp hid' with hold | hnew
          · exact h.range id hold hproper
          · rw [List.mem_singleton.mp hnew, clientId_mountId_none hid] at hproper
            exact absurd rfl hproper
        · rw [clientId_mountId_none hid, List.filter_append]
          simpa using h.increasing

theorem numbered_invariant : Stepper.InvariantUnder step Allowed Numbered := by
  rintro s a s' ⟨stored, h⟩ hok hstep
  cases a with
  | start =>
      have hlt : stored < 2 ^ 64 := by
        have hle : stored ≤ 2 ^ 24 := h.le
        omega
      simp only [step, run_new h.pool hlt] at hstep
      split at hstep
      · rename_i heq
        cases heq
        cases hstep
        refine ⟨stored, h.pool, h.pos, h.le, ?_, h.range, h.increasing⟩
        rintro n ⟨⟩
        rw [UInt64.toNat_ofNat_of_lt' hlt]
        exact ⟨Nat.le_refl _, h.le⟩
      · cases hstep
  | mount fails => exact h.mount hstep
  | stop =>
      cases hstep
      exact ⟨stored, h.pool, h.pos, h.le, by rintro n ⟨⟩, h.range, h.increasing⟩
  | others p =>
      cases hstep
      exact ⟨stored, stored_of_others h.pool hok, h.pos, h.le, h.memory, h.range,
        h.increasing⟩

/-- No manager has run, and nobody has mounted. -/
structure Fresh (s : SessionService) : Prop where
  pool : FileIs s.pool .CLIENT nextIdKey [] 0
  nextId : s.nextId = none
  given : s.given = []

theorem Fresh.numberedBelow {s : SessionService} (h : Fresh s) : NumberedBelow s 1 where
  pool := .inl ⟨h.pool, rfl⟩
  pos := Nat.le_refl 1
  le := by decide
  memory := by
    rw [h.nextId]
    rintro n ⟨⟩
  range := by
    rw [h.given]
    rintro id ⟨⟩
  increasing := by
    rw [h.given]
    exact .nil

/-- **Clients have different ids.** Whatever fails, and however often the manager
is started again, every client has a number below `1 << CLIENT_BITS`, which is
larger than those of the clients before it, or -1. -/
theorem client_ids_distinct
    {s s' : SessionService} (h : Fresh s) {acts : List Act}
    (hacts : Stepper.Steps step Allowed s acts)
    (hrun : Stepper.runFrom step s acts = some s') :
    (∀ id ∈ s'.given, id = noId ∨ (1 ≤ id.toNat ∧ id.toNat < 2 ^ clientBits)) ∧
      (s'.given.filter (· ≠ noId)).Pairwise (· < ·) := by
  obtain ⟨stored, hnum⟩ := numbered_invariant.runFrom ⟨1, h.numberedBelow⟩ hacts hrun
  refine ⟨?_, hnum.increasing⟩
  intro id hid
  by_cases hproper : id = noId
  · exact .inl hproper
  · obtain ⟨hpos, hlt⟩ := hnum.range id hid hproper
    exact .inr ⟨hpos, Nat.lt_of_lt_of_le hlt hnum.le⟩

/-- The id of the `i`-th client, from 0. -/
def numberOf (i : Nat) : UInt64 :=
  if i + 1 < 2 ^ clientBits then UInt64.ofNat (i + 1) else noId

/-- No call of a `mount` fails. -/
def Sound (s : SessionService) : Act → Prop
  | .mount fails => fails = fun _ => none
  | .start | .stop => True
  | .others p => s.Allowed (.others p)

/-- The number of clients is in the pool and in memory, up to the last number. -/
structure Counted (s : SessionService) : Prop where
  pool : Stored s.pool (min (s.given.length + 1) (2 ^ clientBits))
  memory : ∀ n, s.nextId = some n →
    n.toNat = min (s.given.length + 1) (2 ^ clientBits)
  given : s.given = (List.range s.given.length).map numberOf

theorem Counted.mount
    {s s' : SessionService} (h : Counted s)
    (hstep : step s (.mount fun _ => none) = some s') : Counted s' := by
  cases hnext : s.nextId with
  | none =>
      simp only [step, hnext] at hstep
      cases hstep
  | some nextId =>
      have hn := h.memory nextId hnext
      by_cases hid : HasId nextId
      · have hlt : nextId.toNat < 2 ^ clientBits := hid
        have hlen : nextId.toNat = s.given.length + 1 := by omega
        have hplus := toNat_mountNext hid
        rw [mountNext, if_pos hid] at hplus
        have hnumber : numberOf s.given.length = nextId := by
          rw [numberOf, if_pos (by omega), ← hlen, UInt64.ofNat_toNat]
        have hmin : min (s.given.length + 1 + 1) (2 ^ clientBits) = nextId.toNat + 1 := by
          omega
        obtain ⟨p, hmount, hstored⟩ := step_mount h.pool hnext hid
        rw [hmount] at hstep
        cases hstep
        refine ⟨?_, ?_, ?_⟩
        · rw [List.length_append, List.length_singleton, hmin, ← hplus]
          exact hstored
        · rintro n ⟨⟩
          rw [List.length_append, List.length_singleton, hmin]
          exact hplus
        · rw [List.length_append, List.length_singleton, List.range_succ,
            List.map_append, ← h.given, List.map_singleton, hnumber]
      · have hrun : (mountStore nextId).run (Pool.failing fun _ => none) (s.pool, 0) =
            (.ok (), (s.pool, 0)) := by
          rw [mountStore, if_neg hid]
          rfl
        have hge : 2 ^ clientBits ≤ nextId.toNat := Nat.le_of_not_lt hid
        have hmin : min (s.given.length + 1 + 1) (2 ^ clientBits) =
            min (s.given.length + 1) (2 ^ clientBits) := by omega
        have hnumber : numberOf s.given.length = noId := by
          rw [numberOf, if_neg (by omega)]
        simp only [step, hnext, hrun] at hstep
        cases hstep
        refine ⟨?_, ?_, ?_⟩
        · rw [List.length_append, List.length_singleton, hmin]
          exact h.pool
        · rintro n ⟨⟩
          rw [List.length_append, List.length_singleton, hmin, mountNext, if_neg hid]
          exact hn
        · rw [List.length_append, List.length_singleton, List.range_succ,
            List.map_append, ← h.given, List.map_singleton, hnumber,
            clientId_mountId_none hid]

theorem counted_invariant : Stepper.InvariantUnder step Sound Counted := by
  intro s a s' h hok hstep
  cases a with
  | start =>
      have hlt : min (s.given.length + 1) (2 ^ clientBits) < 2 ^ 64 :=
        Nat.lt_of_le_of_lt (Nat.min_le_right _ _) (by decide)
      simp only [step, run_new h.pool hlt] at hstep
      split at hstep
      · rename_i heq
        cases heq
        cases hstep
        refine ⟨h.pool, ?_, h.given⟩
        rintro n ⟨⟩
        exact UInt64.toNat_ofNat_of_lt' hlt
      · cases hstep
  | mount fails =>
      obtain rfl : fails = fun _ => none := hok
      exact h.mount hstep
  | stop =>
      cases hstep
      exact ⟨h.pool, by rintro n ⟨⟩, h.given⟩
  | others p =>
      cases hstep
      exact ⟨stored_of_others h.pool hok, h.memory, h.given⟩

theorem Fresh.counted {s : SessionService} (h : Fresh s) : Counted s where
  pool := by
    rw [h.given]
    exact .inl ⟨h.pool, rfl⟩
  memory := by
    rw [h.nextId]
    rintro n ⟨⟩
  given := by
    rw [h.given]
    rfl

/-- **The clients are counted.** If no call fails, the clients have the ids 1, 2,
and so on, over any number of managers, and -1 when these are used up. -/
theorem client_ids_count
    {s s' : SessionService} (h : Fresh s) {acts : List Act}
    (hacts : Stepper.Steps step Sound s acts)
    (hrun : Stepper.runFrom step s acts = some s') :
    s'.given = (List.range s'.given.length).map numberOf :=
  (counted_invariant.runFrom h.counted hacts hrun).given

section Examples

/-- An empty pool. -/
def unmounted : SessionService := ⟨.empty, none, []⟩

theorem unmounted_fresh : Fresh unmounted := ⟨Striped.empty objSize, rfl, rfl⟩

theorem start_unmounted :
    step unmounted .start = some { unmounted with nextId := some 1 } := by
  have hstored : Stored unmounted.pool 1 := unmounted_fresh.numberedBelow.pool
  exact step_start hstored (by decide) rfl

/-- The first client, a `mount` that fails, and a client of the next manager. -/
def failingMount : List Act :=
  [.start, .mount fun _ => none, .mount fun _ => some 5, .stop, .start,
    .mount fun _ => none]

/-- The number that has been taken by the `mount` that fails is given again. -/
theorem client_ids_distinct_failing :
    ∃ s', Stepper.runFrom step unmounted failingMount = some s' ∧ s'.given = [1, 2] ∧
      (∀ id ∈ s'.given, id = noId ∨ (1 ≤ id.toNat ∧ id.toNat < 2 ^ clientBits)) ∧
      (s'.given.filter (· ≠ noId)).Pairwise (· < ·) := by
  have hpool := unmounted_fresh.numberedBelow.pool
  obtain ⟨p₁, hfirst, hstored⟩ := step_mount (s := { unmounted with nextId := some 1 })
    hpool rfl (by decide)
  have hfails := step_mount_failing (s := ⟨p₁, some (1 + 1), [1]⟩) rfl (by decide) 5
  have hstart := step_start (s := ⟨p₁, none, [1]⟩) hstored (by decide) rfl
  obtain ⟨p₂, hsecond, -⟩ := step_mount (s := ⟨p₁, some (UInt64.ofNat 2), [1]⟩) hstored
    rfl (by decide)
  have hrun : Stepper.runFrom step unmounted failingMount = some ⟨p₂, some 3, [1, 2]⟩ := by
    simp only [failingMount, Stepper.runFrom, start_unmounted, Option.bind_some]
    rw [hfirst, Option.bind_some]
    change Option.bind (step ⟨p₁, some (1 + 1), [1]⟩ _) _ = _
    rw [hfails, Option.bind_some]
    change Option.bind (step ⟨p₁, none, [1]⟩ .start) _ = _
    rw [hstart, Option.bind_some]
    change Option.bind (step ⟨p₁, some (UInt64.ofNat 2), [1]⟩ _) _ = _
    rw [hsecond]
    rfl
  have hacts : Stepper.Steps step Allowed unmounted failingMount := by
    refine .of_mem (fun a ha s => ?_) unmounted
    simp only [failingMount, List.mem_cons, List.not_mem_nil, or_false] at ha
    rcases ha with rfl | rfl | rfl | rfl | rfl | rfl <;> trivial
  exact ⟨_, hrun, rfl, client_ids_distinct unmounted_fresh hacts hrun⟩

/-- Two clients, and one of the next manager. -/
def restartedManager : List Act :=
  [.start, .mount fun _ => none, .mount fun _ => none, .stop, .start,
    .mount fun _ => none]

theorem client_ids_count_restarted :
    ∃ s', Stepper.runFrom step unmounted restartedManager = some s' ∧
      s'.given.length = 3 ∧ s'.given = (List.range s'.given.length).map numberOf := by
  have hpool := unmounted_fresh.numberedBelow.pool
  obtain ⟨p₁, hfirst, hstored₁⟩ := step_mount (s := { unmounted with nextId := some 1 })
    hpool rfl (by decide)
  obtain ⟨p₂, hsecond, hstored₂⟩ := step_mount (s := ⟨p₁, some (1 + 1), [1]⟩) hstored₁
    rfl (by decide)
  have hstart := step_start (s := ⟨p₂, none, [1, 2]⟩) hstored₂ (by decide) rfl
  obtain ⟨p₃, hthird, -⟩ := step_mount (s := ⟨p₂, some (UInt64.ofNat 3), [1, 2]⟩) hstored₂
    rfl (by decide)
  have hrun : Stepper.runFrom step unmounted restartedManager =
      some ⟨p₃, some 4, [1, 2, 3]⟩ := by
    simp only [restartedManager, Stepper.runFrom, start_unmounted, Option.bind_some]
    rw [hfirst, Option.bind_some]
    change Option.bind (step ⟨p₁, some (1 + 1), [1]⟩ _) _ = _
    rw [hsecond, Option.bind_some]
    change Option.bind (step ⟨p₂, none, [1, 2]⟩ .start) _ = _
    rw [hstart, Option.bind_some]
    change Option.bind (step ⟨p₂, some (UInt64.ofNat 3), [1, 2]⟩ _) _ = _
    rw [hthird]
    rfl
  have hacts : Stepper.Steps step Sound unmounted restartedManager := by
    refine .of_mem (fun a ha s => ?_) unmounted
    simp only [restartedManager, List.mem_cons, List.not_mem_nil, or_false] at ha
    rcases ha with rfl | rfl | rfl | rfl | rfl | rfl <;> trivial
  exact ⟨_, hrun, rfl, client_ids_count unmounted_fresh hacts hrun⟩

end Examples

end SessionService

end Nmfs
