import Nmfs.Meta.Uuid
import Mathlib.Logic.Function.Basic

/-!
# Lease tables

The two tables of the lease protocol: the manager's `lease_table`, which maps
a printed inode number to a due and the address of the leader, and a client's
`lease_table_client`, which maps an inode number to the due it was told and
whether it was told to be the leader.

A due is a reading of the shared clock.  `system_clock::now()` is an argument
of the functions that read it.
-/

namespace Nmfs

/-- The remote address of a client. -/
abbrev Address := Key

/-- `LEASE_PERIOD_MS`, in nanoseconds -/
def leasePeriod : Nat := 200000000 * 1000000

theorem leasePeriod_pos : 0 < leasePeriod := by decide

/-- `lease_table::lease_entry` -/
structure ManagerEntry where
  due : Nat
  addr : Address
deriving DecidableEq, Repr

abbrev ManagerTable := Key → Option ManagerEntry

/-- What `lease_table::acquire` gives back: `ok` is the return value 0,
`latestDue` and `remoteAddr` are the arguments it sets. -/
structure LeaseResponse where
  ok : Bool
  latestDue : Nat
  remoteAddr : Address
deriving DecidableEq, Repr

/-- `lease_entry::cas`.  The clock is read once for the comparison (`now`) and
once more for the new due (`now'`). -/
def ManagerEntry.cas (e : ManagerEntry) (now now' : Nat) (remoteAddr : Address) :
    LeaseResponse × ManagerEntry :=
  if e.due ≤ now then
    (⟨true, now' + leasePeriod, remoteAddr⟩, ⟨now' + leasePeriod, remoteAddr⟩)
  else if e.addr = remoteAddr then
    (⟨true, e.due, remoteAddr⟩, e)
  else
    (⟨false, e.due, e.addr⟩, e)

/-- The second half of `lease_table::acquire`, under the unique lock.  If
another client was faster, `remote_addr` is left as it was. -/
def ManagerTable.insert (map : ManagerTable) (ino : Uuid) (now : Nat)
    (remoteAddr : Address) : LeaseResponse × ManagerTable :=
  match map (uuidToString ino) with
  | none =>
      (⟨true, now + leasePeriod, remoteAddr⟩,
        Function.update map (uuidToString ino)
          (some ⟨now + leasePeriod, remoteAddr⟩))
  | some e => (⟨e.addr = remoteAddr, e.due, remoteAddr⟩, map)

/-- `lease_table_client::lease_entry` -/
structure LeaseEntry where
  due : Nat
  leader : Bool
deriving DecidableEq, Repr

abbrev LeaseTable := Uuid → Option LeaseEntry

/-- `lease_entry::set_info` -/
def LeaseEntry.setInfo (e : LeaseEntry) (newDue : Nat) (mine : Bool) :
    LeaseEntry :=
  if e.due < newDue then ⟨newDue, mine⟩ else e

namespace LeaseTable

def isValid (map : LeaseTable) (ino : Uuid) (now : Nat) : Bool :=
  match map ino with
  | none => false
  | some e => now < e.due

def isMine (map : LeaseTable) (ino : Uuid) (now : Nat) : Bool :=
  match map ino with
  | none => false
  | some e => e.leader && now < e.due

/-- The last step of `update`: `set_info` on the entry that was found, or the
insertion under the unique lock.  An entry is never removed, so both do this. -/
def update (map : LeaseTable) (ino : Uuid) (newDue : Nat) (mine : Bool) :
    LeaseTable :=
  Function.update map ino
    (some (match map ino with
      | none => ⟨newDue, mine⟩
      | some e => e.setInfo newDue mine))

theorem isMine_iff {map : LeaseTable} {ino : Uuid} {now : Nat} :
    map.isMine ino now = true ↔
      ∃ d, map ino = some ⟨d, true⟩ ∧ now < d := by
  unfold isMine
  rcases h : map ino with _ | ⟨d, m⟩
  · simp
  · simp only [Bool.and_eq_true, decide_eq_true_eq, Option.some.injEq,
      LeaseEntry.mk.injEq]
    constructor
    · rintro ⟨rfl, hd⟩
      exact ⟨d, ⟨rfl, rfl⟩, hd⟩
    · rintro ⟨d', ⟨rfl, rfl⟩, hd⟩
      exact ⟨rfl, hd⟩

theorem isValid_iff {map : LeaseTable} {ino : Uuid} {now : Nat} :
    map.isValid ino now = true ↔
      ∃ e, map ino = some e ∧ now < e.due := by
  unfold isValid
  rcases h : map ino with _ | e
  · simp
  · simp

/-- The lease of the leader is valid. -/
theorem isValid_of_isMine
    {map : LeaseTable} {ino : Uuid} {now : Nat}
    (h : map.isMine ino now = true) : map.isValid ino now = true := by
  obtain ⟨d, hd, hlt⟩ := isMine_iff.mp h
  exact isValid_iff.mpr ⟨_, hd, hlt⟩

theorem update_of_ne
    {map : LeaseTable} {ino ino' : Uuid} (h : ino' ≠ ino)
    (newDue : Nat) (mine : Bool) :
    map.update ino newDue mine ino' = map ino' := by
  simp [update, h]

/-- An updated entry is what it was, or what the manager has answered. -/
theorem update_self
    (map : LeaseTable) (ino : Uuid) (newDue : Nat) (mine : Bool) :
    (map ino = none ∧ map.update ino newDue mine ino = some ⟨newDue, mine⟩) ∨
      ∃ e, map ino = some e ∧
        ((e.due < newDue ∧ map.update ino newDue mine ino = some ⟨newDue, mine⟩) ∨
          (newDue ≤ e.due ∧ map.update ino newDue mine ino = some e)) := by
  rcases h : map ino with _ | e
  · left
    simp [update, h]
  · right
    refine ⟨e, rfl, ?_⟩
    by_cases hlt : e.due < newDue
    · left
      simp [update, h, LeaseEntry.setInfo, hlt]
    · right
      simp [update, h, LeaseEntry.setInfo, hlt, Nat.le_of_not_lt hlt]

end LeaseTable

namespace ManagerEntry

variable (e : ManagerEntry) {now now' : Nat} {remoteAddr : Address}

/-- An unexpired entry is not changed. -/
theorem cas_of_lt (h : now < e.due) :
    (e.cas now now' remoteAddr).2 = e := by
  unfold cas
  rw [if_neg (Nat.not_le_of_lt h)]
  split <;> rfl

/-- Whoever gets the lease is in the entry afterwards, with the due that he is
told. -/
theorem cas_of_ok (h : (e.cas now now' remoteAddr).1.ok = true) :
    (e.cas now now' remoteAddr).2 =
      ⟨(e.cas now now' remoteAddr).1.latestDue, remoteAddr⟩ := by
  unfold cas at h ⊢
  by_cases h₁ : e.due ≤ now
  · simp [h₁]
  · by_cases h₂ : e.addr = remoteAddr
    · simp [h₁, ← h₂]
    · simp [h₁, h₂] at h

/-- An unexpired lease is given to its owner only. -/
theorem addr_of_cas_ok (hlt : now < e.due)
    (h : (e.cas now now' remoteAddr).1.ok = true) : e.addr = remoteAddr := by
  unfold cas at h
  rw [if_neg (Nat.not_le_of_lt hlt)] at h
  by_contra hne
  simp [hne] at h

end ManagerEntry

/-- No entry that is unexpired at `now'` differs. -/
def ManagerTable.Keeps (m m' : ManagerTable) (now' : Nat) : Prop :=
  ∀ key e, m key = some e → now' < e.due → m' key = some e

/-- The manager's entry for `ino` is `(due, a)`, unless that has expired. -/
def Backed (m : ManagerTable) (now : Nat) (ino : Uuid) (due : Nat)
    (a : Address) : Prop :=
  now < due → m (uuidToString ino) = some ⟨due, a⟩

section Keeps

variable {m m' : ManagerTable} {now now' due : Nat} {ino : Uuid} {a : Address}

theorem ManagerTable.Keeps.refl (m : ManagerTable) (now' : Nat) :
    m.Keeps m now' :=
  fun _ _ he _ => he

theorem ManagerTable.keeps_cas
    {e : ManagerEntry} (he : m (uuidToString ino) = some e)
    (hnow : now ≤ now') :
    m.Keeps (Function.update m (uuidToString ino)
      (some (e.cas now now' a).2)) now' := by
  intro key e' he' hdue
  by_cases hkey : key = uuidToString ino
  · subst hkey
    rw [he] at he'
    cases he'
    simp only [Function.update_self, Option.some.injEq]
    exact e.cas_of_lt (Nat.lt_of_le_of_lt hnow hdue)
  · simp [hkey, he']

theorem ManagerTable.keeps_insert
    (m : ManagerTable) (ino : Uuid) (now now' : Nat) (a : Address) :
    m.Keeps (m.insert ino now a).2 now' := by
  intro key e he _
  rw [ManagerTable.insert]
  split
  · rename_i hnone
    have hne : key ≠ uuidToString ino := by
      rintro rfl
      rw [he] at hnone
      cases hnone
    simp [hne, he]
  · exact he

theorem Backed.mono
    (h : Backed m now ino due a) (hnow : now ≤ now') (hm : m.Keeps m' now') :
    Backed m' now' ino due a :=
  fun hlt => hm _ _ (h (Nat.lt_of_le_of_lt hnow hlt)) hlt

/-- Behind `cas` the response is what the entry says. -/
theorem backed_cas
    (m : ManagerTable) (ino : Uuid) (e : ManagerEntry) (now now' : Nat)
    (a : Address) :
    Function.update m (uuidToString ino) (some (e.cas now now' a).2)
        (uuidToString ino) =
      some ⟨(e.cas now now' a).1.latestDue,
        if (e.cas now now' a).1.ok then a
        else (e.cas now now' a).1.remoteAddr⟩ := by
  rw [Function.update_self]
  unfold ManagerEntry.cas
  split
  · simp
  · split
    · rename_i h
      simp [← h]
    · simp

/-- Behind the insertion it is, if the lease was granted. -/
theorem backed_insert
    {m : ManagerTable} {ino : Uuid} {now : Nat} {a : Address}
    (hok : (m.insert ino now a).1.ok = true) :
    (m.insert ino now a).2 (uuidToString ino) =
      some ⟨(m.insert ino now a).1.latestDue, a⟩ := by
  unfold ManagerTable.insert at hok ⊢
  split
  · simp
  · rename_i e he
    simp only [he, decide_eq_true_eq] at hok
    simp only [he, ← hok]

end Keeps

end Nmfs
