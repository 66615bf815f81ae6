import Nmfs.Local.ExclusiveCreate

/-!
# Creation in a directory that is being removed

A handler fetches the table of the directory with `get_dentry_table`, and later
runs its body under the mutex of that table.  `rmdir_top` finds the table empty,
marks the directory as deleted in the journal, and takes the table out of the
indexing table while it holds the mutex.  A handler that has fetched the table
before is not stopped by that: its body inserts an entry into a table that
nobody will find again.

The directory is at one leader, which keeps its lease.  Handlers are numbered;
any number of them can be between their two steps.  As long as no body that
inserts an entry runs after the removal, nothing is lost (`Excluded`).

A rename inside the directory is not among the bodies.  It needs an entry and
leaves one, so `rmdir_top` finds the same before and after it; and in a table that
is empty it finds no entry and changes nothing.
-/

namespace Nmfs

namespace Directory

open DentryTable

/-- The bodies of the handlers, with their arguments. -/
inductive Body where
  | create (kind : Kind) (r : Request)
  | localRenameDst (targetI : Inode) (checkDstIno : Uuid) (newName : Name)
      (flags : UInt32)
  | rpcRenameDst (targetI : Inode) (checkDstIno : Uuid) (newName : Name)
      (flags : UInt32)
  | localUnlink (childName : Name) (ts : Timespec)
  | rpcUnlink (filename : Name) (ts : Timespec)
  | localRenameSrc (oldName : Name) (flags : UInt32)
  | rpcRenameSrc (oldName : Name) (flags : UInt32)
  | localRmdirTop
  | rpcRmdirTop

namespace Body

def run (d : Directory) : Body → Reply × Directory
  | create kind r => kind.handle d r
  | localRenameDst targetI checkDstIno newName flags =>
      d.localRenameNotSameParentDst targetI checkDstIno newName flags
  | rpcRenameDst targetI checkDstIno newName flags =>
      d.rpcRenameNotSameParentDst targetI checkDstIno newName flags
  | localUnlink childName ts => d.localUnlink childName ts
  | rpcUnlink filename ts => d.rpcUnlink filename ts
  | localRenameSrc oldName flags =>
      match d.localRenameNotSameParentSrc oldName flags with
      | (.ok _, d) => (.ret 0, d)
      | (.error e, d) => (.throws e, d)
  | rpcRenameSrc oldName flags =>
      match d.rpcRenameNotSameParentSrc oldName flags with
      | (.ok (some _), d) => (.ret 0, d)
      | (.ok none, d) => (.ret (-ENOSYS), d)
      | (.error e, d) => (.throws e, d)
  | localRmdirTop => d.localRmdirTop
  | rpcRmdirTop => d.rpcRmdirTop

/-- The name that a body inserts. -/
def inserts? : Body → Option Name
  | create _ r => some r.name
  | localRenameDst _ _ newName _ | rpcRenameDst _ _ newName _ => some newName
  | localUnlink _ _ | rpcUnlink _ _ | localRenameSrc _ _ | rpcRenameSrc _ _
  | localRmdirTop | rpcRmdirTop => none

def isTop : Body → Bool
  | localRmdirTop | rpcRmdirTop => true
  | _ => false

end Body

section Bodies

variable {d : Directory} {name : Name}

theorem touches_renameSrc
    (d : Directory) (oldName : Name) (flags : UInt32) :
    Touches oldName d (d.localRenameNotSameParentSrc oldName flags).2 := by
  unfold localRenameNotSameParentSrc
  split
  · exact .refl d
  · split
    · exact touches_takeTarget d oldName _
    · exact .refl d

/-- Over RPC the source half does the same to the directory. -/
theorem rpcRenameSrc_snd
    (d : Directory) (oldName : Name) (flags : UInt32) :
    (d.rpcRenameNotSameParentSrc oldName flags).2 =
      (d.localRenameNotSameParentSrc oldName flags).2 := by
  unfold rpcRenameNotSameParentSrc localRenameNotSameParentSrc
  split
  · rfl
  · split
    · split <;> simp_all
    · rfl

theorem run_renameSrc_snd
    (d : Directory) (oldName : Name) (flags : UInt32) :
    ((Body.localRenameSrc oldName flags).run d).2 =
        (d.localRenameNotSameParentSrc oldName flags).2 ∧
      ((Body.rpcRenameSrc oldName flags).run d).2 =
        (d.localRenameNotSameParentSrc oldName flags).2 := by
  constructor
  · simp only [Body.run]
    split <;> simp_all
  · rw [← rpcRenameSrc_snd]
    simp only [Body.run]
    split <;> simp_all

/-- Every body but those of `rmdir_top` works on one name. -/
theorem touches_run {body : Body} (h : body.isTop = false) (d : Directory) :
    ∃ name, Touches name d (body.run d).2 := by
  cases body with
  | create kind r => exact ⟨r.name, touches_handle kind d r⟩
  | localRenameDst targetI checkDstIno newName flags =>
      refine ⟨newName, ?_⟩
      simp only [Body.run, localRenameNotSameParentDst]
      split
      · exact touches_renameDst d newName targetI checkDstIno
      · exact .refl d
  | rpcRenameDst targetI checkDstIno newName flags =>
      refine ⟨newName, ?_⟩
      simp only [Body.run, rpcRenameNotSameParentDst]
      split
      · exact touches_renameDst d newName targetI checkDstIno
      · exact .refl d
  | localUnlink childName ts => exact ⟨childName, touches_removeReg d childName ts⟩
  | rpcUnlink filename ts => exact ⟨filename, touches_removeReg d filename ts⟩
  | localRenameSrc oldName flags =>
      refine ⟨oldName, ?_⟩
      rw [(run_renameSrc_snd d oldName flags).1]
      exact touches_renameSrc d oldName flags
  | rpcRenameSrc oldName flags =>
      refine ⟨oldName, ?_⟩
      rw [(run_renameSrc_snd d oldName flags).2]
      exact touches_renameSrc d oldName flags
  | localRmdirTop => cases h
  | rpcRmdirTop => cases h

theorem create_isSome
    {t : DentryTable} {i : Inode}
    (ht : SameNames (d.table.createChildInode name i).2 t) {ino : Uuid}
    {op : TxOp} : (({ d with table := t } : Directory).called ino op).table.childIno
      name |>.isSome := by
  have h : (t.childIno name).isSome = true := by
    rw [ht.child, createChildInode_isSome]
  exact h

theorem insertTarget_isSome (d : Directory) (name : Name) (i : Inode) :
    ((d.insertTarget name i).2.table.childIno name).isSome :=
  journalCall_snd (P := fun d' => (d'.table.childIno name).isSome)
    (create_isSome (.refl _)) fun _ h => h

theorem renameDst_isSome
    {targetI : Inode} {checkDstIno : Uuid}
    (h : (d.renameDst name targetI checkDstIno).1 = .ret 0) :
    ((d.renameDst name targetI checkDstIno).2.table.childIno name).isSome := by
  revert h
  unfold renameDst
  split
  · unfold replaceTarget
    split
    · rintro ⟨⟩
    · intro h
      rw [journalCall_of_ret h]
      exact insertTarget_isSome _ name _
  · intro _
    exact insertTarget_isSome d name _

theorem insertSymlink_isSome
    {i : Inode} (h : (d.insertSymlink name i).1 = .ret 0) :
    ((d.insertSymlink name i).2.table.childIno name).isSome := by
  revert h
  unfold insertSymlink
  split
  · intro h
    have h : Reply.ret (-EEXIST) = .ret 0 := h
    exact absurd h (by decide)
  · intro _
    exact journalCall_snd (P := fun d' => (d'.table.childIno name).isSome)
      (create_isSome (.refl _)) fun _ h => h

/-- After a reported insertion the name is in the table. -/
theorem inserts_isSome
    {body : Body} (hins : body.inserts? = some name)
    (h : (body.run d).1 = .ret 0) :
    ((body.run d).2.table.childIno name).isSome := by
  have hsame : ∀ d' : Directory, (d'.table.childIno name).isSome →
      (d'.table.childIno name).isSome := fun _ h => h
  cases body with
  | create kind r =>
      cases hins
      cases kind with
      | localMkdir =>
          exact journalCall_snd (P := fun d' => (d'.table.childIno r.name).isSome)
            (create_isSome (.touch _ r.ts)) fun d' h => journalCall_snd
              (P := fun d' => (d'.table.childIno r.name).isSome) h hsame
      | rpcMkdir =>
          exact journalCall_snd (P := fun d' => (d'.table.childIno r.name).isSome)
            (create_isSome (.touch _ r.ts)) hsame
      | localCreate =>
          exact journalCall_snd (P := fun d' => (d'.table.childIno r.name).isSome)
            (create_isSome (.touch _ r.ts)) hsame
      | rpcCreate =>
          exact journalCall_snd (P := fun d' => (d'.table.childIno r.name).isSome)
            (create_isSome (.touch _ r.ts)) hsame
      | localSymlink => exact insertSymlink_isSome h
      | rpcSymlink => exact insertSymlink_isSome h
  | localRenameDst targetI checkDstIno newName flags =>
      cases hins
      revert h
      simp only [Body.run, localRenameNotSameParentDst]
      split
      · exact renameDst_isSome
      · rintro ⟨⟩
  | rpcRenameDst targetI checkDstIno newName flags =>
      cases hins
      revert h
      simp only [Body.run, rpcRenameNotSameParentDst]
      split
      · exact renameDst_isSome
      · intro h
        have h : Reply.ret (-ENOSYS) = .ret 0 := h
        exact absurd h (by decide)
  | _ => cases hins

/-- Nothing is added to the transaction of the directory. -/
structure Shrinks (d d' : Directory) : Prop where
  dirIno : d'.dirIno = d.dirIno
  log : d'.journal.log = d.journal.log
  word : ∀ name ino, d'.word name = some (true, ino) →
    d.word name = some (true, ino)

theorem Shrinks.refl (d : Directory) : Shrinks d d :=
  ⟨rfl, rfl, fun _ _ => id⟩

theorem shrinks_keeps
    {op : TxOp} (h : op.Keeps) {t : DentryTable} (hdir : t.dirIno = d.dirIno)
    (ino : Uuid) : Shrinks d ({ d with table := t }.called ino op) where
  dirIno := hdir
  log := rfl
  word := by
    intro name' x hx
    have hkeep := (Journal.call_keeps d.journal ino op h t.dirIno name').word
    exact (congrArg (d.journal.word · name') hdir.symm).trans
      (hkeep.symm.trans hx)

theorem shrinks_delete
    {op : TxOp} {ino : Uuid} (h : op.Sets name false ino) {t : DentryTable}
    (hdir : t.dirIno = d.dirIno) :
    Shrinks d ({ d with table := t }.called t.dirIno op) where
  dirIno := hdir
  log := rfl
  word := by
    intro name' x hx
    have hword : d.journal.word t.dirIno name' = some (true, x) := by
      have hx : (d.journal.call t.dirIno op).2.word t.dirIno name' =
        some (true, x) := hx
      rcases eq_or_ne name' name with rfl | hne
      · rcases @Journal.call_sets d.journal t.dirIno _ _ _ _ h with
          ⟨-, ⟨y, hy⟩, hsame⟩ | ⟨-, hy⟩
        · rw [hsame.word, hy] at hx
          cases hx
        · rw [hy] at hx
          cases hx
      · rwa [(Journal.call_sets_ne h hne).word] at hx
    rwa [hdir] at hword

theorem shrinks_removeReg (d : Directory) (name : Name) (ts : Timespec) :
    Shrinks d (d.removeReg name ts).2 := by
  unfold removeReg
  split
  · exact .refl d
  · rename_i targetI h
    dsimp only
    split
    · exact journalCall_snd (P := Shrinks d)
        (shrinks_delete (.rmreg _ name targetI) (deleteChildInode_dirIno ..))
        fun _ h => h
    · refine journalCall_snd (P := Shrinks d) ?_ fun _ h => h
      apply shrinks_keeps (.chreg _)
      rfl

theorem shrinks_renameSrc (d : Directory) (oldName : Name) (flags : UInt32) :
    Shrinks d (d.localRenameNotSameParentSrc oldName flags).2 := by
  unfold localRenameNotSameParentSrc
  split
  · exact .refl d
  · rename_i targetI _
    split
    · exact takeTarget_snd (shrinks_delete (.rmreg _ oldName targetI)
        (deleteChildInode_dirIno ..))
    · exact .refl d

theorem shrinks_removeSelf (d : Directory) : Shrinks d d.removeSelf.2 := by
  unfold removeSelf
  split
  · exact .refl d
  · exact journalCall_snd (P := Shrinks d) (shrinks_keeps .rmself rfl _)
      fun _ h => h

/-- A body that inserts nothing. -/
theorem shrinks_run
    {body : Body} (h : body.inserts? = none) (d : Directory) :
    Shrinks d (body.run d).2 := by
  cases body with
  | create kind r => cases h
  | localRenameDst targetI checkDstIno newName flags => cases h
  | rpcRenameDst targetI checkDstIno newName flags => cases h
  | localUnlink childName ts => exact shrinks_removeReg d childName ts
  | rpcUnlink filename ts => exact shrinks_removeReg d filename ts
  | localRenameSrc oldName flags =>
      rw [(run_renameSrc_snd d oldName flags).1]
      exact shrinks_renameSrc d oldName flags
  | rpcRenameSrc oldName flags =>
      rw [(run_renameSrc_snd d oldName flags).2]
      exact shrinks_renameSrc d oldName flags
  | localRmdirTop => exact shrinks_removeSelf d
  | rpcRmdirTop => exact shrinks_removeSelf d

theorem run_of_isTop {body : Body} (h : body.isTop = true) (d : Directory) :
    body.run d = d.removeSelf ∧ body.inserts? = none := by
  cases body with
  | localRmdirTop => exact ⟨rfl, rfl⟩
  | rpcRmdirTop => exact ⟨rfl, rfl⟩
  | _ => cases h

/-- `rmdir_top` refuses, or the table is empty and the directory is marked. -/
theorem removeSelf_cases (d : Directory) :
    d.removeSelf = (.ret (-ENOTEMPTY), d) ∨
      (∀ name, d.table.childIno name = none) ∧
        d.removeSelf = (.ret 0, d.called d.dirIno .rmself) := by
  unfold removeSelf
  split
  · exact .inl rfl
  · rename_i hnum
    refine .inr ⟨d.table.getChildNum_eq_zero_iff.mp (by omega), ?_⟩
    exact journalCall_of_done (Journal.call_keeps_done .rmself)

end Bodies

end Directory

/-- A directory and the handlers at its leader.  `tables` are all tables that
the directory has had; `current` is the one in the indexing table. -/
structure DirRace where
  ino : Uuid
  tables : List DentryTable
  current : Option Nat
  journal : Journal
  clientUid : UInt32
  clientGid : UInt32
  held : Nat → Option Nat
  removed : Bool
  live : List Name

namespace DirRace

open Directory DentryTable

inductive Act where
  | fetch (handler : Nat) (loaded : Option DentryTable)
  | run (handler : Nat) (body : Body)
  | rmdirDown
  | commit

/-- What a body works on. -/
def view (s : DirRace) (t : DentryTable) : Directory where
  table := t
  journal := s.journal
  clientUid := s.clientUid
  clientGid := s.clientGid

/-- The names whose insertion has been reported, after a body that has turned
the table `t` into `t'`: a name that it has taken out of the table is dropped. -/
def report (live : List Name) (body : Body) (reply : Reply)
    (t t' : DentryTable) : List Name :=
  ((if reply = .ret 0 then body.inserts?.toList else []) ++ live).filter
    fun name => !((t.childIno name).isSome && (t'.childIno name).isNone)

/-- The body of a handler has run on the table `t`. -/
def ran (s : DirRace) (handler id : Nat) (t : DentryTable) (body : Body) :
    DirRace :=
  let x := body.run (s.view t)
  let gone := body.isTop && decide (x.1 = .ret 0)
  { s with
    tables := s.tables.set id x.2.table
    current := if gone then none else s.current
    journal := x.2.journal
    held := Function.update s.held handler none
    removed := s.removed || gone
    live := report s.live body x.1 t x.2.table }

/-- When there is no table, `get_dentry_table` answers that this client is not
the leader, or loads a new table from the pool. -/
def step : Stepper DirRace Act
  | s, .fetch handler loaded =>
      match s.current, loaded with
      | some id, _ => some { s with held := Function.update s.held handler (some id) }
      | none, none => some s
      | none, some t =>
          if t.dirIno = s.ino then some { s with
            tables := s.tables ++ [t]
            current := some s.tables.length
            held := Function.update s.held handler (some s.tables.length) }
          else none
  | s, .run handler body =>
      (s.held handler).bind fun id => (s.tables[id]?).map fun t =>
        s.ran handler id t body
  | s, .rmdirDown =>
      if s.removed then some { s with current := none } else none
  | s, .commit => some { s with journal := s.journal.commitAll }

/-- A leader that has loaded the directory, and no handler. -/
def start (d : Directory) : DirRace where
  ino := d.dirIno
  tables := [d.table]
  current := some 0
  journal := d.journal
  clientUid := d.clientUid
  clientGid := d.clientGid
  held := fun _ => none
  removed := false
  live := []

/-- The transactions of the directory. -/
def Tx (s : DirRace) (tx : Transaction) : Prop :=
  (tx ∈ s.journal.log ∨ s.journal.map.lookup s.ino = some tx) ∧ tx.sIno = s.ino

/-- Creation and removal exclude each other: a removed directory has no entry
whose insertion has been reported and that has not been removed, and a
transaction that deletes the directory adds no entry. -/
structure Excluded (s : DirRace) : Prop where
  live : s.removed = true → s.live = []
  deleted : ∀ tx, s.Tx tx → tx.status = .S_DELETED →
    ∀ name ino, tx.dentries.lookup name ≠ some (true, ino)

/-- No body inserts an entry after the removal. -/
def Timely (s : DirRace) : Act → Prop
  | .run _ body => body.inserts? ≠ none → s.removed = false
  | _ => True

/-- The directory exists, and all handlers have the same table. -/
structure Present (s : DirRace) (t : DentryTable) : Prop where
  tables : s.tables = [t]
  current : s.current = some 0
  held : ∀ handler id, s.held handler = some id → id = 0
  consistent : (s.view t).Consistent
  live : ∀ name ∈ s.live, (t.childIno name).isSome
  open_ : (s.journal.getEntry s.ino).status ≠ .S_DELETED
  log : ∀ tx ∈ s.journal.log, tx.sIno = s.ino → tx.status ≠ .S_DELETED

/-- The directory has been removed. -/
structure Gone (s : DirRace) : Prop where
  live : s.live = []
  word : ∀ name ino, s.journal.word s.ino name ≠ some (true, ino)
  log : ∀ tx ∈ s.journal.log, tx.sIno = s.ino → tx.status = .S_DELETED →
    ∀ name ino, tx.dentries.lookup name ≠ some (true, ino)

structure Inv (s : DirRace) : Prop where
  dirIno : ∀ t ∈ s.tables, t.dirIno = s.ino
  present : s.removed = false → ∃ t, s.Present t
  gone : s.removed = true → s.Gone

/-- The directory has not been deleted before. -/
structure Undeleted (d : Directory) : Prop where
  consistent : d.Consistent
  open_ : (d.journal.getEntry d.dirIno).status ≠ .S_DELETED
  log : ∀ tx ∈ d.journal.log, tx.sIno = d.dirIno → tx.status ≠ .S_DELETED

section Steps

variable {s s' : DirRace}

theorem inv_start {d : Directory} (hd : Undeleted d) : (start d).Inv where
  dirIno := by
    intro t ht
    rw [List.mem_singleton.mp ht]
    rfl
  present := by
    intro _
    refine ⟨d.table, rfl, rfl, ?_, ⟨hd.consistent.alive, hd.consistent.dead⟩,
      ?_, hd.open_, hd.log⟩
    · rintro handler id ⟨⟩
    · rintro name ⟨⟩
  gone := by rintro ⟨⟩

/-- What is reported after a body. -/
theorem mem_report
    {live : List Name} {body : Body} {reply : Reply} {t t' : DentryTable}
    {name : Name} (h : name ∈ report live body reply t t') :
    (name ∈ live ∨ reply = .ret 0 ∧ body.inserts? = some name) ∧
      ((t.childIno name).isSome → (t'.childIno name).isSome) := by
  rw [report, List.mem_filter] at h
  obtain ⟨hmem, hkept⟩ := h
  constructor
  · rcases List.mem_append.mp hmem with hmem | hmem
    · split at hmem
      · rename_i hreply
        exact .inr ⟨hreply, Option.mem_toList.mp hmem⟩
      · cases hmem
    · exact .inl hmem
  · intro hsome
    cases h' : t'.childIno name with
    | some x => rfl
    | none => simp [hsome, h'] at hkept

theorem report_nil
    {body : Body} (h : body.inserts? = none) (reply : Reply)
    (t t' : DentryTable) : report [] body reply t t' = [] := by
  rw [report, h]
  split <;> rfl

theorem Inv.fetch
    (hi : s.Inv) {handler : Nat} {loaded : Option DentryTable}
    (hstep : step s (.fetch handler loaded) = some s') : s'.Inv := by
  simp only [step] at hstep
  split at hstep
  · rename_i id hcur
    cases hstep
    refine ⟨hi.dirIno, ?_, ?_⟩
    · intro hrem
      obtain ⟨t, ht⟩ := hi.present hrem
      refine ⟨t, ht.tables, ht.current, ?_, ht.consistent, ht.live, ht.open_,
        ht.log⟩
      intro handler' id' hheld
      obtain rfl : id = 0 := by
        have := hcur.symm.trans ht.current
        simpa using this
      by_cases hne : handler' = handler
      · subst hne
        simp only [Function.update_self, Option.some.injEq] at hheld
        exact hheld.symm
      · simp only [Function.update_of_ne hne] at hheld
        exact ht.held handler' id' hheld
    · intro hrem
      exact ⟨(hi.gone hrem).live, (hi.gone hrem).word, (hi.gone hrem).log⟩
  · cases hstep
    exact hi
  · rename_i t hcur
    split at hstep
    · rename_i hdir
      cases hstep
      refine ⟨?_, ?_, ?_⟩
      · intro t' ht'
        rcases List.mem_append.mp ht' with ht' | ht'
        · exact hi.dirIno t' ht'
        · rw [List.mem_singleton.mp ht']
          exact hdir
      · intro hrem
        obtain ⟨t', ht'⟩ := hi.present hrem
        rw [ht'.current] at hcur
        cases hcur
      · intro hrem
        exact ⟨(hi.gone hrem).live, (hi.gone hrem).word, (hi.gone hrem).log⟩
    · cases hstep

theorem ran_dirIno
    (hi : s.Inv) {handler id : Nat} {t : DentryTable} {body : Body}
    (ht : s.tables[id]? = some t)
    (hdir : (body.run (s.view t)).2.dirIno = t.dirIno) :
    ∀ t' ∈ (s.ran handler id t body).tables, t'.dirIno = s.ino := by
  intro t' ht'
  have hmem : t ∈ s.tables := List.mem_of_getElem? ht
  rcases List.mem_or_eq_of_mem_set ht' with ht' | rfl
  · exact hi.dirIno t' ht'
  · exact hdir.trans (hi.dirIno t hmem)

/-- While the directory exists, a body other than that of `rmdir_top` keeps the
table and the journal in agreement. -/
theorem Present.ran
    {t : DentryTable} (hp : s.Present t)
    {handler : Nat} {body : Body} (htop : body.isTop = false) :
    (s.ran handler 0 t body).Present (body.run (s.view t)).2.table := by
  obtain ⟨name, h⟩ := touches_run htop (s.view t)
  have hc := h.consistent hp.consistent
  refine ⟨?_, ?_, ?_, ⟨hc.alive, hc.dead⟩, ?_, ?_, ?_⟩
  · simp [DirRace.ran, hp.tables]
  · simp [DirRace.ran, htop, hp.current]
  · intro handler' id hheld
    by_cases hne : handler' = handler
    · subst hne
      simp [DirRace.ran] at hheld
    · simp only [DirRace.ran, Function.update_of_ne hne] at hheld
      exact hp.held handler' id hheld
  · intro name' hname'
    obtain ⟨hmem | ⟨hreply, hins⟩, hkept⟩ := mem_report hname'
    · exact hkept (hp.live name' hmem)
    · exact inserts_isSome hins hreply
  · exact fun hdel => hp.open_ (h.deleted s.ino hdel)
  · intro tx htx
    exact hp.log tx (by rwa [← show (body.run (s.view t)).2.journal.log =
      s.journal.log from h.log])

/-- `rmdir_top` refuses, or finds the table empty. -/
theorem Present.ran_top
    {t : DentryTable} (hp : s.Present t) (hdir : t.dirIno = s.ino)
    {handler : Nat} {body : Body} (htop : body.isTop = true) :
    (s.ran handler 0 t body).removed = s.removed ∧
        (s.ran handler 0 t body).Present t ∨
      (s.ran handler 0 t body).removed = true ∧ (s.ran handler 0 t body).Gone := by
  obtain ⟨hrun, hins⟩ := run_of_isTop htop (s.view t)
  rcases removeSelf_cases (s.view t) with hself | ⟨hempty, hself⟩
  · refine .inl ?_
    have hret : (body.run (s.view t)).1 ≠ .ret 0 := by
      rw [hrun, hself]
      intro h
      have h : Reply.ret (-ENOTEMPTY) = .ret 0 := h
      exact absurd h (by decide)
    have hsame : (body.run (s.view t)).2 = s.view t := by
      rw [hrun, hself]
    have htable : (body.run (s.view t)).2.table = t := by
      rw [hsame]
      rfl
    have hjournal : (s.ran handler 0 t body).journal = s.journal := by
      simp only [DirRace.ran, hsame]
      rfl
    refine ⟨by simp [DirRace.ran, hret], ?_, ?_, ?_, ?_, ?_, ?_, ?_⟩
    · simp [DirRace.ran, hp.tables, htable]
    · simp [DirRace.ran, hret, hp.current]
    · intro handler' id hheld
      by_cases hne : handler' = handler
      · subst hne
        simp [DirRace.ran] at hheld
      · simp only [DirRace.ran, Function.update_of_ne hne] at hheld
        exact hp.held handler' id hheld
    · have hview : (s.ran handler 0 t body).view t = s.view t := by
        rw [view, hjournal]
        rfl
      rw [hview]
      exact hp.consistent
    · intro name hname
      obtain ⟨hmem | ⟨hreply, -⟩, -⟩ := mem_report hname
      · exact hp.live name hmem
      · exact absurd hreply hret
    · rw [hjournal]
      exact hp.open_
    · rw [hjournal]
      exact hp.log
  · refine .inr ?_
    have hret : (body.run (s.view t)).1 = .ret 0 := by
      rw [hrun, hself]
    have hnext : (body.run (s.view t)).2 =
        (s.view t).called (s.view t).dirIno .rmself := by
      rw [hrun, hself]
    refine ⟨by simp [DirRace.ran, htop, hret], ?_, ?_, ?_⟩
    · have hlive : s.live = [] := by
        refine List.eq_nil_iff_forall_not_mem.mpr ?_
        intro name hname
        have := hp.live name hname
        rw [show t.childIno name = none from hempty name] at this
        cases this
      simp only [DirRace.ran, hlive]
      exact report_nil hins _ _ _
    · intro name ino hword
      have hword' := (hp.consistent.called_keeps .rmself (s.view t).dirIno).alive
        name ino
      rw [← hnext] at hword'
      have hdir' : (body.run (s.view t)).2.dirIno = s.ino := by
        rw [hnext]
        exact hdir
      have hsome := hword' (by rw [Directory.word, hdir']; exact hword)
      rw [hnext] at hsome
      rw [show ((s.view t).called (s.view t).dirIno .rmself).table.childIno name =
        none from hempty name] at hsome
      cases hsome
    · simp only [DirRace.ran, hnext]
      intro tx htx hown hdel
      exact absurd hdel (hp.log tx htx hown)

/-- After the removal, bodies that insert nothing leave it at that. -/
theorem Gone.ran
    (hg : s.Gone) {t : DentryTable} (hdir : t.dirIno = s.ino)
    {handler id : Nat} {body : Body} (hins : body.inserts? = none) :
    (s.ran handler id t body).Gone := by
  have h := shrinks_run hins (s.view t)
  refine ⟨?_, ?_, ?_⟩
  · simp only [DirRace.ran, hg.live]
    exact report_nil hins _ _ _
  · intro name ino hword
    refine hg.word name ino ?_
    have hword' := h.word name ino
    rw [Directory.word, Directory.word, h.dirIno,
      show (s.view t).dirIno = s.ino from hdir] at hword'
    exact hword' hword
  · simp only [DirRace.ran, h.log]
    exact hg.log

theorem Inv.run
    (hi : s.Inv) {handler : Nat} {body : Body}
    (hok : Timely s (.run handler body))
    (hstep : step s (.run handler body) = some s') : s'.Inv := by
  obtain ⟨id, hheld, hstep⟩ := Option.bind_eq_some_iff.mp hstep
  obtain ⟨t, ht, rfl⟩ := Option.map_eq_some_iff.mp hstep
  have hdir := hi.dirIno t (List.mem_of_getElem? ht)
  have hrun : (body.run (s.view t)).2.dirIno = t.dirIno := by
    cases htop : body.isTop with
    | false =>
        obtain ⟨name, h⟩ := touches_run htop (s.view t)
        exact h.dirIno
    | true => exact (shrinks_run (run_of_isTop htop (s.view t)).2 (s.view t)).dirIno
  refine ⟨ran_dirIno hi ht hrun, ?_, ?_⟩
  · intro hrem
    have hbefore : s.removed = false := by
      simp only [ran, Bool.or_eq_false_iff] at hrem
      exact hrem.1
    obtain ⟨t', hp⟩ := hi.present hbefore
    obtain rfl := hp.held handler id hheld
    obtain rfl : t' = t := by simpa [hp.tables] using ht
    cases htop : body.isTop with
    | false => exact ⟨_, hp.ran htop⟩
    | true =>
        rcases @Present.ran_top _ _ hp hdir handler _ htop with ⟨-, h⟩ | ⟨h, -⟩
        · exact ⟨t', h⟩
        · rw [hrem] at h
          cases h
  · intro hrem
    cases hbefore : s.removed with
    | true =>
        refine (hi.gone hbefore).ran hdir ?_
        by_contra hins
        have := hok hins
        rw [hbefore] at this
        cases this
    | false =>
        obtain ⟨t', hp⟩ := hi.present hbefore
        obtain rfl := hp.held handler id hheld
        obtain rfl : t' = t := by simpa [hp.tables] using ht
        cases htop : body.isTop with
        | false =>
            simp [ran, hbefore, htop] at hrem
        | true =>
            rcases @Present.ran_top _ _ hp hdir handler _ htop with
              ⟨h, -⟩ | ⟨-, h⟩
            · rw [hrem, hbefore] at h
              cases h
            · exact h

/-- The transactions that a commit adds to the log. -/
theorem mem_commitAll_log
    {j : Journal} {ino : Uuid} {tx : Transaction}
    (h : tx ∈ j.commitAll.log) (hown : tx.sIno = ino) :
    tx ∈ j.log ∨ tx.status = (j.getEntry ino).status ∧
      tx.dentries = (j.getEntry ino).dentries := by
  rcases List.mem_append.mp h with h | h
  · exact .inl h
  · obtain ⟨⟨ino', tx'⟩, he, rfl⟩ := List.mem_map.mp h
    have hlookup : j.map.lookup ino' = some tx' := AList.mem_lookup_iff.mpr he
    obtain rfl : ino' = ino := (j.owner ino' tx' hlookup).1.symm.trans hown
    refine .inr ?_
    rw [Journal.getEntry, hlookup]
    exact ⟨rfl, rfl⟩

theorem Inv.commit
    (hi : s.Inv) (hstep : step s .commit = some s') : s'.Inv := by
  cases hstep
  refine ⟨hi.dirIno, ?_, ?_⟩
  · intro hrem
    obtain ⟨t, hp⟩ := hi.present hrem
    have hc := commitAll_consistent (s.view t)
    have hopen : SelfStatus.S_UNCHANGED ≠ .S_DELETED := by decide
    refine ⟨t, hp.tables, hp.current, hp.held, ⟨hc.alive, hc.dead⟩, hp.live,
      hopen, ?_⟩
    intro tx htx hown
    rcases mem_commitAll_log htx hown with htx | ⟨hstatus, -⟩
    · exact hp.log tx htx hown
    · rw [hstatus]
      exact hp.open_
  · intro hrem
    have hg := hi.gone hrem
    refine ⟨hg.live, by rintro name ino ⟨⟩, ?_⟩
    intro tx htx hown hdel name ino
    rcases mem_commitAll_log htx hown with htx | ⟨-, hdentries⟩
    · exact hg.log tx htx hown hdel name ino
    · rw [hdentries]
      exact hg.word name ino

theorem Inv.rmdirDown
    (hi : s.Inv) (hstep : step s .rmdirDown = some s') : s'.Inv := by
  simp only [step] at hstep
  split at hstep
  · rename_i hrem
    cases hstep
    refine ⟨hi.dirIno, ?_, fun _ => ?_⟩
    · intro hrem'
      rw [show s.removed = true from hrem] at hrem'
      cases hrem'
    · exact ⟨(hi.gone hrem).live, (hi.gone hrem).word, (hi.gone hrem).log⟩
  · cases hstep

theorem inv_step : step.InvariantUnder Timely Inv := by
  intro s a s' hi hok hstep
  cases a with
  | fetch handler loaded => exact hi.fetch hstep
  | run handler body => exact hi.run hok hstep
  | rmdirDown => exact hi.rmdirDown hstep
  | commit => exact hi.commit hstep

theorem Inv.excluded (hi : s.Inv) : s.Excluded := by
  constructor
  · exact fun hrem => (hi.gone hrem).live
  · rintro tx ⟨htx, hown⟩ hdel name ino
    cases hrem : s.removed with
    | false =>
        obtain ⟨t, hp⟩ := hi.present hrem
        rcases htx with htx | htx
        · exact absurd hdel (hp.log tx htx hown)
        · have hopen := hp.open_
          rw [Journal.getEntry, htx] at hopen
          exact absurd hdel hopen
    | true =>
        have hg := hi.gone hrem
        rcases htx with htx | htx
        · exact hg.log tx htx hown hdel name ino
        · have hword := hg.word name ino
          rw [Journal.word, Journal.getEntry, htx] at hword
          exact hword

end Steps

/-- **Creation and removal of the parent.** In every run in which no body
inserts an entry after the removal, a removed directory has no entry that was
reported and not removed, and no transaction adds one and deletes the directory. -/
theorem creation_excludes_rmdir
    {d : Directory} (hd : Undeleted d) {as : List Act} {s : DirRace}
    (hok : step.Steps Timely (start d) as)
    (hrun : step.runFrom (start d) as = some s) : s.Excluded :=
  (inv_step.runFrom (inv_start hd) hok hrun : s.Inv).excluded

section Examples

theorem emptyRoot_undeleted : Undeleted emptyRoot where
  consistent := emptyRoot_sound.consistent
  open_ := by decide
  log := by rintro tx ⟨⟩

/-- A file is created and removed again, and then the directory is removed. -/
def createUnlinkRmdir : List Act :=
  [.fetch 0 none, .fetch 1 none, .run 0 (.create .localCreate (requestFor inoA)),
    .fetch 0 none, .run 0 (.localUnlink [97] ⟨1700000002, 0⟩),
    .run 1 .localRmdirTop, .rmdirDown, .commit]

theorem creation_excludes_rmdir_unlink :
    ∃ s, step.runFrom (start emptyRoot) createUnlinkRmdir = some s ∧
      s.removed = true ∧ s.Excluded := by
  have hok : step.Steps Timely (start emptyRoot) createUnlinkRmdir :=
    .cons trivial rfl (.cons trivial rfl (.cons (fun _ => rfl) rfl
      (.cons trivial rfl (.cons (fun h => absurd rfl h) rfl
        (.cons (fun h => absurd rfl h) rfl (.cons trivial rfl
          (.cons trivial rfl trivial)))))))
  exact ⟨_, rfl, rfl, creation_excludes_rmdir emptyRoot_undeleted hok rfl⟩

/-- The handler 0 has fetched the table before the directory is removed. -/
def rmdirThenCreate : List Act :=
  [.fetch 0 none, .fetch 1 none, .run 1 .localRmdirTop,
    .run 0 (.create .rpcCreate (requestFor inoA)), .rmdirDown]

theorem creation_after_rmdir :
    ∃ s, step.runFrom (start emptyRoot) rmdirThenCreate = some s ∧
      s.removed = true ∧ s.live = [[97]] ∧ ¬ s.Excluded := by
  refine ⟨_, rfl, rfl, rfl, ?_⟩
  intro h
  cases h.live rfl

end Examples

end DirRace

end Nmfs
