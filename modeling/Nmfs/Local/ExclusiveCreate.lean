import Nmfs.Lib.Transitions
import Nmfs.Local.Entries

/-!
# Exclusive creation

Six entry points insert a name into a directory.  The two for symbolic links
look for the name first and answer `-EEXIST`.  The four for files and
directories ignore the result of `create_child_inode`, so that a second request
for the same name never gets this answer: it succeeds, and the journal then has
another inode than the table, or the transaction throws.

Requests are taken in any order, for any names, with commits and with removals
of other names in between.  Creation is exclusive exactly if, apart from the
one that finds the name absent, only symbolic links are requested.
-/

namespace Nmfs

namespace Directory

open DentryTable

/-- The entry points that insert a name. -/
inductive Kind where
  | localMkdir
  | rpcMkdir
  | localCreate
  | rpcCreate
  | localSymlink
  | rpcSymlink
deriving DecidableEq

namespace Kind

def isSymlink : Kind → Bool
  | localSymlink | rpcSymlink => true
  | _ => false

def handle : Kind → Directory → Request → Reply × Directory
  | localMkdir => Directory.localMkdir
  | rpcMkdir => Directory.rpcMkdir
  | localCreate => Directory.localCreate
  | rpcCreate => Directory.rpcCreate
  | localSymlink => Directory.localSymlink
  | rpcSymlink => Directory.rpcSymlink

end Kind

/-- What happens to a directory at its leader. -/
inductive Act where
  | create (kind : Kind) (r : Request)
  | unlink (name : Name) (ts : Timespec)
  | rmdirDown (targetIno : Uuid) (name : Name) (ts : Timespec)
  | commit

namespace Act

def perform (d : Directory) : Act → Directory
  | create kind r => (kind.handle d r).2
  | unlink name ts => (d.removeReg name ts).2
  | rmdirDown targetIno name ts => (d.removeDir name targetIno ts).2
  | commit => d.commitAll

/-- The name that is removed. -/
def removed? : Act → Option Name
  | unlink name _ | rmdirDown _ name _ => some name
  | create _ _ | commit => none

/-- The request for a name. -/
def request? (name : Name) : Act → Option (Kind × Request)
  | create kind r => if r.name = name then some (kind, r) else none
  | unlink _ _ | rmdirDown _ _ _ | commit => none

theorem request?_eq_some
    {a : Act} {name : Name} {kind : Kind} {r : Request}
    (h : a.request? name = some (kind, r)) :
    a = .create kind r ∧ r.name = name := by
  cases a with
  | create kind' r' =>
      simp only [request?] at h
      split at h
      · rename_i hname
        cases h
        exact ⟨rfl, hname⟩
      · cases h
  | unlink _ _ => cases h
  | rmdirDown _ _ _ => cases h
  | commit => cases h

end Act

def step : Stepper Directory Act := fun d a => some (a.perform d)

/-- The state after all actions. -/
def after (d : Directory) (as : List Act) : Directory :=
  as.foldl Act.perform d

/-- A request, its answer, and the states around it. -/
structure Answer where
  kind : Kind
  request : Request
  reply : Reply
  before : Directory
  after : Directory

/-- The requests for a name, in the order in which they arrive. -/
def answers (name : Name) : Directory → List Act → List Answer
  | _, [] => []
  | d, a :: as =>
      match a.request? name with
      | some (kind, r) =>
          ⟨kind, r, (kind.handle d r).1, d, (kind.handle d r).2⟩ ::
            answers name (a.perform d) as
      | none => answers name (a.perform d) as

/-- All requests that find the name taken, if creation is exclusive. -/
def losers {α : Type} (name : Name) (d : Directory) (l : List α) : List α :=
  if (d.table.childIno name).isSome then l else l.tail

/-- The table and the journal agree on the inode that a name leads to. -/
structure Holds (d : Directory) (name : Name) (ino : Uuid) : Prop where
  child : d.table.childIno name = some ino
  inode : ∃ i, d.table.childInodes.lookup name = some i ∧ i.core.ino = ino
  entry : d.journal.entry d.dirIno name = some (true, ino)

/-- Exclusive creation of a name in a run. -/
structure Exclusive (name : Name) (d : Directory) (as : List Act) : Prop where
  winner : d.table.childIno name = none → ∀ a rest, answers name d as = a :: rest →
    a.reply = .ret 0 ∧ (after d as).Holds name a.request.newIno
  kept : (d.table.childIno name).isSome → SameAt name d (after d as)
  refused : ∀ a ∈ losers name d (answers name d as),
    a.reply = .ret (-EEXIST) ∧ a.after = a.before

/-- The inode number that the environment chooses is new. -/
def Fresh (d : Directory) : Act → Prop
  | .create _ r => r.newIno ≠ .nil ∧
      ((d.journal.getEntry d.dirIno).fInodes.lookup r.newIno).join = none
  | _ => True

/-- The state of the directory between two requests. -/
structure Sound (d : Directory) : Prop where
  consistent : d.Consistent
  noNil : ∀ name, d.table.childIno name ≠ some .nil

section Outcomes

variable {d : Directory} {name : Name}

theorem Holds.of_sameAt
    {d' : Directory} {ino : Uuid} (h : d.Holds name ino)
    (hs : SameAt name d d') : d'.Holds name ino where
  child := hs.child.trans h.child
  inode := by
    rw [hs.inode]
    exact h.inode
  entry := by
    rw [hs.dirIno, hs.entry]
    exact h.entry

theorem journalCall_fst
    {ino : Uuid} {op : TxOp} {next : Directory → Reply × Directory}
    {P : Reply → Prop} (hthrows : ∀ e, P (.throws e))
    (hnext : ∀ d, P (next d).1) : P (d.journalCall ino op next).1 := by
  unfold journalCall
  split
  · exact hthrows _
  · exact hnext _

/-- The entry points for files and directories never refuse. -/
theorem handle_not_refused
    {kind : Kind} (h : kind.isSymlink = false) (d : Directory) (r : Request) :
    (kind.handle d r).1 ≠ .ret (-EEXIST) := by
  have hret : Reply.ret 0 ≠ .ret (-EEXIST) := by decide
  have hthrows : ∀ e, Reply.throws e ≠ .ret (-EEXIST) := by
    intro e he
    cases he
  cases kind with
  | localMkdir =>
      exact journalCall_fst (P := (· ≠ .ret (-EEXIST))) hthrows fun _ =>
        journalCall_fst (P := (· ≠ .ret (-EEXIST))) hthrows fun _ => hret
  | rpcMkdir =>
      exact journalCall_fst (P := (· ≠ .ret (-EEXIST))) hthrows fun _ => hret
  | localCreate =>
      exact journalCall_fst (P := (· ≠ .ret (-EEXIST))) hthrows fun _ => hret
  | rpcCreate =>
      exact journalCall_fst (P := (· ≠ .ret (-EEXIST))) hthrows fun _ => hret
  | localSymlink => cases h
  | rpcSymlink => cases h

/-- The entry of an absent name is set in the table and in the journal. -/
theorem holds_of_absent
    (hd : d.Consistent) (habs : d.table.childIno name = none) {i : Inode}
    {t : DentryTable} (ht : SameNames (d.table.createChildInode name i).2 t)
    {op : TxOp} (h : op.Sets name true i.core.ino) :
    ({ d with table := t }.called t.dirIno op).Holds name i.core.ino := by
  have hdir : t.dirIno = d.dirIno := by
    rw [ht.dirIno, createChildInode_dirIno]
    rfl
  rw [createChildInode_of_absent _ _ _ habs] at ht
  refine ⟨?_, ⟨i, ?_, rfl⟩, ?_⟩
  · exact (ht.child name).trans (d.table.putChild_childIno name i)
  · exact (ht.inode name).trans (d.table.putChild_childInodes name i)
  · rcases @Journal.call_sets d.journal t.dirIno _ _ _ _ h with
      ⟨-, ⟨x, hx⟩, -⟩ | ⟨-, hword⟩
    · rw [hdir] at hx
      have := hd.alive name x hx
      rw [habs] at this
      cases this
    · exact Journal.entry_of_word hword

/-- The transaction has not added an absent name. -/
theorem word_of_absent
    (hd : d.Consistent) (habs : d.table.childIno name = none) {t : DentryTable}
    (hdir : t.dirIno = d.dirIno) (x : Uuid) :
    d.journal.word t.dirIno name ≠ some (true, x) := by
  intro hx
  rw [hdir] at hx
  have := hd.alive name x hx
  rw [habs] at this
  cases this

theorem insertDir_of_absent
    (hd : d.Consistent) (habs : d.table.childIno name = none) (newI : Inode)
    (ts : Timespec) (next : Directory → Reply × Directory) :
    ∃ d', d.insertDir name newI ts next = next d' ∧
      d'.Holds name newI.core.ino :=
  ⟨_, journalCall_of_done (Journal.call_mkdir_done _
      (word_of_absent hd habs (createChildInode_dirIno ..))),
    holds_of_absent hd habs (.touch _ ts) (.mkdir _ name _)⟩

theorem insertReg_of_absent
    (hd : d.Consistent) (habs : d.table.childIno name = none) (i : Inode)
    (ts : Timespec) (hnew : ((d.journal.getEntry d.dirIno).fInodes.lookup
      i.core.ino).join = none) :
    ∃ d', d.insertReg name i ts = (.ret 0, d') ∧ d'.Holds name i.core.ino := by
  have hdir : ((d.table.createChildInode name i).2.touch ts).dirIno =
      d.dirIno := createChildInode_dirIno ..
  refine ⟨_, journalCall_of_done (Journal.call_mkreg_done _
    (word_of_absent hd habs hdir) ?_),
    holds_of_absent hd habs (.touch _ ts) (.mkreg _ name i)⟩
  rw [hdir]
  exact hnew

theorem insertSymlink_of_absent
    (hd : d.Consistent) (hname : name ≠ rootName)
    (habs : d.table.childIno name = none) (i : Inode)
    (hnew : ((d.journal.getEntry d.dirIno).fInodes.lookup
      i.core.ino).join = none) :
    ∃ d', d.insertSymlink name i = (.ret 0, d') ∧ d'.Holds name i.core.ino := by
  have hdir : (d.table.createChildInode name i).2.dirIno = d.dirIno :=
    createChildInode_dirIno ..
  have hcheck : d.table.checkChildInode name = .nil := by
    rw [checkChildInode, if_neg hname, Dentry.getChildIno]
    unfold childIno at habs
    rw [habs]
    rfl
  unfold insertSymlink
  rw [if_neg (by simpa using hcheck)]
  refine ⟨_, journalCall_of_done (Journal.call_mkreg_done _
    (word_of_absent hd habs hdir) ?_),
    holds_of_absent hd habs (.refl _) (.mkreg _ name i)⟩
  rw [hdir]
  exact hnew

/-- The first request succeeds, whatever its kind. -/
theorem handle_of_absent
    (hd : d.Sound) (kind : Kind) {r : Request} (hname : r.name ≠ rootName)
    (habs : d.table.childIno r.name = none) (hfresh : Fresh d (.create kind r)) :
    ∃ d', kind.handle d r = (.ret 0, d') ∧ d'.Holds r.name r.newIno := by
  have hc := hd.consistent
  obtain ⟨-, hnew⟩ := hfresh
  cases kind with
  | localMkdir =>
      obtain ⟨d', heq, hholds⟩ := insertDir_of_absent hc habs
        (d.newDirInode d.clientUid d.clientGid r) r.ts fun d' =>
          d'.journalCall r.newIno
            (.mkself (d.newDirInode d.clientUid d.clientGid r)) fun d => (.ret 0, d)
      -- the transaction of the new directory does not matter here
      have hself := TxOp.Keeps.mkself (d.newDirInode d.clientUid d.clientGid r)
      exact ⟨_, heq.trans (journalCall_of_done (Journal.call_keeps_done hself)),
        hholds.of_sameAt (called_keeps_sameAt d' hself _ _)⟩
  | rpcMkdir =>
      exact insertDir_of_absent hc habs (d.newDirInode r.uid r.gid r) r.ts
        fun d => (.ret 0, d)
  | localCreate => exact insertReg_of_absent hc habs (d.newRegInode r) r.ts hnew
  | rpcCreate => exact insertReg_of_absent hc habs (d.newRegInode r) r.ts hnew
  | localSymlink =>
      exact insertSymlink_of_absent hc hname habs (d.newSymlinkInode r) hnew
  | rpcSymlink =>
      exact insertSymlink_of_absent hc hname habs (d.newSymlinkInode r) hnew

/-- A symbolic link is refused if the name exists. -/
theorem handle_of_present
    (hd : d.Sound) {kind : Kind} (hkind : kind.isSymlink = true) (r : Request)
    (hpres : (d.table.childIno r.name).isSome) :
    kind.handle d r = (.ret (-EEXIST), d) := by
  have hcheck : d.table.checkChildInode r.name ≠ .nil := by
    unfold checkChildInode
    split
    · decide
    · obtain ⟨ino, hino⟩ := Option.isSome_iff_exists.mp hpres
      intro hnil
      refine hd.noNil r.name ?_
      unfold childIno at hino ⊢
      rw [Dentry.getChildIno, hino] at hnil
      rw [hino, ← hnil]
      rfl
  cases kind with
  | localSymlink => exact if_pos hcheck
  | rpcSymlink => exact if_pos hcheck
  | localMkdir => cases hkind
  | rpcMkdir => cases hkind
  | localCreate => cases hkind
  | rpcCreate => cases hkind

end Outcomes

section Steps

variable {d : Directory} {name : Name}

theorem touches_handle (kind : Kind) (d : Directory) (r : Request) :
    Touches r.name d (kind.handle d r).2 := by
  cases kind with
  | localMkdir => exact touches_localMkdir d r
  | rpcMkdir => exact touches_rpcMkdir d r
  | localCreate => exact touches_insertReg d r.name _ r.ts
  | rpcCreate => exact touches_insertReg d r.name _ r.ts
  | localSymlink => exact touches_insertSymlink d r.name _
  | rpcSymlink => exact touches_insertSymlink d r.name _

/-- An action that is not about a name. -/
theorem perform_sameAt
    {a : Act} (hreq : a.request? name = none) (hrem : a.removed? ≠ some name) :
    SameAt name d (a.perform d) := by
  cases a with
  | create kind r =>
      have hne : name ≠ r.name := by
        rintro rfl
        simp [Act.request?] at hreq
      exact (touches_handle kind d r).other name hne
  | unlink name' ts =>
      have hne : name ≠ name' := by
        rintro rfl
        exact hrem rfl
      exact (touches_removeReg d name' ts).other name hne
  | rmdirDown targetIno name' ts =>
      have hne : name ≠ name' := by
        rintro rfl
        exact hrem rfl
      exact (touches_removeDir d name' targetIno ts).other name hne
  | commit => exact commitAll_sameAt d name

theorem perform_consistent (hd : d.Consistent) (a : Act) :
    (a.perform d).Consistent := by
  cases a with
  | create kind r => exact (touches_handle kind d r).consistent hd
  | unlink name ts => exact (touches_removeReg d name ts).consistent hd
  | rmdirDown targetIno name ts =>
      exact (touches_removeDir d name targetIno ts).consistent hd
  | commit => exact commitAll_consistent d

/-- The inode numbers in the table. -/
def InosFrom (d : Directory) (ino : Uuid) (d' : Directory) : Prop :=
  ∀ name x, d'.table.childIno name = some x →
    d.table.childIno name = some x ∨ x = ino

theorem inosFrom_create
    {t : DentryTable} {i : Inode} {op : TxOp}
    (ht : SameNames (d.table.createChildInode name i).2 t) :
    InosFrom d i.core.ino ({ d with table := t }.called t.dirIno op) := by
  intro name' x hx
  rcases eq_or_ne name' name with rfl | hne
  · have hx : t.childIno name' = some x := hx
    rw [ht.child] at hx
    cases habs : d.table.childIno name' with
    | none =>
        rw [createChildInode_of_absent _ _ _ habs, putChild_childIno] at hx
        exact .inr (Option.some.inj hx).symm
    | some y =>
        rw [createChildInode_of_present _ _ _ (by simp [habs]), habs] at hx
        exact .inl hx
  · refine .inl (.trans ?_ hx)
    exact ((ht.child name').trans (createChildInode_ne hne).1).symm

theorem inosFrom_handle (kind : Kind) (d : Directory) (r : Request) :
    InosFrom d r.newIno (kind.handle d r).2 := by
  have hsame : ∀ d', InosFrom d r.newIno d' → InosFrom d r.newIno d' :=
    fun _ h => h
  cases kind with
  | localMkdir =>
      exact journalCall_snd (P := InosFrom d r.newIno)
        (inosFrom_create (.touch _ r.ts)) fun d' h =>
          journalCall_snd (P := InosFrom d r.newIno) h hsame
  | rpcMkdir =>
      exact journalCall_snd (P := InosFrom d r.newIno)
        (inosFrom_create (.touch _ r.ts)) hsame
  | localCreate =>
      exact journalCall_snd (P := InosFrom d r.newIno)
        (inosFrom_create (.touch _ r.ts)) hsame
  | rpcCreate =>
      exact journalCall_snd (P := InosFrom d r.newIno)
        (inosFrom_create (.touch _ r.ts)) hsame
  | localSymlink =>
      simp only [Kind.handle, localSymlink, insertSymlink]
      split
      · exact fun _ _ h => .inl h
      · exact journalCall_snd (P := InosFrom d r.newIno)
          (inosFrom_create (.refl _)) hsame
  | rpcSymlink =>
      simp only [Kind.handle, rpcSymlink, insertSymlink]
      split
      · exact fun _ _ h => .inl h
      · exact journalCall_snd (P := InosFrom d r.newIno)
          (inosFrom_create (.refl _)) hsame

/-- A removal brings no inode number into the table. -/
theorem deleteChildInode_childIno
    {t t' : DentryTable} (ht : SameNames (t.deleteChildInode name).2 t')
    {name' : Name} {x : Uuid} (h : t'.childIno name' = some x) :
    t.childIno name' = some x := by
  rw [ht.child] at h
  rcases eq_or_ne name' name with rfl | hne
  · rw [deleteChildInode_isNone] at h
    cases h
  · rwa [(deleteChildInode_ne hne).1] at h

theorem removeReg_childIno
    (d : Directory) (name : Name) (ts : Timespec) {name' : Name} {x : Uuid}
    (h : (d.removeReg name ts).2.table.childIno name' = some x) :
    d.table.childIno name' = some x := by
  revert h
  unfold removeReg
  split
  · exact id
  · dsimp only
    split
    · exact journalCall_snd (P := fun d' => d'.table.childIno name' = some x →
        d.table.childIno name' = some x)
        (deleteChildInode_childIno (.touch _ ts)) fun _ h => h
    · exact journalCall_snd (P := fun d' => d'.table.childIno name' = some x →
        d.table.childIno name' = some x) id fun _ h => h

theorem removeDir_childIno
    (d : Directory) (name : Name) (targetIno : Uuid) (ts : Timespec)
    {name' : Name} {x : Uuid}
    (h : (d.removeDir name targetIno ts).2.table.childIno name' = some x) :
    d.table.childIno name' = some x := by
  revert h
  exact journalCall_snd (P := fun d' => d'.table.childIno name' = some x →
    d.table.childIno name' = some x)
    (deleteChildInode_childIno (.touch _ ts)) fun _ h => h

theorem sound_step : step.InvariantUnder Fresh Sound := by
  rintro d a d' hd hfresh hstep
  cases hstep
  refine ⟨perform_consistent hd.consistent a, ?_⟩
  intro name hnil
  cases a with
  | create kind r =>
      rcases inosFrom_handle kind d r name .nil hnil with h | h
      · exact hd.noNil name h
      · exact hfresh.1 h.symm
  | unlink name' ts => exact hd.noNil name (removeReg_childIno d name' ts hnil)
  | rmdirDown targetIno name' ts =>
      exact hd.noNil name (removeDir_childIno d name' targetIno ts hnil)
  | commit => exact hd.noNil name hnil

end Steps

section Runs

variable {d : Directory} {name : Name} {as : List Act}

/-- The answers belong to the requests. -/
theorem answers_requests (name : Name) (d : Directory) (as : List Act) :
    (answers name d as).map (fun a => (a.kind, a.request)) =
      as.filterMap (Act.request? name) := by
  induction as generalizing d with
  | nil => rfl
  | cons a as ih =>
      cases h : a.request? name with
      | none =>
          rw [List.filterMap_cons_none h, ← ih (a.perform d)]
          simp only [answers, h]
      | some x =>
          rw [List.filterMap_cons_some h, ← ih (a.perform d)]
          simp only [answers, h, List.map_cons]

theorem answers_reply (name : Name) (d : Directory) (as : List Act) :
    ∀ a ∈ answers name d as, a.reply = (a.kind.handle a.before a.request).1 := by
  induction as generalizing d with
  | nil => simp [answers]
  | cons a as ih =>
      cases h : a.request? name with
      | none =>
          simp only [answers, h]
          exact ih (a.perform d)
      | some x =>
          simp only [answers, h, List.mem_cons]
          rintro b (rfl | hb)
          · rfl
          · exact ih (a.perform d) b hb

theorem losers_map
    {α β : Type} (f : α → β) (name : Name) (d : Directory) (l : List α) :
    losers name d (l.map f) = (losers name d l).map f := by
  unfold losers
  split
  · rfl
  · exact (List.map_tail).symm

/-- While the name exists, requests for symbolic links change nothing. -/
theorem refused_of_present
    (hd : d.Sound) (hpres : (d.table.childIno name).isSome)
    (hfresh : step.Steps Fresh d as)
    (hkeep : ∀ a ∈ as, a.removed? ≠ some name)
    (hlinks : ∀ x ∈ as.filterMap (Act.request? name), x.1.isSymlink = true) :
    (∀ a ∈ answers name d as, a.reply = .ret (-EEXIST) ∧ a.after = a.before) ∧
      SameAt name d (after d as) := by
  induction as generalizing d with
  | nil => exact ⟨by simp [answers], .refl d⟩
  | cons a as ih =>
      obtain ⟨ha, hrest⟩ := hfresh
      have hnext := hrest (a.perform d) rfl
      have hsound := sound_step d a _ hd ha rfl
      have hkeep' : ∀ a ∈ as, a.removed? ≠ some name :=
        fun b hb => hkeep b (List.mem_cons_of_mem _ hb)
      cases h : a.request? name with
      | none =>
          have hsame := perform_sameAt (d := d) h (hkeep a List.mem_cons_self)
          rw [List.filterMap_cons_none h] at hlinks
          obtain ⟨hans, hafter⟩ := ih hsound (by rw [hsame.child]; exact hpres)
            hnext hkeep' hlinks
          simp only [answers, h]
          exact ⟨hans, hsame.trans hafter⟩
      | some x =>
          obtain ⟨kind, r⟩ := x
          rw [List.filterMap_cons_some h] at hlinks
          have hkind := hlinks _ List.mem_cons_self
          obtain ⟨rfl, rfl⟩ := Act.request?_eq_some h
          have heq := handle_of_present hd hkind r hpres
          have hperform : Act.perform d (.create kind r) = d := by
            rw [Act.perform, heq]
          rw [hperform] at hnext
          obtain ⟨hans, hafter⟩ := ih hd hpres hnext hkeep'
            fun x hx => hlinks x (List.mem_cons_of_mem _ hx)
          have hafter' : after d (.create kind r :: as) = after d as := by
            rw [after, List.foldl_cons, hperform]
            rfl
          refine ⟨?_, hafter' ▸ hafter⟩
          simp only [answers, h, hperform, List.mem_cons]
          rintro b (rfl | hb)
          · rw [heq]
            exact ⟨rfl, rfl⟩
          · exact hans b hb

/-- The first request for an absent name wins, and the others are refused if
they are for symbolic links. -/
theorem exclusive_of_absent
    (hd : d.Sound) (hname : name ≠ rootName)
    (habs : d.table.childIno name = none) (hfresh : step.Steps Fresh d as)
    (hkeep : ∀ a ∈ as, a.removed? ≠ some name)
    (hlinks : ∀ x ∈ (as.filterMap (Act.request? name)).tail,
      x.1.isSymlink = true) :
    (∀ a rest, answers name d as = a :: rest → a.reply = .ret 0 ∧
        (after d as).Holds name a.request.newIno) ∧
      ∀ a ∈ (answers name d as).tail,
        a.reply = .ret (-EEXIST) ∧ a.after = a.before := by
  induction as generalizing d with
  | nil => exact ⟨by simp [answers], by simp [answers]⟩
  | cons a as ih =>
      obtain ⟨ha, hrest⟩ := hfresh
      have hnext := hrest (a.perform d) rfl
      have hsound := sound_step d a _ hd ha rfl
      have hkeep' : ∀ a ∈ as, a.removed? ≠ some name :=
        fun b hb => hkeep b (List.mem_cons_of_mem _ hb)
      cases h : a.request? name with
      | none =>
          have hsame := perform_sameAt (d := d) h (hkeep a List.mem_cons_self)
          rw [List.filterMap_cons_none h] at hlinks
          simp only [answers, h]
          exact ih hsound (hsame.child.trans habs) hnext hkeep' hlinks
      | some x =>
          obtain ⟨kind, r⟩ := x
          rw [List.filterMap_cons_some h] at hlinks
          obtain ⟨rfl, rfl⟩ := Act.request?_eq_some h
          obtain ⟨d', heq, hholds⟩ := handle_of_absent hd kind hname habs ha
          have hperform : Act.perform d (.create kind r) = d' := by
            rw [Act.perform, heq]
          rw [hperform] at hnext hsound
          obtain ⟨hans, hafter⟩ := refused_of_present hsound
            (by rw [hholds.child]; rfl) hnext hkeep' hlinks
          have hafter' : after d (.create kind r :: as) = after d' as := by
            rw [after, List.foldl_cons, hperform]
            rfl
          simp only [answers, h, hperform, List.tail_cons]
          refine ⟨?_, hans⟩
          rintro b rest hb
          obtain ⟨rfl, -⟩ := List.cons.inj hb
          rw [hafter', heq]
          exact ⟨rfl, hholds.of_sameAt hafter⟩

/-- **Exclusive creation.** In every run in which a name is not removed, its
creation is exclusive if and only if the requests that find it taken are all
for symbolic links: all of them if the name exists in the beginning, and all
but the first otherwise. -/
theorem exclusive_creation_iff
    (hd : d.Sound) (hname : name ≠ rootName) (hfresh : step.Steps Fresh d as)
    (hkeep : ∀ a ∈ as, a.removed? ≠ some name) :
    Exclusive name d as ↔ ∀ x ∈ losers name d (as.filterMap (Act.request? name)),
      x.1.isSymlink = true := by
  rw [← answers_requests name d as, losers_map]
  constructor
  · intro h x hx
    obtain ⟨a, ha, rfl⟩ := List.mem_map.mp hx
    have hmem : a ∈ answers name d as := by
      unfold losers at ha
      split at ha
      · exact ha
      · exact List.mem_of_mem_tail ha
    by_contra hkind
    refine handle_not_refused (Bool.not_eq_true _ ▸ hkind) a.before a.request ?_
    rw [← answers_reply name d as a hmem]
    exact (h.refused a ha).1
  · rw [← losers_map, answers_requests]
    unfold losers
    split
    · rename_i hpres
      intro hlinks
      obtain ⟨hans, hafter⟩ := refused_of_present hd hpres hfresh hkeep hlinks
      refine ⟨?_, fun _ => hafter, ?_⟩
      · intro habs
        rw [habs] at hpres
        cases hpres
      · unfold losers
        rw [if_pos hpres]
        exact hans
    · rename_i hpres
      have habs : d.table.childIno name = none := by simpa using hpres
      intro hlinks
      obtain ⟨hwinner, hans⟩ :=
        exclusive_of_absent hd hname habs hfresh hkeep hlinks
      refine ⟨fun _ => hwinner, fun h => absurd h hpres, ?_⟩
      unfold losers
      rw [if_neg hpres]
      exact hans

end Runs

section Examples

/-- The root directory, without children. -/
def emptyRoot : Directory where
  table := .new (.new .nil 0 0 (sIFDIR ||| 0o755) .root ⟨1700000000, 0⟩)
  journal := .new
  clientUid := 1000
  clientGid := 1000

/-- A request for the name `a`. -/
def requestFor (newIno : Uuid) : Request where
  name := [97]
  mode := 0o644
  uid := 1000
  gid := 1000
  src := [98]
  newIno := newIno
  born := ⟨1700000001, 0⟩
  ts := ⟨1700000001, 1⟩

def inoA : Uuid := ⟨List.replicate 16 7, Uuid.size_sevens⟩

def inoB : Uuid := ⟨List.replicate 16 8, by simp⟩

def inoC : Uuid := ⟨List.replicate 16 9, Uuid.size_nines⟩

theorem emptyRoot_sound : emptyRoot.Sound where
  consistent := by
    constructor
    · intro name ino h
      cases h
    · intro name ino h
      cases h
  noNil := by
    intro name h
    cases h

/-- A file is created, and then a symbolic link of the same name. -/
theorem exclusive_create_symlink :
    Exclusive [97] emptyRoot [.create .localCreate (requestFor inoA), .commit,
      .create .rpcSymlink (requestFor inoB)] := by
  refine (exclusive_creation_iff emptyRoot_sound (by decide) ?_ ?_).mpr ?_
  · refine Stepper.Steps.cons ⟨by decide, by decide⟩ rfl
      (Stepper.Steps.cons trivial rfl
        (Stepper.Steps.cons ⟨by decide, by decide⟩ rfl trivial))
  · decide
  · decide

/-- Two clients create the same file, with a commit in between. -/
def twoCreates : List Act :=
  [.create .localCreate (requestFor inoA), .commit,
    .create .rpcCreate (requestFor inoB)]

/-- Both succeed, and the journal has the inode of the second one. -/
theorem two_creates_succeed :
    ¬ Exclusive [97] emptyRoot twoCreates ∧
      (answers [97] emptyRoot twoCreates).map Answer.reply =
        [.ret 0, .ret 0] ∧
      (after emptyRoot twoCreates).table.childIno [97] = some inoA ∧
      (after emptyRoot twoCreates).journal.entry .root [97] =
        some (true, inoB) := by
  have hreplies : (answers [97] emptyRoot twoCreates).map Answer.reply =
      [.ret 0, .ret 0] := by
    decide
  refine ⟨?_, hreplies, by decide, by decide⟩
  intro h
  have hmem : Reply.ret 0 ∈ (losers [97] emptyRoot
      (answers [97] emptyRoot twoCreates)).map Answer.reply := by
    rw [← losers_map, hreplies]
    decide
  obtain ⟨a, ha, hreply⟩ := List.mem_map.mp hmem
  have hrefused := (h.refused a ha).1
  rw [hreply] at hrefused
  exact absurd hrefused (by decide)

end Examples

end Directory

end Nmfs
