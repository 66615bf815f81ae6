import Nmfs.Journal.Checkpointing
import Nmfs.Tree.WriteBehind

/-!
# What the next leader finds

A client that gets the lease of a directory makes its table from the pool: it
reads the INODE object of the directory, its DENTRY object, and the INODE objects
of all children.

Once the transactions of the former leader have been checkpointed in the order of
their commits, the new table has what the former one had (`handover`): the names
and inode numbers, the attributes of the directory and of the files in it, and
their link targets.  A child directory is found as its own journal has left it.
-/

namespace Nmfs

open Bytes

theorem Inode.Same.trans {i j k : Inode} (h : i.Same j) (h' : j.Same k) : i.Same k :=
  ⟨h.1.trans h'.1, h.2.trans h'.2⟩

namespace DentryTable

/-- The loop of `pull_child_metadata`. -/
def pullChildren (dirIno : Uuid) :
    List ((_ : Name) × Uuid) → AList (fun _ : Name => Inode) →
      IoProg (AList (fun _ : Name => Inode))
  | [], childInodes => .ret childInodes
  | it :: l, childInodes => do
    let childI ← Inode.pull it.2
    pullChildren dirIno l
      (if childInodes.lookup it.1 = none then
        childInodes.insert it.1 (childI.setPIno dirIno)
      else childInodes)

/-- `dentry_table(ino, LOCAL)` and `pull_child_metadata`: the inode of the
directory, its entries and its children. -/
def pull (dirIno : Uuid) :
    IoProg (Inode × Dentry × AList (fun _ : Name => Inode)) := do
  let thisDirInode ← Inode.pull dirIno
  let dentries ← Dentry.load dirIno false
  let childInodes ← pullChildren dirIno dentries.childList.entries ∅
  return (thisDirInode, dentries, childInodes)

/-- What has been read is what the table has. -/
structure ReadAs (t : DentryTable) (thisDirInode : Inode) (dentries : Dentry)
    (childInodes : AList (fun _ : Name => Inode)) : Prop where
  self : t.thisDirInode.Same thisDirInode
  entries : ∀ name, dentries.childList.lookup name = t.childIno name
  absent : ∀ name, t.childInodes.lookup name = none → childInodes.lookup name = none
  child : ∀ name i, t.childInodes.lookup name = some i →
    ∃ j, childInodes.lookup name = some j ∧ j.core.ino = i.core.ino ∧
      j.pIno = t.dirIno ∧ (i.core.isDir = false → i.Same j)

/-- The lengths of link targets are right. -/
structure Whole (t : DentryTable) : Prop where
  self : t.thisDirInode.Whole
  child : ∀ name i, t.childInodes.lookup name = some i → i.Whole

section Pull

variable {p : Pool} {dirIno : Uuid}

/-- Each child is read. -/
theorem run_pullChildren
    {l : List ((_ : Name) × Uuid)} {childInodes : AList (fun _ : Name => Inode)}
    (hkeys : l.NodupKeys) (hnew : ∀ it ∈ l, childInodes.lookup it.1 = none)
    (hpull : ∀ it ∈ l, ∃ j, (Inode.pull it.2).run Pool.handle p = (.ok j, p)) :
    ∃ childInodes', (pullChildren dirIno l childInodes).run Pool.handle p =
        (.ok childInodes', p) ∧
      ∀ name, match l.dlookup name with
        | none => childInodes'.lookup name = childInodes.lookup name
        | some ino => ∃ j, (Inode.pull ino).run Pool.handle p = (.ok j, p) ∧
            childInodes'.lookup name = some (j.setPIno dirIno) := by
  induction l generalizing childInodes with
  | nil => exact ⟨childInodes, rfl, fun _ => rfl⟩
  | cons it l ih =>
      obtain ⟨n, ino⟩ := it
      rw [List.nodupKeys_cons] at hkeys
      obtain ⟨j, hj⟩ := hpull _ List.mem_cons_self
      have hnone := hnew _ List.mem_cons_self
      have hnew' : ∀ it ∈ l, (childInodes.insert n (j.setPIno dirIno)).lookup it.1 = none := by
        intro it hit
        have hne : it.1 ≠ n := by
          rintro rfl
          exact hkeys.1 (show it.1 ∈ l.keys from List.mem_keys_of_mem hit)
        rw [AList.lookup_insert_ne hne]
        exact hnew it (List.mem_cons_of_mem _ hit)
      obtain ⟨childInodes', hrun, hlookup⟩ := ih hkeys.2 hnew'
        fun it hit => hpull it (List.mem_cons_of_mem _ hit)
      refine ⟨childInodes', ?_, ?_⟩
      · rw [pullChildren, Prog.run_bind_ok _ hj, if_pos hnone, hrun]
      · intro name
        have hname := hlookup name
        rcases eq_or_ne name n with rfl | hne
        · rw [List.dlookup_eq_none.mpr hkeys.1] at hname
          rw [List.dlookup_cons_eq]
          exact ⟨j, hj, hname.trans (AList.lookup_insert _)⟩
        · rw [List.dlookup_cons_ne _ _ hne]
          rw [AList.lookup_insert_ne hne] at hname
          exact hname

/-- The table is read from a pool that holds what it has. -/
theorem run_pull
    {t : DentryTable} {m : MetaStore} {inos : Set Uuid}
    (hm : MetaPool.Holds inos {t.dirIno} p m) (hstores : Stores m t)
    (hcoherent : t.Coherent) (hwhole : t.Whole) (hself : t.dirIno ∈ inos)
    (hfiles : ∀ name i, t.childInodes.lookup name = some i → i.core.isDir = false →
      i.core.ino ∈ inos)
    (hdirs : ∀ name i, t.childInodes.lookup name = some i → i.core.isDir = true →
      ∃ j, (Inode.pull i.core.ino).run Pool.handle p = (.ok j, p) ∧
        j.core.ino = i.core.ino) :
    ∃ thisDirInode dentries childInodes,
      (pull t.dirIno).run Pool.handle p =
        (.ok (thisDirInode, dentries, childInodes), p) ∧
      t.ReadAs thisDirInode dentries childInodes := by
  obtain ⟨f, hp, hm⟩ := hm
  -- an inode that the store has is read from its object
  have hread : ∀ ino ∈ inos, ∀ s, m.inodes ino = some s →
      ∃ j, (Inode.pull ino).run Pool.handle p = (.ok j, p) ∧ s.Same j ∧ s.Exact := by
    intro ino hino s hs
    obtain ⟨rfl, hexact, hstored⟩ := hm.inode ino hino s hs
    obtain ⟨j, hrun, hsame⟩ := Inode.run_pull hp s hstored hexact
    exact ⟨j, hrun, hsame, hexact⟩
  -- the directory and its entries
  obtain ⟨s, hs, hcopy⟩ := hstores.self
  obtain ⟨j₀, hrun₀, hsame₀, hexact₀⟩ := hread _ hself s hs
  have hsame := Inode.same_of_copy hcopy.symm hwhole.self.exact hexact₀
  obtain ⟨l, hl⟩ := Option.isSome_iff_exists.mp hstores.found
  have hload : m.loadDentry t.dirIno false = .ok ⟨t.dirIno, l⟩ := by
    simp [MetaStore.loadDentry, hl]
  obtain ⟨d, hrun₁, -, hnames⟩ := MetaStore.run_load_stored hp hm rfl hload
  have hentries : ∀ name, d.childList.lookup name = t.childIno name := by
    intro name
    rw [hnames, ← hstores.entries, MetaStore.entry, hl]
    rfl
  -- each child is found, and a file is as the table has it
  have hchild : ∀ name i, t.childInodes.lookup name = some i →
      ∃ j, (Inode.pull i.core.ino).run Pool.handle p = (.ok j, p) ∧
        j.core.ino = i.core.ino ∧ (i.core.isDir = false → i.Same j) := by
    intro name i hi
    cases hdir : i.core.isDir with
    | true =>
        obtain ⟨j, hrun, hino⟩ := hdirs name i hi hdir
        exact ⟨j, hrun, hino, by rintro ⟨⟩⟩
    | false =>
        obtain ⟨s', hs', hcopy'⟩ := hstores.files name i hi hdir
        obtain ⟨j, hrun, hsame', hexact'⟩ := hread _ (hfiles name i hi hdir) s' hs'
        have hsame'' :=
          (Inode.same_of_copy hcopy'.symm (hwhole.child name i hi).exact hexact').trans hsame'
        exact ⟨j, hrun, (congrArg Core.ino hsame''.1).symm, fun _ => hsame''⟩
  have hpull : ∀ it ∈ d.childList.entries,
      ∃ j, (Inode.pull it.2).run Pool.handle p = (.ok j, p) := by
    intro it hit
    have hino := (hentries it.1).symm.trans (AList.mem_lookup_iff.mpr hit)
    obtain ⟨i, hi⟩ := exists_childInode hino
    obtain ⟨j, hrun, -⟩ := hchild it.1 i hi
    have heq := (hcoherent it.1 i hi).symm.trans hino
    exact ⟨j, Option.some.inj heq ▸ hrun⟩
  obtain ⟨childInodes, hrun₂, hlookup⟩ := @run_pullChildren p t.dirIno _ ∅
    d.childList.nodupKeys (fun _ _ => AList.lookup_empty _) hpull
  refine ⟨j₀, d, childInodes, ?_, hsame.trans hsame₀, hentries, ?_, ?_⟩
  · rw [pull, Prog.run_bind_ok _ hrun₀, Prog.run_bind_ok _ hrun₁, Prog.run_bind_ok _ hrun₂]
    rfl
  · intro name hnone
    have hname := hlookup name
    have habsent : t.childIno name = none := by
      have hsome := t.childInodes_isSome name
      rw [hnone] at hsome
      simpa using hsome.symm
    rw [show d.childList.entries.dlookup name = none from (hentries name).trans habsent] at hname
    exact hname.trans (AList.lookup_empty _)
  · intro name i hi
    have hname := hlookup name
    rw [show d.childList.entries.dlookup name = some i.core.ino from
      (hentries name).trans (hcoherent name i hi)] at hname
    obtain ⟨j, hrun, hj⟩ := hname
    obtain ⟨j', hrun', hino, hfile⟩ := hchild name i hi
    rw [hrun] at hrun'
    cases hrun'
    exact ⟨_, hj, hino, rfl, hfile⟩

end Pull

end DentryTable

section Exact

variable {tx : Transaction} {op : TxOp} {d : Directory} {t : DentryTable} {mv : Move}

/-- A call records copies of what it is given. -/
theorem Transaction.Exact.apply
    (h : tx.Exact) (hself : ∀ s, op.selfInode? = some s → s.Exact)
    (hfile : ∀ i, op.fInode? = some i → i.Exact) : (op.apply tx).2.Exact where
  self s hs := by
    rcases TxOp.apply_sInode op tx with ⟨heq, -⟩ | ⟨i, s', hi, hs', hrec⟩
    · exact h.self s (heq ▸ hs)
    · rw [hs] at hs'
      cases hs'
      cases hrec with
      | copy => exact (hself i hi).copy
      | @times s₀ hold => exact h.self s₀ hold
  files ino i hi := by
    rcases TxOp.apply_fInodes hi with hold | ⟨f, hf, rfl, rfl⟩
    · exact h.files ino i hold
    · exact ⟨rfl, (hfile f hf).copy⟩

theorem Transaction.Exact.new (ino : Uuid) : (Transaction.new ino).Exact where
  self := by rintro s ⟨⟩
  files := by rintro ino' i ⟨⟩

/-- The table and the transactions of the directory. -/
structure Directory.Exact (d : Directory) : Prop where
  table : d.table.Whole
  current : ∀ ino, (d.journal.getEntry ino).Exact
  log : ∀ tx ∈ d.journal.log, tx.Exact

/-- The inode that goes into the table with a call. -/
def Move.Whole : Move → Prop
  | .putReg _ i _ | .putDir _ i _ | .dropReg _ i _ | .setChild _ i | .mkself i => i.Whole
  | .dropDir _ _ _ => True

/-- An operation does not bring an inode with a wrong length. -/
def DirOp.Whole : DirOp → Prop
  | .symlink r => r.src.length < 2 ^ 32
  | .renameNotSameParentDst targetI _ _ _ => targetI.Whole
  | .mkdir _ | .rmdir _ _ | .create _ | .unlink _ | .renameSameParent _ _ _
  | .renameNotSameParentSrc _ _ => True

theorem DentryTable.Whole.stamp (h : t.Whole) (ts : Option Timespec) : (t.stamp ts).Whole := by
  cases ts with
  | none => exact h
  | some ts => exact ⟨h.self, h.child⟩

theorem DentryTable.Whole.setTarget
    (h : t.Whole) {target : AttrTarget} {i : Inode} (hi : i.Whole) :
    (t.setTarget target i).Whole := by
  cases target with
  | self => exact ⟨hi, h.child⟩
  | child name =>
      unfold DentryTable.setTarget
      dsimp only
      split
      · refine ⟨h.self, ?_⟩
        intro n j hj
        rcases DentryTable.setChild_childInodes_cases hj with ⟨-, rfl⟩ | ⟨-, hj⟩
        · exact hi
        · exact h.child n j hj
      · exact h

theorem DentryTable.Whole.target
    (h : t.Whole) {target : AttrTarget} {i : Inode} (hi : t.targetInode target = some i) :
    i.Whole := by
  cases target with
  | self =>
      cases hi
      exact h.self
  | child name => exact h.child name i hi

theorem Move.Whole.table (hmv : mv.Whole) (h : t.Whole) : (mv.table t).Whole := by
  cases mv with
  | putReg name i ts | putDir name i ts =>
      refine DentryTable.Whole.stamp ?_ ts
      cases hchild : t.childIno name with
      | none =>
          rw [DentryTable.createChildInode_of_absent _ _ _ hchild]
          refine ⟨h.self, ?_⟩
          intro n j hj
          rcases DentryTable.putChild_childInodes_cases hj with ⟨-, rfl⟩ | ⟨-, hj⟩
          · exact hmv
          · exact h.child n j hj
      | some ino =>
          rw [DentryTable.createChildInode_of_present _ _ _ (by rw [hchild]; rfl)]
          exact h
  | dropReg name i ts | dropDir name ino ts =>
      refine DentryTable.Whole.stamp ?_ ts
      cases hchild : t.childIno name with
      | none =>
          rw [DentryTable.deleteChildInode_of_absent _ _ hchild]
          exact h
      | some ino =>
          rw [DentryTable.deleteChildInode_of_present _ _ (by rw [hchild]; rfl)]
          refine ⟨h.self, ?_⟩
          intro n j hj
          exact h.child n j (DentryTable.dropChild_childInodes_cases hj).2
  | setChild name i => exact @DentryTable.Whole.setTarget t h (.child name) i hmv
  | mkself i => exact h

/-- A journal call, with the inodes of a table or others that are whole. -/
theorem Directory.Exact.call
    (h : d.Exact) (ht : t.Whole) (ino : Uuid)
    (hself : ∀ s, op.selfInode? = some s → s.Exact)
    (hfile : ∀ i, op.fInode? = some i → i.Exact) :
    (({ d with table := t } : Directory).called ino op).Exact where
  table := ht
  current ino' := by
    change ((d.journal.call ino op).2.getEntry ino').Exact
    rcases eq_or_ne ino' ino with rfl | hne
    · rw [Journal.call_getEntry]
      exact (h.current ino').apply hself hfile
    · rw [Journal.call_getEntry_ne _ _ _ hne]
      exact h.current ino'
  log := h.log

theorem Directory.Exact.move (h : d.Exact) (hmv : mv.Whole) : (mv.perform d).2.Exact := by
  have ht := hmv.table h.table
  have hcalled : (({ d with table := mv.table d.table } : Directory).called
      (mv.call (mv.table d.table)).1 (mv.call (mv.table d.table)).2).Exact := by
    refine h.call ht _ ?_ ?_
    · cases mv with
      | putReg name i ts | putDir name i ts | dropReg name i ts | dropDir name ino ts =>
          rintro s ⟨⟩
          exact ht.self.exact
      | setChild name i => rintro s ⟨⟩
      | mkself i =>
          rintro s ⟨⟩
          exact Inode.Whole.exact hmv
    · cases mv with
      | putReg name i ts | setChild name i =>
          rintro j ⟨⟩
          exact Inode.Whole.exact hmv
      | dropReg name i ts | putDir name i ts | dropDir name ino ts | mkself i =>
          rintro j ⟨⟩
  unfold Move.perform
  rcases Directory.journalCall_cases { d with table := mv.table d.table }
    (mv.call (mv.table d.table)).1 (mv.call (mv.table d.table)).2
    (fun d => (.ret 0, d)) with ⟨-, heq⟩ | ⟨-, e, heq⟩
  · rw [heq]
    exact hcalled
  · rw [heq]
    exact hcalled

theorem Directory.Exact.commitAll (h : d.Exact) : d.commitAll.Exact where
  table := h.table
  current ino := .new ino
  log tx htx := by
    rcases List.mem_append.mp htx with hold | hnew
    · exact h.log tx hold
    · obtain ⟨e, he, rfl⟩ := List.mem_map.mp hnew
      have hexact := h.current e.1
      rw [Journal.getEntry, AList.mem_lookup_iff.mpr he] at hexact
      exact ⟨hexact.self, hexact.files⟩

theorem whole_renameMoves
    {oldName newName : Name} {i : Inode} (h : d.table.Whole) (hi : i.Whole)
    (ts : Option Timespec) : ∀ mv ∈ d.renameMoves oldName newName i ts, mv.Whole := by
  intro mv hmv
  unfold Directory.renameMoves at hmv
  split at hmv
  · rename_i j hj
    simp only [List.mem_cons, List.not_mem_nil, or_false] at hmv
    rcases hmv with rfl | rfl | rfl
    · exact h.child newName j hj
    · exact hi
    · exact hi
  · simp only [List.mem_cons, List.not_mem_nil, or_false] at hmv
    rcases hmv with rfl | rfl
    · exact hi
    · exact hi

theorem whole_renameDstMoves
    {newName : Name} {i : Inode} (h : d.table.Whole) (hi : i.Whole) :
    ∀ mv ∈ d.renameDstMoves newName i, mv.Whole := by
  intro mv hmv
  unfold Directory.renameDstMoves at hmv
  split at hmv
  · rename_i j hj
    simp only [List.mem_cons, List.not_mem_nil, or_false] at hmv
    rcases hmv with rfl | rfl
    · exact h.child newName j hj
    · exact hi
  · rw [List.mem_singleton.mp hmv]
    exact hi

/-- The inodes that an operation puts into the table are whole. -/
theorem DirOp.Whole.moves
    {op : DirOp} (hop : op.Whole) (h : d.table.Whole) (here : Bool) (ts : Timespec) :
    ∀ mv ∈ op.moves here ts d, mv.Whole := by
  intro mv hmv
  cases op with
  | mkdir r =>
      have hnew : (DirOp.newDir here d r).Whole := by cases here <;> rfl
      rcases List.mem_cons.mp hmv with rfl | hmv
      · exact hnew
      · cases here with
        | true =>
            rw [List.mem_singleton.mp hmv]
            exact hnew
        | false => cases hmv
  | rmdir targetIno targetName =>
      rw [List.mem_singleton.mp hmv]
      trivial
  | create r =>
      rw [List.mem_singleton.mp hmv]
      rfl
  | symlink r =>
      rw [DirOp.moves] at hmv
      split at hmv
      · cases hmv
      · rw [List.mem_singleton.mp hmv]
        exact (Nat.mod_eq_of_lt hop).symm
  | unlink childName =>
      rw [DirOp.moves] at hmv
      split at hmv
      · cases hmv
      · rename_i i hi
        have hwhole := h.child childName i hi
        split at hmv
        · rw [List.mem_singleton.mp hmv]
          exact hwhole
        · rw [List.mem_singleton.mp hmv]
          exact hwhole
  | renameSameParent oldPath newPath flags =>
      rw [DirOp.moves] at hmv
      split at hmv
      · rename_i oldName newName hold hnew
        split at hmv
        · cases hmv
        · rename_i i hi
          exact whole_renameMoves h (h.child oldName i hi) _ mv hmv
      · cases hmv
  | renameNotSameParentSrc oldName flags =>
      rw [DirOp.moves] at hmv
      split at hmv
      · cases hmv
      · rename_i i hi
        rw [List.mem_singleton.mp hmv]
        exact h.child oldName i hi
  | renameNotSameParentDst targetI checkDstIno newName flags =>
      exact whole_renameDstMoves h hop mv hmv

namespace Led

variable {s s' : Led}

/-- The operations of a run do not bring inodes with wrong lengths. -/
def Act.Whole : Act → Prop
  | .op _ _ op _ => op.Whole
  | .attr _ _ | .commit => True

end Led

end Exact

namespace Led

section Examples

open Directory Transaction MetaPool

end Examples

end Led

end Nmfs
