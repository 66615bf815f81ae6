import Nmfs.Local.TwoStep
import Nmfs.Rpc.Messages

/-!
# Renames between two directories, wherever they are led

`fuse_ops::rename` has four paths for two different parents, since each of them
is led by this client (LOCAL) or by another one (REMOTE).  A remote half sends
the inode through one of the codecs of `Nmfs.Rpc.Messages`.

Clients have numbers.  The two directories may have one leader, whose journal
then takes the calls of both halves.
-/

namespace Nmfs

/-- A client: its journal and its user. -/
structure Client where
  journal : Journal
  uid : UInt32
  gid : UInt32

/-- The tables of the two directories at their leaders, and the clients. -/
structure Parents where
  src : DentryTable
  dst : DentryTable
  clients : Nat → Client

/-- What a rename comes to: `loc` is that of the inode that has been put into
the destination. -/
structure Renamed where
  result : Directory.Result
  loc : Option MetaLocation
  parents : Parents

namespace Parents

open Directory DentryTable

def srcDirectory (p : Parents) (leader : Nat) : Directory :=
  ⟨p.src, (p.clients leader).journal, (p.clients leader).uid,
    (p.clients leader).gid⟩

def dstDirectory (p : Parents) (leader : Nat) : Directory :=
  ⟨p.dst, (p.clients leader).journal, (p.clients leader).uid,
    (p.clients leader).gid⟩

def setJournal (p : Parents) (leader : Nat) (j : Journal) : Nat → Client :=
  Function.update p.clients leader { p.clients leader with journal := j }

/-- The source directory is left as `d` at its leader. -/
def putSrc (p : Parents) (leader : Nat) (d : Directory) : Parents :=
  { p with src := d.table, clients := p.setJournal leader d.journal }

def putDst (p : Parents) (leader : Nat) (d : Directory) : Parents :=
  { p with dst := d.table, clients := p.setJournal leader d.journal }

/-- `dst_dentry_table->check_child_inode`, here or by RPC -/
def checkDst (p : Parents) (here : Bool) (newName : Name) : Uuid :=
  let ino := p.dst.checkChildInode newName
  if here then ino
  else .splicePrefixAndPostfix ino.getPrefixFromUuid ino.getPostfixFromUuid

/-- What the handler of the source half answers. -/
def srcRespond : Option Inode → RenameSrcRespond
  | some i => { i.inodeToRenameSrcResponse ⟨.empty, 0⟩ with ret := 0 }
  | none => ⟨.empty, -ENOSYS⟩

/-- What the stub of the source half makes of the answer. -/
def srcTarget (response : RenameSrcRespond) :
    Except Exn (Inode × MetaLocation) :=
  if response.ret = -ENOSYS then .error (.runtimeError
    "Flag specific behaviors of rename operation are not implemented")
  else .ok (.renameSrcResponseToInode response, .NOBODY)

def renameSrc (p : Parents) (leader : Nat) (here : Bool) (oldName : Name)
    (flags : UInt32) : Except Exn (Inode × MetaLocation) × Parents :=
  if here then
    match (p.srcDirectory leader).localRenameNotSameParentSrc oldName flags with
    | (.error e, d) => (.error e, p.putSrc leader d)
    | (.ok i, d) => (.ok (i, .LOCAL), p.putSrc leader d)
  else
    match (p.srcDirectory leader).rpcRenameNotSameParentSrc oldName flags with
    | (.error _, d) => (.error needRecovery, p.putSrc leader d)
    | (.ok i, d) => (srcTarget (srcRespond i), p.putSrc leader d)

/-- The request of the destination half. -/
def dstRequest (p : Parents) (targetI : Inode) (checkDstIno : Uuid)
    (newName : Name) (flags : UInt32) : RenameDstRequest :=
  targetI.inodeToRenameDstRequest {
    dentryTableInoLow := p.dst.dirIno.getPrefixFromUuid
    dentryTableInoHigh := p.dst.dirIno.getPostfixFromUuid
    target := .empty
    checkDstInoLow := checkDstIno.getPrefixFromUuid
    checkDstInoHigh := checkDstIno.getPostfixFromUuid
    newName := newName
    flags := flags }

/-- The handler of the destination half, which has found the table of the
directory in the request. -/
def handleDst (d : Directory) (request : RenameDstRequest) : Reply × Directory :=
  d.rpcRenameNotSameParentDst
    ((Inode.renameDstRequestToInode request).setPIno
      (.splicePrefixAndPostfix request.dentryTableInoLow
        request.dentryTableInoHigh))
    (.splicePrefixAndPostfix request.checkDstInoLow request.checkDstInoHigh)
    request.newName request.flags

/-- Both handlers put an inode into the table that is `LOCAL`: the one here sets
`loc`, and the one of the RPC makes a new inode. -/
def renameDst (p : Parents) (leader : Nat) (here : Bool) (targetI : Inode)
    (checkDstIno : Uuid) (newName : Name) (flags : UInt32) :
    Reply × MetaLocation × Parents :=
  if here then
    match (p.dstDirectory leader).localRenameNotSameParentDst targetI checkDstIno
      newName flags with
    | (r, d) => (r, .LOCAL, p.putDst leader d)
  else
    match handleDst (p.dstDirectory leader)
      (p.dstRequest targetI checkDstIno newName flags) with
    | (.throws _, d) => (.throws needRecovery, .LOCAL, p.putDst leader d)
    | (.ret n, d) => (.ret n, .LOCAL, p.putDst leader d)

/-- `fuse_ops::rename` at the client `self`, for parents that are led by `a` and
by `b`. -/
def rename (p : Parents) (self a b : Nat) (oldName newName : Name)
    (flags : UInt32) : Renamed :=
  let checkDstIno := p.checkDst (b = self) newName
  match p.renameSrc a (a = self) oldName flags with
  | (.error e, p) => ⟨catchRename e, none, p⟩
  | (.ok (targetI, _), p) =>
      match p.renameDst b (b = self) targetI checkDstIno newName flags with
      | (.ret n, loc, p) => ⟨.ret n, some loc, p⟩
      | (.throws e, loc, p) => ⟨catchRename e, some loc, p⟩

/-- The current transaction of a directory at its leader. -/
def entry (p : Parents) (leader : Nat) (ino : Uuid) : Transaction :=
  (p.clients leader).journal.getEntry ino

/-- The calls of the journal in the source half. -/
def srcCalls (p : Parents) (oldName : Name) (targetI : Inode) : List TxOp :=
  [.rmreg p.src.thisDirInode oldName targetI]

/-- The file that is replaced. -/
def replaced (p : Parents) (newName : Name) : Option Inode :=
  if p.dst.checkChildInode newName = .nil then none
  else p.dst.childInodes.lookup newName

/-- The calls of the journal in the destination half. -/
def dstCalls (p : Parents) (newName : Name) (targetI : Inode) : List TxOp :=
  ((p.replaced newName).map (.rmreg p.dst.thisDirInode newName)).toList ++
    [.mkreg p.dst.thisDirInode newName (targetI.setPIno p.dst.dirIno)]

/-- The table of the destination afterwards. -/
def dstTable (p : Parents) (newName : Name) (targetI : Inode) : DentryTable :=
  let t := if (p.replaced newName).isSome then p.dst.dropChild newName else p.dst
  (t.createChildInode newName (targetI.setPIno p.dst.dirIno)).2

end Parents

namespace TxOp

/-- The transaction takes all the calls. -/
def Accepted (tx : Transaction) : List TxOp → Prop
  | [] => True
  | op :: ops => (op.apply tx).1 = .done ∧ Accepted (op.apply tx).2 ops

end TxOp

namespace Journal

/-- Some calls for one directory. -/
def callAll (j : Journal) (ino : Uuid) : List TxOp → Journal
  | [] => j
  | op :: ops => callAll (j.call ino op).2 ino ops

theorem callAll_getEntry (j : Journal) (ino : Uuid) (ops : List TxOp) :
    (j.callAll ino ops).getEntry ino = TxOp.applyAll (j.getEntry ino) ops := by
  induction ops generalizing j with
  | nil => rfl
  | cons op ops ih => rw [callAll, ih, call_getEntry, TxOp.applyAll]

/-- The calls do not touch the transactions of other directories. -/
theorem callAll_getEntry_ne
    (j : Journal) {ino ino' : Uuid} (h : ino' ≠ ino) (ops : List TxOp) :
    (j.callAll ino ops).getEntry ino' = j.getEntry ino' := by
  induction ops generalizing j with
  | nil => rfl
  | cons op ops ih => rw [callAll, ih, call_getEntry_ne _ _ _ h]

end Journal

namespace Directory

open DentryTable

variable {d : Directory} {name : Name} {targetI : Inode}

theorem isSome_of_child
    {t : DentryTable} {i : Inode} (h : t.childInodes.lookup name = some i) :
    (t.childIno name).isSome := by
  rw [← childInodes_isSome, h]
  rfl

theorem takeTarget_accepted
    (hold : d.table.childInodes.lookup name = some targetI)
    (h : TxOp.Accepted (d.journal.getEntry d.dirIno)
      [.rmreg d.table.thisDirInode name targetI]) :
    d.takeTarget name targetI = (.ok targetI, { d with
      table := d.table.dropChild name
      journal := (d.journal.call d.dirIno
        (.rmreg d.table.thisDirInode name targetI)).2 }) := by
  have hdrop := deleteChildInode_of_present d.table name (isSome_of_child hold)
  have hcall := @journalCall_of_done
    { d with table := d.table.dropChild name } d.dirIno
    (.rmreg d.table.thisDirInode name targetI) (fun d => (.ret 0, d)) h.1
  unfold takeTarget
  simp only [hdrop, dropChild_dirIno]
  rw [show (d.table.dropChild name).thisDirInode = d.table.thisDirInode from rfl]
  simp only [show d.table.dirIno = d.dirIno from rfl, hcall]
  rfl

theorem insertTarget_accepted
    (h : TxOp.Accepted (d.journal.getEntry d.dirIno)
      [.mkreg d.table.thisDirInode name targetI]) :
    d.insertTarget name targetI = (.ret 0, { d with
      table := (d.table.createChildInode name targetI).2
      journal := (d.journal.call d.dirIno
        (.mkreg d.table.thisDirInode name targetI)).2 }) := by
  have hcall := @journalCall_of_done
    { d with table := (d.table.createChildInode name targetI).2 } d.dirIno
    (.mkreg d.table.thisDirInode name targetI) (fun d => (.ret 0, d)) h.1
  unfold insertTarget
  simp only [createChildInode_dirIno, createChildInode_thisDirInode]
  exact hcall

theorem replaceTarget_accepted
    {i : Inode} (hname : d.table.childInodes.lookup name = some i)
    (h : ((TxOp.rmreg d.table.thisDirInode name i).apply
      (d.journal.getEntry d.dirIno)).1 = .done)
    (next : Directory → Reply × Directory) :
    d.replaceTarget name next = next { d with
      table := d.table.dropChild name
      journal := (d.journal.call d.dirIno
        (.rmreg d.table.thisDirInode name i)).2 } := by
  have hdrop := deleteChildInode_of_present d.table name (isSome_of_child hname)
  have hcall := @journalCall_of_done
    { d with table := d.table.dropChild name } d.dirIno
    (.rmreg d.table.thisDirInode name i) next h
  unfold replaceTarget getChildInode
  rw [hname]
  simp only [hdrop, dropChild_dirIno]
  exact hcall

/-- Only the inode number of the destination becomes the parent of the file. -/
theorem renameDst_congr
    {i : Inode} (h : ∀ pIno, i.setPIno pIno = targetI.setPIno pIno)
    (checkDstIno : Uuid) :
    d.renameDst name i checkDstIno = d.renameDst name targetI checkDstIno := by
  simp only [renameDst, h]

end Directory

namespace Parents

open Directory DentryTable

variable {p : Parents} {oldName newName : Name} {targetI : Inode}

/-- The inode is the one that has been sent, but for `p_ino`. -/
def Arrives (i targetI : Inode) : Prop :=
  ∀ pIno, i.setPIno pIno = targetI.setPIno pIno

theorem Arrives.portable
    {i : Inode} (h : Arrives i targetI) (htarget : targetI.Portable) :
    i.Portable := by
  refine @Inode.Portable.of_setPIno _ .nil ?_
  rw [h]
  exact htarget.setPIno .nil

/-- The source half hands on the inode that it has taken, or what the codec makes
of it. -/
theorem renameSrc_takes
    (a : Nat) (here : Bool)
    (hold : p.src.childInodes.lookup oldName = some targetI)
    (h : TxOp.Accepted (p.entry a p.src.dirIno) (p.srcCalls oldName targetI)) :
    ∃ i loc, (i = targetI ∨ i = (TargetFields.ofInode targetI).toInode) ∧
      p.renameSrc a here oldName 0 = (.ok (i, loc), { p with
        src := p.src.dropChild oldName
        clients := p.setJournal a ((p.clients a).journal.callAll p.src.dirIno
          (p.srcCalls oldName targetI)) }) := by
  have hget : (p.srcDirectory a).table.getChildInode oldName = .ok targetI := by
    rw [getChildInode, srcDirectory, hold]
  have htake := @takeTarget_accepted (p.srcDirectory a) oldName targetI hold h
  cases here with
  | true =>
      refine ⟨targetI, .LOCAL, .inl rfl, ?_⟩
      simp only [renameSrc, localRenameNotSameParentSrc, hget, if_true, htake]
      rfl
  | false =>
      refine ⟨(TargetFields.ofInode targetI).toInode, .NOBODY, .inr rfl, ?_⟩
      simp only [renameSrc, rpcRenameNotSameParentSrc, hget, if_true, htake,
        Bool.false_eq_true, if_false]
      rfl

theorem renameSrc_accepted
    (a : Nat) (here : Bool)
    (hold : p.src.childInodes.lookup oldName = some targetI)
    (htarget : targetI.Portable)
    (h : TxOp.Accepted (p.entry a p.src.dirIno) (p.srcCalls oldName targetI)) :
    ∃ i loc, Arrives i targetI ∧
      p.renameSrc a here oldName 0 = (.ok (i, loc), { p with
        src := p.src.dropChild oldName
        clients := p.setJournal a ((p.clients a).journal.callAll p.src.dirIno
          (p.srcCalls oldName targetI)) }) := by
  obtain ⟨i, loc, hi, hsrc⟩ := renameSrc_takes a here hold h
  refine ⟨i, loc, ?_, hsrc⟩
  rcases hi with rfl | rfl
  · exact fun _ => rfl
  · exact Inode.toInode_ofInode htarget

theorem checkDst_eq (p : Parents) (here : Bool) (newName : Name) :
    p.checkDst here newName = p.dst.checkChildInode newName := by
  unfold checkDst
  split
  · rfl
  · exact Uuid.splice_get _

theorem checkChildInode_present
    {t : DentryTable} (hname : newName ≠ rootName)
    (h : t.checkChildInode newName ≠ .nil) :
    ∃ i, t.childInodes.lookup newName = some i := by
  rw [checkChildInode, if_neg hname, Dentry.getChildIno] at h
  rw [← Option.isSome_iff_exists, childInodes_isSome, childIno]
  cases hl : t.dentries.childList.lookup newName with
  | none => simp [hl] at h
  | some ino => rfl

theorem renameDst_table
    (b : Nat) (hname : newName ≠ rootName)
    (h : TxOp.Accepted (p.entry b p.dst.dirIno) (p.dstCalls newName targetI)) :
    (p.dstDirectory b).renameDst newName targetI
        (p.dst.checkChildInode newName) =
      (.ret 0, { p.dstDirectory b with
        table := p.dstTable newName targetI
        journal := (p.clients b).journal.callAll p.dst.dirIno
          (p.dstCalls newName targetI) }) := by
  by_cases hcheck : p.dst.checkChildInode newName = .nil
  · have hnone : p.replaced newName = none := by rw [replaced, if_pos hcheck]
    rw [dstCalls, hnone] at h
    have hinsert := @insertTarget_accepted (p.dstDirectory b) newName
      (targetI.setPIno p.dst.dirIno) h
    simp only [Directory.renameDst, hcheck, ne_eq, not_true_eq_false, if_false]
    refine hinsert.trans ?_
    simp only [dstTable, dstCalls, hnone]
    rfl
  · obtain ⟨i, hi⟩ := checkChildInode_present hname hcheck
    have hsome : p.replaced newName = some i := by
      rw [replaced, if_neg hcheck, hi]
    rw [dstCalls, hsome] at h
    obtain ⟨hdone, hrest⟩ := h
    have hreplace := @replaceTarget_accepted (p.dstDirectory b) newName i hi hdone
      fun d => d.insertTarget newName (targetI.setPIno p.dst.dirIno)
    have hlast : TxOp.Accepted (((p.clients b).journal.call p.dst.dirIno
        (.rmreg p.dst.thisDirInode newName i)).2.getEntry p.dst.dirIno)
        [.mkreg p.dst.thisDirInode newName (targetI.setPIno p.dst.dirIno)] := by
      rw [Journal.call_getEntry]
      exact hrest
    have hinsert := @insertTarget_accepted
      { p.dstDirectory b with
        table := p.dst.dropChild newName
        journal := ((p.clients b).journal.call p.dst.dirIno
          (.rmreg p.dst.thisDirInode newName i)).2 }
      newName (targetI.setPIno p.dst.dirIno) hlast
    simp only [Directory.renameDst, ne_eq, hcheck, not_false_eq_true, if_true]
    refine hreplace.trans (hinsert.trans ?_)
    simp only [dstTable, dstCalls, hsome]
    rfl

theorem renameDst_accepted
    (b : Nat) (here : Bool) {i : Inode} (harrives : Arrives i targetI)
    (htarget : targetI.Portable) (hname : newName ≠ rootName)
    (h : TxOp.Accepted (p.entry b p.dst.dirIno) (p.dstCalls newName targetI)) :
    p.renameDst b here i (p.dst.checkChildInode newName) newName 0 =
      (.ret 0, .LOCAL, { p with
        dst := p.dstTable newName targetI
        clients := p.setJournal b ((p.clients b).journal.callAll p.dst.dirIno
          (p.dstCalls newName targetI)) }) := by
  have htable := renameDst_table b hname h
  cases here with
  | true =>
      have hcongr := @renameDst_congr (p.dstDirectory b) newName targetI i harrives
        (p.dst.checkChildInode newName)
      simp only [renameDst, localRenameNotSameParentDst, if_true, hcongr, htable]
      rfl
  | false =>
      have hsent : Arrives ((TargetFields.ofInode i).toInode.setPIno
          p.dst.dirIno) targetI := by
        intro pIno
        rw [Inode.toInode_ofInode (harrives.portable htarget), harrives]
        rfl
      have hcongr := @renameDst_congr (p.dstDirectory b) newName targetI _ hsent
        (p.dst.checkChildInode newName)
      simp only [renameDst, handleDst, dstRequest, Inode.inodeToRenameDstRequest,
        Inode.renameDstRequestToInode, Uuid.splice_get,
        rpcRenameNotSameParentDst, if_true, Bool.false_eq_true, if_false, hcongr,
        htable]
      rfl

/-- Two systems agree about the two directories: the tables, and the current
transactions at their leaders. -/
structure Agree (p p' : Parents) (a b a' b' : Nat) : Prop where
  src : p'.src = p.src
  dst : p'.dst = p.dst
  srcEntry : p'.entry a' p.src.dirIno = p.entry a p.src.dirIno
  dstEntry : p'.entry b' p.dst.dirIno = p.entry b p.dst.dirIno

/-- The transactions take the calls of a rename. -/
structure Accepts (p : Parents) (a b : Nat) (oldName newName : Name)
    (targetI : Inode) : Prop where
  src : TxOp.Accepted (p.entry a p.src.dirIno) (p.srcCalls oldName targetI)
  dst : TxOp.Accepted (p.entry b p.dst.dirIno) (p.dstCalls newName targetI)

/-- What a rename leaves, wherever its halves have run. -/
structure Moved (p : Parents) (a b : Nat) (oldName newName : Name)
    (targetI : Inode) (x : Renamed) : Prop where
  result : x.result = .ret 0
  loc : x.loc = some .LOCAL
  src : x.parents.src = p.src.dropChild oldName
  dst : x.parents.dst = p.dstTable newName targetI
  srcEntry : x.parents.entry a p.src.dirIno =
    TxOp.applyAll (p.entry a p.src.dirIno) (p.srcCalls oldName targetI)
  dstEntry : x.parents.entry b p.dst.dirIno =
    TxOp.applyAll (p.entry b p.dst.dirIno) (p.dstCalls newName targetI)

/-- The journal of a leader has been called for one directory. -/
theorem entry_setJournal
    (p : Parents) (a b : Nat) (ino ino' : Uuid) (ops : List TxOp)
    (src dst : DentryTable) :
    ({ src := src
       dst := dst
       clients := p.setJournal a ((p.clients a).journal.callAll ino ops) :
         Parents }).entry b ino' =
      if b = a ∧ ino' = ino then TxOp.applyAll (p.entry a ino) ops
      else p.entry b ino' := by
  unfold entry setJournal
  by_cases hb : b = a
  · subst hb
    by_cases hino : ino' = ino
    · subst hino
      simp [Journal.callAll_getEntry]
    · simp [hino, Journal.callAll_getEntry_ne _ hino]
  · simp [hb]

theorem rename_moved
    (hdirs : p.dst.dirIno ≠ p.src.dirIno)
    (hold : p.src.childInodes.lookup oldName = some targetI)
    (htarget : targetI.Portable) (hname : newName ≠ rootName) {a b : Nat}
    (h : p.Accepts a b oldName newName targetI) (self : Nat) :
    p.Moved a b oldName newName targetI (p.rename self a b oldName newName 0) := by
  obtain ⟨i, loc, harrives, hsrc⟩ :=
    renameSrc_accepted a (a = self) hold htarget h.src
  -- the source half does not touch what the destination half looks at
  let p₁ : Parents := { p with
    src := p.src.dropChild oldName
    clients := p.setJournal a ((p.clients a).journal.callAll p.src.dirIno
      (p.srcCalls oldName targetI)) }
  have hentry : p₁.entry b p.dst.dirIno = p.entry b p.dst.dirIno := by
    refine (entry_setJournal p a b p.src.dirIno p.dst.dirIno _ _ _).trans ?_
    rw [if_neg (fun h => hdirs h.2)]
  have hdst := @renameDst_accepted p₁ newName targetI b (b = self) i harrives
    htarget hname (by
      rw [show p₁.dst = p.dst from rfl, hentry]
      exact h.dst)
  have hcheck := p.checkDst_eq (b = self) newName
  have hrename : p.rename self a b oldName newName 0 =
      ⟨.ret 0, some .LOCAL, { p₁ with
        dst := p.dstTable newName targetI
        clients := p₁.setJournal b ((p₁.clients b).journal.callAll p.dst.dirIno
          (p.dstCalls newName targetI)) }⟩ := by
    unfold rename
    simp only [hcheck, hsrc]
    rw [show p₁.renameDst b (b = self) i (p.dst.checkChildInode newName) newName 0
      = _ from hdst]
    rfl
  rw [hrename]
  refine ⟨rfl, rfl, rfl, rfl, ?_, ?_⟩
  · refine (entry_setJournal p₁ b a p.dst.dirIno p.src.dirIno _ _ _).trans ?_
    rw [if_neg (fun h => hdirs h.2.symm)]
    refine (entry_setJournal p a a p.src.dirIno p.src.dirIno _ _ _).trans ?_
    rw [if_pos ⟨rfl, rfl⟩]
  · refine (entry_setJournal p₁ b b p.dst.dirIno p.dst.dirIno _ _ _).trans ?_
    rw [if_pos ⟨rfl, rfl⟩, hentry]

/-- A name that leads nowhere is absent, unless it leads to the nil inode. -/
theorem childIno_of_check
    {t : DentryTable} (hname : newName ≠ rootName)
    (hnil : t.childIno newName ≠ some .nil)
    (hcheck : t.checkChildInode newName = .nil) : t.childIno newName = none := by
  rw [checkChildInode, if_neg hname, Dentry.getChildIno] at hcheck
  rw [childIno] at hnil ⊢
  cases hl : t.dentries.childList.lookup newName with
  | none => rfl
  | some ino =>
      rw [hl, Option.getD_some] at hcheck
      rw [hl, hcheck] at hnil
      exact absurd rfl hnil

/-- The new name is free when the file gets it. -/
theorem absent_of_replaced
    (hname : newName ≠ rootName) (hnil : p.dst.childIno newName ≠ some .nil) :
    (if (p.replaced newName).isSome then p.dst.dropChild newName
      else p.dst).childIno newName = none := by
  split
  · exact p.dst.dropChild_childIno newName
  · rename_i hnone
    rw [Option.not_isSome_iff_eq_none, replaced] at hnone
    split at hnone
    · rename_i hcheck
      exact childIno_of_check hname hnil hcheck
    · rename_i hcheck
      obtain ⟨i, hi⟩ := checkChildInode_present hname hcheck
      rw [hi] at hnone
      cases hnone

/-- The file has its new name. -/
theorem dstTable_lookup
    (hname : newName ≠ rootName) (hnil : p.dst.childIno newName ≠ some .nil) :
    (p.dstTable newName targetI).childInodes.lookup newName =
      some (targetI.setPIno p.dst.dirIno) := by
  unfold dstTable
  simp only
  rw [createChildInode_of_absent _ _ _ (absent_of_replaced hname hnil)]
  exact putChild_childInodes _ _ _

theorem dstTable_childIno
    (hname : newName ≠ rootName) (hnil : p.dst.childIno newName ≠ some .nil) :
    (p.dstTable newName targetI).childIno newName = some targetI.core.ino := by
  unfold dstTable
  simp only
  rw [createChildInode_of_absent _ _ _ (absent_of_replaced hname hnil)]
  exact putChild_childIno _ _ _

/-- A rename between two different directories that the transactions accept
returns 0, and leaves the same tables and transactions, wherever the two
directories are led and whoever calls it: the old name is gone, and the new one
leads to the inode, with its new parent. -/
theorem cross_rename_anywhere
    (hdirs : p.dst.dirIno ≠ p.src.dirIno)
    (hold : p.src.childInodes.lookup oldName = some targetI)
    (htarget : targetI.Portable) (hname : newName ≠ rootName)
    {p' : Parents} {a b a' b' : Nat} (hagree : Agree p p' a b a' b')
    (h : p.Accepts a b oldName newName targetI) (self self' : Nat) :
    let x := p.rename self a b oldName newName 0
    let x' := p'.rename self' a' b' oldName newName 0
    x.result = .ret 0 ∧ x'.result = .ret 0 ∧
      x.loc = some .LOCAL ∧ x'.loc = some .LOCAL ∧
      Agree x.parents x'.parents a b a' b' ∧
      x.parents.src.childIno oldName = none ∧
      (p.dst.childIno newName ≠ some .nil →
        x.parents.dst.childInodes.lookup newName =
          some (targetI.setPIno p.dst.dirIno)) := by
  intro x x'
  obtain ⟨src', dst', clients'⟩ := p'
  obtain ⟨hsrc, hdst, hsrcEntry, hdstEntry⟩ := hagree
  simp only at hsrc hdst
  subst hsrc hdst
  have h' : Accepts ⟨p.src, p.dst, clients'⟩ a' b' oldName newName targetI := by
    refine ⟨?_, ?_⟩
    · rw [hsrcEntry]
      exact h.src
    · rw [hdstEntry]
      exact h.dst
  have hmoved : p.Moved a b oldName newName targetI x :=
    rename_moved hdirs hold htarget hname h self
  have hmoved' : Moved ⟨p.src, p.dst, clients'⟩ a' b' oldName newName targetI x' :=
    @rename_moved ⟨p.src, p.dst, clients'⟩ oldName newName targetI hdirs hold
      htarget hname a' b' h' self'
  have hsrcIno : x.parents.src.dirIno = p.src.dirIno := by
    rw [hmoved.src, dropChild_dirIno]
  have hdstIno : x.parents.dst.dirIno = p.dst.dirIno := by
    rw [hmoved.dst, dstTable, createChildInode_dirIno]
    split <;> rfl
  refine ⟨hmoved.result, hmoved'.result, hmoved.loc, hmoved'.loc, ⟨?_, ?_, ?_, ?_⟩,
    ?_, ?_⟩
  · rw [hmoved.src, hmoved'.src]
  · rw [hmoved.dst, hmoved'.dst]
    rfl
  · rw [hsrcIno, hmoved.srcEntry]
    refine hmoved'.srcEntry.trans ?_
    rw [hsrcEntry]
    rfl
  · rw [hdstIno, hmoved.dstEntry]
    refine hmoved'.dstEntry.trans ?_
    rw [hdstEntry]
    rfl
  · rw [hmoved.src, dropChild_childIno]
  · intro hnil
    rw [hmoved.dst, dstTable_lookup hname hnil]

def movedFile : Inode := emptyRoot.newRegInode (requestFor inoA)

/-- The file `a`, another directory with a file `b`, and clients that have not
changed anything since their last commits. -/
def twoDirectories : Parents where
  src := rootWithFile.table
  dst := emptyDir.table.putChild [98] (emptyRoot.newRegInode (requestFor inoC))
  clients _ := ⟨.new, 1000, 1000⟩

/-- The file `a` gets the name in the other directory, whether both are led here or
by two other clients. -/
def MovedAlike (newName : Name) : Prop :=
  let x := twoDirectories.rename 0 0 0 [97] newName 0
  let x' := twoDirectories.rename 0 1 2 [97] newName 0
  x.result = .ret 0 ∧ x'.result = .ret 0 ∧ Agree x.parents x'.parents 0 0 1 2 ∧
    x.parents.dst.childInodes.lookup newName = some (movedFile.setPIno inoB)

/-- The file takes the place of `b`, or has the new name `c`. -/
theorem cross_rename_two_leaders : MovedAlike [98] ∧ MovedAlike [99] := by
  have hportable : movedFile.Portable := Inode.portable_new _ _ _ _ _ _ (by decide)
  have hmoved : ∀ newName, newName ≠ rootName →
      twoDirectories.Accepts 0 0 [97] newName movedFile →
      twoDirectories.dst.childIno newName ≠ some .nil → MovedAlike newName := by
    intro newName hname haccepts hnil
    obtain ⟨hresult, hresult', -, -, hagree, -, hdst⟩ :=
      @cross_rename_anywhere twoDirectories [97] newName movedFile (by decide) (by decide)
        hportable hname twoDirectories 0 0 1 2 ⟨rfl, rfl, rfl, rfl⟩ haccepts 0 0
    exact ⟨hresult, hresult', hagree, hdst hnil⟩
  constructor
  · exact hmoved [98] (by decide)
      ⟨⟨by decide, trivial⟩, ⟨by decide, by decide, trivial⟩⟩ (by decide)
  · exact hmoved [99] (by decide) ⟨⟨by decide, trivial⟩, ⟨by decide, trivial⟩⟩ (by decide)

end Parents

end Nmfs
