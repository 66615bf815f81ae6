import Nmfs.Lib.Transitions
import Nmfs.Journal.Layout
import Nmfs.Journal.Objects

/-!
# Checkpoints over the pool

The transactions of some directories are committed, each as a record at the end
of the JOURNAL object of its directory, and are checkpointed after that: the
changes are written to the INODE and DENTRY objects, and a byte is cleared at the
record's offset.  Others use the pool in between.

Whatever the order of the checkpoints, the pool then holds what the transactions
make of the meta store in this order (`checkpoints_reach`).
-/

namespace Nmfs

open Bytes

section Files

variable {p p' : Pool} {f f' : FlatStore} {category : ObjCategory} {key : Key}

/-- Equal objects are one byte string. -/
theorem Represents.file_eq
    (hp : Represents p f) (hp' : Represents p' f')
    (hsame : ∀ k, p' (objName category key k) = p (objName category key k)) :
    f' category key = f category key := by
  obtain ⟨n, hfile, hpos⟩ := hp.file category key
  obtain ⟨n', hfile', hpos'⟩ := hp'.file category key
  unfold FileIs at hfile'
  rw [funext hsame] at hfile'
  have hcontent := Striped.content_unique hfile' hfile objSize_pos
  have hsome : (f' category key).isSome = (f category key).isSome := by
    rw [Bool.eq_iff_iff, hpos, hpos', ← hfile'.isSome_iff, ← hfile.isSome_iff]
  unfold FlatStore.content at hcontent
  cases h : f category key with
  | none =>
      rw [h] at hsome
      exact Option.not_isSome_iff_eq_none.mp (by rw [hsome]; decide)
  | some c =>
      rw [h] at hsome hcontent
      obtain ⟨c', hc'⟩ := Option.isSome_iff_exists.mp hsome
      rw [hc'] at hcontent ⊢
      exact congrArg some hcontent

end Files

/-- The meta pool, the transactions that have been committed and not yet
checkpointed, and those that have been checkpointed. -/
structure MetaPool where
  pool : Pool
  waiting : List Transaction
  done : List Transaction

namespace MetaPool

open Transaction

inductive Act where
  | commit (tx : Transaction)
  | checkpoint (n : Nat)
  | others (p : Pool)

/-- A call that throws is not modelled any further. -/
def step : Stepper MetaPool Act
  | s, .commit tx =>
      match tx.commit.run Pool.handle s.pool with
      | (.ok tx', p) => some { s with pool := p, waiting := s.waiting ++ [tx'] }
      | _ => none
  | s, .checkpoint n =>
      match s.waiting[n]? with
      | none => none
      | some tx =>
          match tx.checkpoint.run Pool.handle s.pool with
          | (.ok _, p) => some ⟨p, s.waiting.eraseIdx n, s.done ++ [tx]⟩
          | _ => none
  | s, .others p => some { s with pool := p }

/-- The JOURNAL object does not leave the range of an `off_t`. -/
def Room (p : Pool) (tx : Transaction) : Prop :=
  ∀ c n, FileIs p .JOURNAL (uuidToString tx.sIno) c n →
    c.length + tx.serialize.length ≤ offEnd

/-- The others keep away from the objects that are looked at. -/
structure Apart (inos dirs : Set Uuid) (p p' : Pool) : Prop where
  store : ∃ f', Represents p' f'
  inode : ∀ ino ∈ inos, ∀ k,
    p' (objName .INODE (uuidToString ino) k) = p (objName .INODE (uuidToString ino) k)
  entries : ∀ ino ∈ dirs, ∀ k,
    p' (objName .DENTRY (uuidToString ino) k) = p (objName .DENTRY (uuidToString ino) k)

/-- The changes can be made, and the directory fits into one object with them. -/
def Fits (m : MetaStore) (tx : Transaction) : Prop :=
  ∃ m', m.sync tx = .ok m' ∧
    ∀ l, m'.dentries tx.sIno = some l → (⟨tx.sIno, l⟩ : Dentry).Storable

def Allowed (m₀ : MetaStore) (inos dirs : Set Uuid) (s : MetaPool) : Act → Prop
  | .commit tx => tx.committed = false ∧ tx.Exact ∧ tx.sIno ∈ dirs ∧ Room s.pool tx
  | .checkpoint n => ∃ tx, s.waiting[n]? = some tx ∧
      ∀ m, m₀.syncAll s.done = .ok m → Fits m tx
  | .others p => Apart inos dirs s.pool p

/-- The pool holds the meta store. -/
def Holds (inos dirs : Set Uuid) (p : Pool) (m : MetaStore) : Prop :=
  ∃ f, Represents p f ∧ m.StoredIn inos dirs f

/-- The pool holds what the transactions that have been checkpointed make of the
meta store, and the others can be checkpointed. -/
structure Follows (m₀ : MetaStore) (inos dirs : Set Uuid) (s : MetaPool) : Prop where
  store : ∃ m, m₀.syncAll s.done = .ok m ∧ Holds inos dirs s.pool m
  waiting : ∀ tx ∈ s.waiting, tx.Exact ∧ tx.sIno ∈ dirs ∧ tx.offset < offEnd

section Steps

variable {p : Pool} {f : FlatStore} {m m' m₀ : MetaStore} {inos dirs : Set Uuid}
  {tx : Transaction} {s : MetaPool}

/-- The JOURNAL objects are not looked at. -/
theorem storedIn_journal
    (hm : m.StoredIn inos dirs f) (key : Key) (value : Bytes) (offset : Nat) :
    m.StoredIn inos dirs (f.write .JOURNAL key value offset) :=
  hm.congr (fun _ _ => FlatStore.write_of_ne (by simp) _ _)
    fun _ _ => FlatStore.write_of_ne (by simp) _ _

theorem run_commit
    (hm : Holds inos dirs p m) (hopen : tx.committed = false) (hroom : Room p tx) :
    ∃ p' offset, tx.commit.run Pool.handle p =
        (.ok { tx with committed := true, offset := offset }, p') ∧
      Holds inos dirs p' m ∧ offset < offEnd := by
  obtain ⟨f, hp, hm⟩ := hm
  obtain ⟨n, hf, -⟩ := hp.file .JOURNAL (uuidToString tx.sIno)
  have hend := hroom _ n hf
  have hpos := JournalObject.length_serialize_pos tx
  have hstat := RadosIo.run_stat hf (hp.bounded .JOURNAL (uuidToString tx.sIno))
  have hsize : (if n = 0 then none
      else some (f.content .JOURNAL (uuidToString tx.sIno)).length).getD 0 =
        (f.content .JOURNAL (uuidToString tx.sIno)).length := by
    split
    · rename_i hn
      subst hn
      rw [Striped.eq_nil_of_zero hf]
      rfl
    · rfl
  obtain ⟨p', hwrite, hp'⟩ := hp.run_write .JOURNAL (uuidToString tx.sIno) hend
  have hoffset : (f.content .JOURNAL (uuidToString tx.sIno)).length < offEnd :=
    Nat.lt_of_lt_of_le
      (Nat.lt_add_of_pos_right (Nat.lt_of_lt_of_le (by decide) hpos)) hend
  refine ⟨p', _, ?_, ⟨_, hp', storedIn_journal hm _ _ _⟩, hoffset⟩
  rw [Transaction.commit, hopen, if_neg (by decide), Prog.run_bind_ok _ hstat, hsize,
    Prog.run_bind_ok _ hwrite]
  rfl

theorem run_checkpoint
    (hm : Holds inos dirs p m) (hexact : tx.Exact) (hdir : tx.sIno ∈ dirs)
    (hoffset : tx.offset < offEnd) (hsync : m.sync tx = .ok m')
    (hsize : ∀ l, m'.dentries tx.sIno = some l → (⟨tx.sIno, l⟩ : Dentry).Storable) :
    ∃ p', tx.checkpoint.run Pool.handle p = (.ok (), p') ∧ Holds inos dirs p' m' := by
  obtain ⟨f, hp, hm⟩ := hm
  obtain ⟨p₁, f₁, hrun₁, hp₁, hm₁, -⟩ :=
    MetaStore.reaches_sync hp hm hexact hdir hsync hsize
  have hend : tx.offset + ([0] : Bytes).length ≤ offEnd := hoffset
  obtain ⟨p₂, hrun₂, hp₂⟩ := hp₁.run_write .JOURNAL (uuidToString tx.sIno) hend
  exact ⟨p₂, run_checkpoint_of_sync hrun₁ hrun₂, _, hp₂, storedIn_journal hm₁ _ _ _⟩

theorem Holds.apart
    {p' : Pool} (hm : Holds inos dirs p m) (h : Apart inos dirs p p') :
    Holds inos dirs p' m := by
  obtain ⟨f, hp, hm⟩ := hm
  obtain ⟨f', hp'⟩ := h.store
  exact ⟨f', hp', hm.congr (fun ino hino => hp.file_eq hp' (h.inode ino hino))
    fun ino hino => hp.file_eq hp' (h.entries ino hino)⟩

/-- An allowed step can be taken. -/
theorem Follows.step
    (h : Follows m₀ inos dirs s) {a : Act} (hallowed : Allowed m₀ inos dirs s a) :
    ∃ s', MetaPool.step s a = some s' ∧ Follows m₀ inos dirs s' := by
  obtain ⟨m, hsync, hm⟩ := h.store
  cases a with
  | commit tx =>
      obtain ⟨hopen, hexact, hdir, hroom⟩ := hallowed
      obtain ⟨p', offset, hrun, hm', hoffset⟩ := run_commit hm hopen hroom
      have hstep : MetaPool.step s (.commit tx) = some { s with
          pool := p'
          waiting := s.waiting ++ [{ tx with committed := true, offset := offset }] } := by
        rw [MetaPool.step, hrun]
      refine ⟨_, hstep, ⟨m, hsync, hm'⟩, ?_⟩
      intro tx' htx'
      rcases List.mem_append.mp htx' with hold | hnew
      · exact h.waiting tx' hold
      · rw [List.mem_singleton] at hnew
        subst hnew
        exact ⟨⟨hexact.self, hexact.files⟩, hdir, hoffset⟩
  | checkpoint n =>
      obtain ⟨tx, htx, hfits⟩ := hallowed
      obtain ⟨m', hsync', hsize⟩ := hfits m hsync
      obtain ⟨hexact, hdir, hoffset⟩ := h.waiting tx (List.mem_of_getElem? htx)
      obtain ⟨p', hrun, hm'⟩ := run_checkpoint hm hexact hdir hoffset hsync' hsize
      have hstep : MetaPool.step s (.checkpoint n) =
          some ⟨p', s.waiting.eraseIdx n, s.done ++ [tx]⟩ := by
        simp only [MetaPool.step, htx, hrun]
      refine ⟨_, hstep, ⟨m', ?_, hm'⟩, ?_⟩
      · rw [MetaStore.syncAll_append hsync, MetaStore.syncAll, hsync']
        rfl
      · intro tx' htx'
        exact h.waiting tx' (List.mem_of_mem_eraseIdx htx')
  | others p => exact ⟨_, rfl, ⟨m, hsync, hm.apart hallowed⟩, h.waiting⟩

/-- **The pool follows the meta store.** Commits, and checkpoints in any order, go
to their end, and the pool then holds what the transactions make of the meta store
in the order of their checkpoints. -/
theorem checkpoints_reach
    {p : Pool} (hm : Holds inos dirs p m₀) {acts : List Act}
    (hacts : Stepper.Steps MetaPool.step (Allowed m₀ inos dirs) ⟨p, [], []⟩ acts) :
    ∃ s', Stepper.runFrom MetaPool.step ⟨p, [], []⟩ acts = some s' ∧
      ∃ m, m₀.syncAll s'.done = .ok m ∧ Holds inos dirs s'.pool m := by
  have hbegin : Follows m₀ inos dirs ⟨p, [], []⟩ := ⟨⟨m₀, rfl, hm⟩, by simp⟩
  obtain ⟨s', hrun, hs'⟩ := hacts.run_total (fun _ _ h ha => h.step ha) hbegin
  exact ⟨s', hrun, hs'.store⟩

end Steps

section Order

/-- The transactions that are committed in a run. -/
def commits (acts : List Act) : List Transaction :=
  acts.filterMap fun
    | .commit tx => some tx
    | .checkpoint _ | .others _ => none

variable {m₀ m m' : MetaStore} {inos : Set Uuid} {dirIno : Uuid}
  {txs : List Transaction} {tx tx' : Transaction} {s s' : MetaPool} {p p' : Pool}

end Order

section Examples

/-- Nothing is stored. -/
def emptyStore : MetaStore := ⟨fun _ => none, fun _ => none⟩

theorem emptyPool_holds (inos dirs : Set Uuid) : Holds inos dirs .empty emptyStore :=
  ⟨.empty, .empty, by rintro _ _ _ ⟨⟩, fun _ _ _ => rfl, by rintro _ _ _ ⟨⟩,
    fun _ _ _ => rfl⟩

/-- The transaction that makes a directory. -/
def madeRoot : Transaction := ((TxOp.mkself rootDir).apply (.new .root)).2

theorem madeRoot_exact : madeRoot.Exact where
  self := by
    rintro s ⟨⟩
    rintro ⟨⟩
  files := by
    rintro ino i ⟨⟩

theorem madeRoot_fits : Fits emptyStore madeRoot := by
  refine ⟨_, rfl, ?_⟩
  rintro l ⟨⟩
  constructor
  · refine le_trans (show _ ≤ 8 from Nat.le_refl 8) ?_
    rw [objSize]
    decide
  · rintro it ⟨⟩

theorem madeRoot_room : Room .empty madeRoot := by
  intro c n hf
  have hnil := Striped.content_unique hf (Striped.empty objSize) objSize_pos
  have hlen : madeRoot.serialize.length = 118 := rfl
  rw [hnil, hlen]
  exact le_offEnd (by decide)

/-- The root directory is made, committed and checkpointed. -/
theorem checkpoints_reach_root :
    ∃ s', Stepper.runFrom MetaPool.step ⟨.empty, [], []⟩
        [.commit madeRoot, .checkpoint 0] = some s' ∧
      ∃ m, emptyStore.syncAll s'.done = .ok m ∧ Holds {.root} {.root} s'.pool m := by
  refine checkpoints_reach (emptyPool_holds _ _) ⟨⟨rfl, madeRoot_exact, rfl, madeRoot_room⟩, ?_⟩
  intro s hs
  obtain ⟨p', offset, hrun, -⟩ :=
    run_commit (emptyPool_holds {.root} {.root}) rfl madeRoot_room
  rw [MetaPool.step, hrun] at hs
  cases hs
  refine ⟨⟨_, rfl, ?_⟩, fun _ _ => trivial⟩
  rintro m ⟨⟩
  exact madeRoot_fits

end Examples

end MetaPool

end Nmfs
