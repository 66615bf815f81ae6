import Nmfs.Journal.Layout

/-!
# The meta pool, object by object

`sync` writes and removes whole INODE and DENTRY objects, one after the other
(`Transaction.syncCalls`).  A `MetaStore` has what these objects say: the inode
behind an inode number, and the entries of a directory.

What another client sees when it loads a directory between two of the calls is
`pullChildMetadata` of such a store.
-/

namespace Nmfs

/-- What `sync` does to the meta pool.  `loadDentry` reads the entries that
`syncDentry` writes back with the changes. -/
inductive SyncCall where
  | syncInode (i : Inode)
  | loadDentry (ino : Uuid) (mkdir : Bool) (changes : TxDentries)
  | syncDentry (d : Dentry)
  | removeInode (ino : Uuid)
  | removeDentry (ino : Uuid)

namespace SyncCall

open Transaction

/-- The calls as a program over the objects of the pool. -/
def exec : List SyncCall → IoProg Unit
  | [] => .ret ()
  | .syncInode i :: l => do
    let _ ← i.sync
    exec l
  | .loadDentry ino mkdir changes :: l => do
    let d ← Dentry.load ino mkdir
    let _ ← (syncDentries changes d).sync
    exec l
  | .syncDentry d :: l => do
    let _ ← d.sync
    exec l
  | .removeInode ino :: l => do
    let _ ← RadosIo.remove .INODE (uuidToString ino)
    exec l
  | .removeDentry ino :: l => do
    let _ ← RadosIo.remove .DENTRY (uuidToString ino)
    exec l

end SyncCall

namespace Transaction

/-- The calls of `sync`. -/
def syncCalls (tx : Transaction) : List SyncCall :=
  if tx.status = .S_DELETED then [.removeInode tx.sIno, .removeDentry tx.sIno]
  else
    (tx.sInode.map .syncInode).toList ++
      .loadDentry tx.sIno (tx.status = .S_CREATED) tx.dentries ::
        tx.fInodes.entries.filterMap fun f => f.2.map .syncInode

theorem exec_syncFInodes (l : List ((_ : Uuid) × Option Inode)) :
    SyncCall.exec (l.filterMap fun f => f.2.map .syncInode) = syncFInodes l := by
  induction l with
  | nil => rfl
  | cons f l ih =>
      obtain ⟨ino, fi⟩ := f
      cases fi with
      | none => exact ih
      | some i => exact congrArg (fun p => i.sync.bind fun _ => p) ih

/-- What a directory has for a name after a transaction. -/
def merged (changes : TxDentries) (l : ChildList) (name : Name) : Option Uuid :=
  match changes.lookup name with
  | some (true, ino) => some ino
  | some (false, _) => none
  | none => l.lookup name

theorem syncDentries_thisIno (changes : TxDentries) (d : Dentry) :
    (syncDentries changes d).thisIno = d.thisIno := by
  unfold syncDentries
  induction changes.entries generalizing d with
  | nil => rfl
  | cons p l ih =>
      rw [List.foldl_cons, ih]
      split
      · rfl
      · rfl

/-- Every change is made, since a name is changed once. -/
theorem syncDentries_lookup (changes : TxDentries) (d : Dentry) (name : Name) :
    (syncDentries changes d).childList.lookup name =
      merged changes d.childList name := by
  have hfold : ∀ (l : List ((_ : Name) × Bool × Uuid)) (d : Dentry), l.NodupKeys →
      (l.foldl (fun d p => if p.2.1 then d.addChild p.1 p.2.2 else d.deleteChild p.1)
        d).childList.lookup name =
      match l.dlookup name with
      | some (true, ino) => some ino
      | some (false, _) => none
      | none => d.childList.lookup name := by
    intro l
    induction l with
    | nil => exact fun _ _ => rfl
    | cons p l ih =>
        obtain ⟨n, alive, ino⟩ := p
        intro d hnodup
        rw [List.nodupKeys_cons] at hnodup
        rw [List.foldl_cons, ih _ hnodup.2]
        rcases eq_or_ne n name with rfl | hne
        · rw [List.dlookup_eq_none.mpr hnodup.1, List.dlookup_cons_eq]
          cases alive with
          | true => simp [Dentry.addChild]
          | false => simp [Dentry.deleteChild]
        · rw [List.dlookup_cons_ne _ _ (Ne.symm hne)]
          have hother : (if alive = true then d.addChild n ino
              else d.deleteChild n).childList.lookup name = d.childList.lookup name := by
            split
            · exact AList.lookup_insert_ne (Ne.symm hne)
            · exact AList.lookup_erase_ne (Ne.symm hne)
          simp only [hother]
  exact hfold changes.entries d changes.nodupKeys

/-- They are the program that `sync` is. -/
theorem exec_syncCalls (tx : Transaction) : SyncCall.exec tx.syncCalls = tx.sync := by
  unfold syncCalls sync
  split
  · exact congrArg (Prog.bind _) (funext fun _ => Prog.bind_ret _)
  · rw [← exec_syncFInodes]
    cases tx.sInode with
    | none => rfl
    | some i => rfl

end Transaction

/-- The INODE and DENTRY objects of the meta pool. -/
structure MetaStore where
  inodes : Uuid → Option Inode
  dentries : Uuid → Option ChildList

namespace MetaStore

variable (m : MetaStore)

def setInode (ino : Uuid) (i : Option Inode) : MetaStore :=
  { m with inodes := Function.update m.inodes ino i }

def setDentry (ino : Uuid) (l : Option ChildList) : MetaStore :=
  { m with dentries := Function.update m.dentries ino l }

/-- The constructor `dentry(uuid ino, bool mkdir)`.  It reads `MAX_DENTRY_OBJ_SIZE`
bytes of the object, and goes wrong on a larger directory: that the entries fit is
said wherever the meta store is tied to the pool (`Dentry.Storable`). -/
def loadDentry (ino : Uuid) (mkdir : Bool) : Except Exn Dentry :=
  if mkdir then .ok ⟨ino, ∅⟩
  else
    match m.dentries ino with
    | some l => .ok ⟨ino, l⟩
    | none => .error (.runtimeError
        ("Dentry Corrupted: inode number " ++ String.ofList (uuidToString ino)))

/-- The constructor `inode(uuid ino)`. -/
def pullInode (ino : Uuid) : Except Exn Inode :=
  match m.inodes ino with
  | some i => .ok i
  | none => .error (.noEntry "No such file or Directory: in inode(ino) constructor")

/-- The loop of `pull_child_metadata`. -/
def pullChildren (dirIno : Uuid) :
    List ((_ : Name) × Uuid) → Except Exn (AList (fun _ : Name => Inode))
  | [] => .ok ∅
  | it :: l =>
      match m.pullInode it.2 with
      | .error e => .error e
      | .ok childI =>
          match pullChildren dirIno l with
          | .error e => .error e
          | .ok children => .ok (children.insert it.1 (childI.setPIno dirIno))

/-- The children of a directory, as a client loads them. -/
def pullChildMetadata (dirIno : Uuid) :
    Except Exn (Dentry × AList (fun _ : Name => Inode)) :=
  match m.loadDentry dirIno false with
  | .error e => .error e
  | .ok d =>
      match m.pullChildren dirIno d.childList.entries with
      | .error e => .error e
      | .ok children => .ok (d, children)

/-- A call of `sync`, and the calls that it is followed by. -/
def perform : SyncCall → Except Exn (MetaStore × List SyncCall)
  | .syncInode i => .ok (m.setInode i.core.ino (some i), [])
  | .loadDentry ino mkdir changes =>
      match m.loadDentry ino mkdir with
      | .error e => .error e
      | .ok d => .ok (m, [.syncDentry (Transaction.syncDentries changes d)])
  | .syncDentry d => .ok (m.setDentry d.thisIno (some d.childList), [])
  | .removeInode ino => .ok (m.setInode ino none, [])
  | .removeDentry ino => .ok (m.setDentry ino none, [])

end MetaStore

end Nmfs
