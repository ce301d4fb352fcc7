import EtcFS.Core.Transition
import EtcFS.Namespace.Tree

/-!
# The operations on names

Every operation reads some keys and then submits one transaction built from what it read. Any number
of them run at once.
-/

namespace EtcFS.Namespace

open EtcFS.Core Ipc Option
open Metadata hiding Key Val getInode

inductive NsErr where
  | errNotFound
  | errPerm
  | errExists
  | errNotDir
  | errIsDir
  | errNotEmpty
  | errInvalid
  deriving DecidableEq, Repr

structure Txn where
  cmps : List (Cmp Val)
  ops : List (Op Val)

instance : Append Txn := ⟨fun a b => ⟨a.cmps ++ b.cmps, a.ops ++ b.ops⟩⟩

@[simp] theorem Txn.append_cmps (a b : Txn) : (a ++ b).cmps = a.cmps ++ b.cmps := rfl

@[simp] theorem Txn.append_ops (a b : Txn) : (a ++ b).ops = a.ops ++ b.ops := rfl

inductive Plan where
  | fail (err : NsErr)
  | done
  | txn (tx : Txn)

def inodeUnchanged (ino revision : Nat) : Cmp Val := .modRevisionEq (.inode ino) revision

def inDirectory (ino : Nat) : Key → Bool
  | .dirent parent _ => parent == ino
  | .inode _ | .symlink _ | .orphan _ _ | .lock _ _ _ => false

def dirEmpty (ino : Nat) : Cmp Val := .rangeAbsent (inDirectory ino)

def adjustDirNlink (s : Tree) (ino : Nat) (delta : Int) (now : Time) : Txn :=
  match s.get (.inode ino) with
  | none => ⟨[], []⟩
  | some ⟨rec, rev⟩ =>
    let step := UInt32.ofNat delta.natAbs
    let put (nlink : UInt32) : Txn := ⟨[inodeUnchanged ino rev],
      [.put (.inode ino) { rec with nlink := nlink, mtime := now, ctime := now }]⟩
    if 0 < delta then put (rec.nlink + step)
    else if delta < 0 ∧ step ≤ rec.nlink then put (rec.nlink - step)
    else ⟨[], []⟩

def Key.aside : Key → Bool
  | .inode _ | .dirent _ _ => false
  | .symlink _ | .orphan _ _ | .lock _ _ _ => true

structure CreateExtra where
  cmps : List (Cmp Val)
  ops : List (Op Val)
  outside : ∀ op ∈ ops, op.key.aside = true ∧ op.isDelete = false

structure NewRecord where
  record : InodeRecord
  initial : record.nlink = initialNlink record.mode

def newInodeRecord (ino : Nat) (mode uid gid : UInt32) (now : Time) : InodeRecord where
  ino := ino
  size := 0
  blocks := 0
  mode := mode
  nlink := initialNlink mode
  uid := uid
  gid := gid
  rdev := 0
  blksize := 4096
  atime := now
  mtime := now
  ctime := now

def modeSymlink : UInt32 := 0o120000

def newFile (ino : Nat) (mode uid gid : UInt32) (now : Time) : NewRecord :=
  ⟨newInodeRecord ino mode uid gid now, rfl⟩

def newDir (ino : Nat) (mode uid gid : UInt32) (now : Time) : NewRecord :=
  ⟨{ newInodeRecord ino (mode ||| modeDir) uid gid now with size := 4096 }, rfl⟩

def newSymlink (ino : Nat) (target : String) (uid gid : UInt32) (now : Time) : NewRecord :=
  ⟨{ newInodeRecord ino (modeSymlink ||| 0o777) uid gid now with size := target.utf8ByteSize }, rfl⟩

def newNode (ino : Nat) (mode rdev uid gid : UInt32) (now : Time) : NewRecord :=
  ⟨{ newInodeRecord ino mode uid gid now with rdev := rdev }, rfl⟩

def symlinkExtra (ino : Nat) (target : String) : CreateExtra :=
  ⟨[], [.put (.symlink ino) target], by simp [Op.key, Key.aside, Op.isDelete]⟩

def noExtra : CreateExtra := ⟨[], [], by simp⟩

def atomicCreate (parent : Nat) (name : String) (new : NewRecord) (extra : CreateExtra)
    (parentRead : Tree) (now : Time) : Plan :=
  let create : Txn :=
    ⟨[.absent (.dirent parent name), .absent (.inode new.record.ino)] ++ extra.cmps,
      [.put (.dirent parent name) new.record.ino, .put (.inode new.record.ino) new.record] ++
        extra.ops⟩
  if IsDir new.record then .txn (create ++ adjustDirNlink parentRead parent 1 now)
  else .txn create

def atomicLink (ino parent : Nat) (name : String) (inodeRead : Tree) (now : Time) : Plan :=
  match inodeRead.get (.inode ino) with
  | none => .fail .errNotFound
  | some ⟨rec, rev⟩ =>
    if IsDir rec then .fail .errPerm
    else .txn ⟨[.absent (.dirent parent name), inodeUnchanged ino rev],
      [.put (.dirent parent name) ino,
        .put (.inode ino) { rec with nlink := rec.nlink + 1, ctime := now }]⟩

def unlinkInodeOps (rec : InodeRecord) (now : Time) : List (Op Val) :=
  match unlinkInode rec now with
  | some reduced => [.put (.inode rec.ino) reduced]
  | none => .delete (.inode rec.ino) ::
      if rec.mode &&& sIFMT = modeSymlink then [.delete (.symlink rec.ino)] else []

def atomicUnlink (node : NodeID) (parent : Nat) (name : String) (heldOpen : Bool)
    (direntRead inodeRead : Tree) (now : Time) : Plan :=
  match direntRead.get (.dirent parent name) with
  | none => .fail .errNotFound
  | some ⟨ino, direntRev⟩ =>
    match inodeRead.get (.inode ino) with
    | none => .fail .errNotFound
    | some ⟨rec, rev⟩ =>
      let tail : List (Op Val) :=
        if rec.nlink ≤ 1 ∧ ¬ IsDir rec ∧ heldOpen = true then
          [.put (.inode ino) { rec with nlink := 0, ctime := now }, .put (.orphan node ino) ()]
        else unlinkInodeOps rec now
      .txn ⟨[.modRevisionEq (.dirent parent name) direntRev, inodeUnchanged ino rev],
        .delete (.dirent parent name) :: tail⟩

def atomicRmdir (parent : Nat) (name : String) (direntRead inodeRead parentRead : Tree)
    (now : Time) : Plan :=
  match direntRead.get (.dirent parent name) with
  | none => .fail .errNotFound
  | some ⟨ino, direntRev⟩ =>
    match inodeRead.get (.inode ino) with
    | none => .fail .errNotFound
    | some ⟨rec, rev⟩ =>
      if IsDir rec then
        .txn (⟨[.modRevisionEq (.dirent parent name) direntRev, inodeUnchanged ino rev,
            dirEmpty ino], [.delete (.dirent parent name), .delete (.inode ino)]⟩ ++
          adjustDirNlink parentRead parent (-1) now)
      else .fail .errNotDir

structure RenameArgs where
  oldParent : Nat
  oldName : String
  newParent : Nat
  newName : String
  ino : Nat
  flags : UInt32
  isDescendant : Bool

def renameNoReplace : UInt32 := 1

def renameExchange : UInt32 := 2

def applyRenameNlink (oldParent newParent : Nat) (srcIsDir victimIsDir : Bool)
    (oldRead newRead : Tree) (now : Time) : Txn :=
  let moved : Bool := srcIsDir && oldParent != newParent
  let newDelta : Int := (if moved then 1 else 0) - (if victimIsDir then 1 else 0)
  (if moved then adjustDirNlink oldRead oldParent (-1) now else ⟨[], []⟩) ++
    (if newDelta ≠ 0 then adjustDirNlink newRead newParent newDelta now else ⟨[], []⟩)

def atomicRename (r : RenameArgs) (srcRead targetRead victimRead listRead oldRead newRead : Tree)
    (now : Time) : Plan :=
  let srcIsDir := isDirectory srcRead r.ino
  let move : Txn := ⟨[.present (.dirent r.oldParent r.oldName)],
    [.delete (.dirent r.oldParent r.oldName), .put (.dirent r.newParent r.newName) r.ino]⟩
  if r.flags &&& renameExchange ≠ 0 then .fail .errInvalid
  else if srcIsDir ∧ (r.newParent = r.ino ∨ r.isDescendant) then .fail .errInvalid
  else
    match targetRead.get (.dirent r.newParent r.newName) with
    | none =>
      .txn (move ++ ⟨[.absent (.dirent r.newParent r.newName)], []⟩ ++
        applyRenameNlink r.oldParent r.newParent srcIsDir false oldRead newRead now)
    | some ⟨victimIno, targetRev⟩ =>
      let pinned : Txn := move ++ ⟨[.modRevisionEq (.dirent r.newParent r.newName) targetRev], []⟩
      if r.flags &&& renameNoReplace ≠ 0 then .fail .errExists
      else
        match victimRead.get (.inode victimIno) with
        | none =>
          .txn (pinned ++
            applyRenameNlink r.oldParent r.newParent srcIsDir false oldRead newRead now)
        | some ⟨victim, victimRev⟩ =>
          if srcIsDir ∧ ¬ IsDir victim then .fail .errNotDir
          else if ¬ srcIsDir ∧ IsDir victim then .fail .errIsDir
          else if IsDir victim ∧ ¬ listRead.holds (dirEmpty victimIno) then .fail .errNotEmpty
          else
            .txn (pinned ++
              ⟨(if IsDir victim then [dirEmpty victimIno] else []) ++
                [inodeUnchanged victimIno victimRev], unlinkInodeOps victim now⟩ ++
              applyRenameNlink r.oldParent r.newParent srcIsDir (IsDir victim) oldRead newRead now)

def commitInodeTimes (ino : Nat) (u : TimeUpdate) (inodeRead : Tree) : Plan :=
  match inodeRead.get (.inode ino) with
  | none => .done
  | some ⟨rec, rev⟩ =>
    if u.apply rec = rec then .done
    else .txn ⟨[inodeUnchanged ino rev], [.put (.inode ino) (u.apply rec)]⟩

/-! ## Any number of operations at once -/

inductive NsOp where
  | create (parent : Nat) (name : String) (new : NewRecord) (extra : CreateExtra)
  | link (ino parent : Nat) (name : String)
  | unlink (node : NodeID) (parent : Nat) (name : String) (heldOpen : Bool)
  | rmdir (parent : Nat) (name : String)
  | rename (r : RenameArgs)
  | times (ino : Nat) (u : TimeUpdate)

namespace NsOp

def needs : NsOp → Nat
  | .create _ _ new _ => if IsDir new.record then 1 else 0
  | .link _ _ _ => 1
  | .unlink _ _ _ _ => 2
  | .rmdir _ _ => 3
  | .rename _ => 6
  | .times _ _ => 1

def plan (op : NsOp) (read : Nat → Tree) (now : Time) : Plan :=
  match op with
  | .create parent name new extra => atomicCreate parent name new extra (read 0) now
  | .link ino parent name => atomicLink ino parent name (read 0) now
  | .unlink node parent name heldOpen =>
    atomicUnlink node parent name heldOpen (read 0) (read 1) now
  | .rmdir parent name => atomicRmdir parent name (read 0) (read 1) (read 2) now
  | .rename r => atomicRename r (read 0) (read 1) (read 2) (read 3) (read 4) (read 5) now
  | .times ino u => commitInodeTimes ino u (read 0)

def retries : NsOp → Bool
  | .create _ _ new _ => IsDir new.record
  | .rename _ => false
  | .link _ _ _ | .unlink _ _ _ _ | .rmdir _ _ | .times _ _ => true

def number : NsOp → Option Nat
  | .create _ _ new _ => some new.record.ino
  | .link _ _ _ | .unlink _ _ _ _ | .rmdir _ _ | .rename _ | .times _ _ => none

def renameArgs : NsOp → Option RenameArgs
  | .rename r => some r
  | .create _ _ _ _ | .link _ _ _ | .unlink _ _ _ _ | .rmdir _ _ | .times _ _ => none

def source (op : NsOp) : Option Nat := op.renameArgs.map RenameArgs.ino

end NsOp

def accepts (ops : List (Op Val)) : Prop :=
  ops.Pairwise fun a b => a.key = b.key → a.isDelete = true ∧ b.isDelete = true
  deriving Decidable

structure Attempt where
  op : NsOp
  reads : List Tree

def Attempt.read (a : Attempt) (i : Nat) : Tree := a.reads.getD i Store.empty

theorem Attempt.read_mem (a : Attempt) {i : Nat} (h : i < a.reads.length) : a.read i ∈ a.reads := by
  rw [Attempt.read, List.getD_eq_getElem?_getD, List.getElem?_eq_getElem h, getD_some]
  exact List.getElem_mem _

structure NsState where
  tree : Tree
  attempts : Nat → Option Attempt
  taken : List Nat

inductive NsStep where
  | start (id : Nat) (op : NsOp)
  | read (id : Nat)
  | commit (id : Nat) (now : Time)
  | giveUp (id : Nat)

def NsOp.Startable (s : NsState) : NsOp → Prop
  | .create _ _ new _ => new.record.ino ∉ s.taken
  | .rename r => r.ino ≠ 0 ∧ lookupDirent s.tree r.oldParent r.oldName = some r.ino
  | .link _ _ _ | .unlink _ _ _ _ | .rmdir _ _ | .times _ _ => True

instance (s : NsState) (op : NsOp) : Decidable (op.Startable s) := by
  cases op <;> simp only [NsOp.Startable] <;> infer_instance

def NsState.setAttempt (s : NsState) (id : Nat) (a : Option Attempt) : NsState :=
  { s with attempts := Function.update s.attempts id a }

theorem attempts_setAttempt {s : NsState} {id i : Nat} {b : Option Attempt} {a : Attempt} :
    (s.setAttempt id b).attempts i = some a ↔
      i = id ∧ b = some a ∨ i ≠ id ∧ s.attempts i = some a := by
  by_cases he : i = id <;> simp [NsState.setAttempt, he]

theorem number_not_mem_taken {s : NsState} {op : NsOp} (hop : op.Startable s) {ino : Nat}
    (h : op.number = some ino) : ino ∉ s.taken := by
  cases op with
  | create parent name new extra =>
    cases h
    exact hop
  | link | unlink | rmdir | rename | times => cases h

def NsState.conclude (s : NsState) (id : Nat) (a : Attempt) : Plan → NsState
  | .fail _ | .done => s.setAttempt id none
  | .txn tx =>
    if accepts tx.ops then
      match s.tree.txn tx.cmps tx.ops with
      | some t => { s.setAttempt id none with tree := t }
      | none => s.setAttempt id (if a.op.retries then some ⟨a.op, []⟩ else none)
    else s.setAttempt id none

def namespaceOps : Machine NsState NsStep where
  step s
    | .start id op =>
      if s.attempts id = none ∧ op.Startable s then
        some { s.setAttempt id (some ⟨op, []⟩) with taken := op.number.toList ++ s.taken }
      else none
    | .read id => do
      let a ← s.attempts id
      if a.reads.length < a.op.needs then
        some (s.setAttempt id (some { a with reads := a.reads ++ [s.tree] }))
      else none
    | .commit id now => do
      let a ← s.attempts id
      if a.reads.length = a.op.needs then some (s.conclude id a (a.op.plan a.read now)) else none
    | .giveUp id => some (s.setAttempt id none)

def rootRecord : InodeRecord := newInodeRecord 1 (modeDir ||| 0o755) 0 0 0

def freshRoot : NsState where
  tree := Store.empty.commit [.put (.inode 1) rootRecord]
  attempts := fun _ => none
  taken := [1]

def NsState.applied (s : NsState) : NsStep → Option (Attempt × Txn)
  | .commit id now => do
    let a ← s.attempts id
    if a.reads.length = a.op.needs then
      match a.op.plan a.read now with
      | .txn tx =>
        if accepts tx.ops ∧ tx.cmps.all s.tree.holds = true then some (a, tx) else none
      | .fail _ | .done => none
    else none
  | .start _ _ | .read _ | .giveUp _ => none

theorem applied_eq_some {s : NsState} {step : NsStep} {a : Attempt} {tx : Txn}
    (h : s.applied step = some (a, tx)) : ∃ id now, step = .commit id now ∧
      s.attempts id = some a ∧ a.reads.length = a.op.needs ∧
      a.op.plan a.read now = .txn tx ∧ accepts tx.ops ∧ ∀ c ∈ tx.cmps, s.tree.holds c = true := by
  cases step with
  | start | read | giveUp => cases h
  | commit id now =>
    obtain ⟨a', ha, h⟩ := bind_eq_some_iff.mp h
    obtain ⟨hlen, h⟩ := ite_none_right_eq_some.mp h
    cases hplan : a'.op.plan a'.read now with
    | fail | done =>
      rw [hplan] at h
      cases h
    | txn tx' =>
      rw [hplan] at h
      obtain ⟨⟨hacc, hcmps⟩, h⟩ := ite_none_right_eq_some.mp h
      obtain ⟨rfl, rfl⟩ := Prod.mk.inj (some.inj h)
      exact ⟨id, now, rfl, ha, hlen, hplan, hacc, List.all_eq_true.mp hcmps⟩

def NsStep.call : NsStep → Nat
  | .start id _ | .read id | .commit id _ | .giveUp id => id

/-- What a step leaves: a call is started, its attempt reads, begins again or ends, or its
transaction is applied. -/
inductive StepEnd (s : NsState) (step : NsStep) : NsState → Prop
  | started (op : NsOp) (hstart : step = .start step.call op) (hop : op.Startable s) :
    StepEnd s step
      { s.setAttempt step.call (some ⟨op, []⟩) with taken := op.number.toList ++ s.taken }
  | kept (a : Attempt) (reads : List Tree) (ha : s.attempts step.call = some a)
    (hreads : reads = [] ∨ reads = a.reads ++ [s.tree]) (hnot : s.applied step = none) :
    StepEnd s step (s.setAttempt step.call (some ⟨a.op, reads⟩))
  | dropped (hnot : s.applied step = none) : StepEnd s step (s.setAttempt step.call none)
  | applied (a : Attempt) (tx : Txn) (ha : s.attempts step.call = some a)
    (happ : s.applied step = some (a, tx)) :
    StepEnd s step { s.setAttempt step.call none with tree := s.tree.commit tx.ops }

section

variable {s t : NsState} {step : NsStep}

theorem step_end (h : namespaceOps.step s step = some t) :
    StepEnd s step t := by
  cases step with
  | start id op =>
    obtain ⟨⟨-, hop⟩, rfl⟩ := ite_some_none_eq_some.mp h
    exact .started op rfl hop
  | read id =>
    obtain ⟨a, ha, h⟩ := bind_eq_some_iff.mp h
    obtain ⟨-, rfl⟩ := ite_some_none_eq_some.mp h
    exact .kept a _ ha (.inr rfl) rfl
  | commit id now =>
    obtain ⟨a, ha, h⟩ := bind_eq_some_iff.mp h
    obtain ⟨hlen, rfl⟩ := ite_some_none_eq_some.mp h
    have happ : s.applied (.commit id now) = match a.op.plan a.read now with
        | .txn tx =>
          if accepts tx.ops ∧ tx.cmps.all s.tree.holds = true then some (a, tx) else none
        | .fail _ | .done => none := by
      simp only [NsState.applied, ha, bind_some, bind_eq_bind, if_pos hlen]
    cases hplan : a.op.plan a.read now with
    | fail | done => exact .dropped (by rw [happ, hplan])
    | txn tx =>
      rw [hplan] at happ
      dsimp only [NsState.conclude] at happ ⊢
      split
      · next hacc =>
        cases htxn : s.tree.txn tx.cmps tx.ops with
        | some t =>
          obtain ⟨hcmps, rfl⟩ := Store.txn_eq_some_iff.mp htxn
          rw [if_pos ⟨hacc, List.all_eq_true.mpr hcmps⟩] at happ
          exact .applied a tx ha happ
        | none =>
          have hall : ¬ tx.cmps.all s.tree.holds = true := by
            intro hall
            rw [Store.txn, if_pos hall] at htxn
            cases htxn
          rw [if_neg fun h => hall h.2] at happ
          dsimp only
          split
          · exact .kept a [] ha (.inl rfl) happ
          · exact .dropped happ
      · next hacc =>
        rw [if_neg fun h => hacc h.1] at happ
        exact .dropped happ
  | giveUp id =>
    cases h
    exact .dropped rfl

theorem tree_of_not_applied (hstep : namespaceOps.step s step = some t)
    (h : s.applied step = none) : t.tree = s.tree := by
  cases step_end hstep with
  | started | kept | dropped => rfl
  | applied a tx _ happ =>
    rw [h] at happ
    cases happ

theorem tree_of_applied {a : Attempt} {tx : Txn} (hstep : namespaceOps.step s step = some t)
    (h : s.applied step = some (a, tx)) : t.tree = s.tree.commit tx.ops := by
  cases step_end hstep with
  | started op hstart =>
    rw [hstart] at h
    cases h
  | kept _ _ _ _ hnot | dropped hnot =>
    rw [h] at hnot
    cases hnot
  | applied a' tx' _ happ =>
    obtain ⟨-, rfl⟩ := Prod.mk.inj (some.inj (h.symm.trans happ))
    rfl

end

end EtcFS.Namespace
