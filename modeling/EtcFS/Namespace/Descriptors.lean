import EtcFS.Namespace.Orphans

/-!
# Open descriptors and the names of what they are open on

An unlink of an open file leaves its record to the last release, which deletes it by a read and a
transaction that compares nothing.
-/

namespace EtcFS.Namespace

open EtcFS.Core Ipc Option Function
open Metadata hiding Key Val getInode

def IsFile (rec : InodeRecord) : Prop := rec.mode &&& sIFMT = modeFile
  deriving Decidable

structure OpenFiles where
  count : Nat → Nat
  orphaned : Nat → Bool

namespace OpenFiles

variable (o : OpenFiles) (ino : Nat)

def retain : OpenFiles := { o with count := Function.update o.count ino (o.count ino + 1) }

def release : Bool × OpenFiles :=
  if 1 < o.count ino then
    (false, { o with count := Function.update o.count ino (o.count ino - 1) })
  else
    (o.orphaned ino,
      { count := Function.update o.count ino 0
        orphaned := Function.update o.orphaned ino false })

def heldOpen : Bool × OpenFiles :=
  if o.count ino = 0 then (false, o)
  else (true, { o with orphaned := Function.update o.orphaned ino true })

end OpenFiles

namespace NsOp

def asks (read : Nat → Tree) : NsOp → Option Nat
  | .unlink _ parent name _ => do
    let dirent ← (read 0).get (.dirent parent name)
    let inode ← (read 1).get (.inode dirent.value)
    if inode.value.nlink ≤ 1 ∧ ¬ IsDir inode.value then some dirent.value else none
  | .create _ _ _ _ | .link _ _ _ | .rmdir _ _ | .rename _ | .times _ _ => none

def told (held : Bool) : NsOp → NsOp
  | .unlink node parent name _ => .unlink node parent name held
  | .create parent name new extra => .create parent name new extra
  | .link ino parent name => .link ino parent name
  | .rmdir parent name => .rmdir parent name
  | .rename r => .rename r
  | .times ino u => .times ino u

def isHeld : NsOp → Bool
  | .unlink _ _ _ held => held
  | .create _ _ _ _ | .link _ _ _ | .rmdir _ _ | .rename _ | .times _ _ => false

def OnNode (node : NodeID) : NsOp → Prop
  | .unlink node' _ _ _ => node' = node
  | .create _ _ _ _ | .link _ _ _ | .rmdir _ _ | .rename _ | .times _ _ => True

instance (node : NodeID) : DecidablePred (OnNode node)
  | .unlink node' _ _ _ => inferInstanceAs (Decidable (node' = node))
  | .create _ _ _ _ | .link _ _ _ | .rmdir _ _ | .rename _ | .times _ _ =>
    inferInstanceAs (Decidable True)

end NsOp

structure OrphanCall where
  ino : Nat
  read : Option (Option InodeRecord)
  deriving DecidableEq

structure DescState where
  ns : NsState
  files : OpenFiles
  planned : List (Nat × Option Nat)
  orphans : List OrphanCall

inductive DescStep where
  | name (step : NsStep)
  | plan (id : Nat)
  | retain (ino : Nat)
  | release (ino : Nat)
  | readOrphan (ino : Nat)
  | dropOrphan (ino : Nat) (read : Option InodeRecord) (now : Time)

namespace DescState

variable (s : DescState)

def Ready (node : NodeID) : NsStep → Prop
  | .start _ op => op.OnNode node
  | .commit id _ => ∀ a ∈ s.ns.attempts id, a.op.isUnlink = true → id ∈ s.planned.map Prod.fst
  | .read _ | .giveUp _ => True

instance (node : NodeID) : DecidablePred (s.Ready node)
  | .start _ op => inferInstanceAs (Decidable (op.OnNode node))
  | .commit id _ => inferInstanceAs (Decidable (∀ a ∈ s.ns.attempts id, _))
  | .read _ | .giveUp _ => inferInstanceAs (Decidable True)

def plannedAfter : NsStep → List (Nat × Option Nat)
  | .start id _ | .commit id _ | .giveUp id => s.planned.filter fun x => x.1 ≠ id
  | .read _ => s.planned

def answer (a : Attempt) : Bool × OpenFiles :=
  match a.op.asks a.read with
  | some ino => s.files.heldOpen ino
  | none => (false, s.files)

def denied (a : Attempt) : Option Nat :=
  if (s.answer a).1 then none else a.op.asks a.read

end DescState

def descriptors (node : NodeID) : Machine DescState DescStep where
  step s
    | .name step =>
      if s.Ready node step then
        (namespaceOps.step s.ns step).map fun ns =>
          { s with ns := ns, planned := s.plannedAfter step }
      else none
    | .plan id => do
      let a ← s.ns.attempts id
      if a.op.isUnlink = true ∧ a.reads.length = a.op.needs ∧ id ∉ s.planned.map Prod.fst then
        some { s with
          ns := s.ns.setAttempt id (some ⟨a.op.told (s.answer a).1, a.reads⟩)
          files := (s.answer a).2
          planned := (id, s.denied a) :: s.planned }
      else none
    | .retain ino => some { s with files := s.files.retain ino }
    | .release ino =>
      if s.files.count ino = 0 then none
      else some { s with
        files := (s.files.release ino).2
        orphans := if (s.files.release ino).1 then ⟨ino, none⟩ :: s.orphans else s.orphans }
    | .readOrphan ino =>
      if ⟨ino, none⟩ ∈ s.orphans then
        some { s with
          orphans := ⟨ino, some (getInode s.ns.tree ino)⟩ :: s.orphans.erase ⟨ino, none⟩ }
      else none
    | .dropOrphan ino read now =>
      if ⟨ino, some read⟩ ∈ s.orphans then
        some { s with
          ns := { s.ns with tree := s.ns.tree.commit (deleteOrphan node ino read now) }
          orphans := s.orphans.erase ⟨ino, some read⟩ }
      else none

/-! ## What asking and being told leave -/

theorem attempts_of_ne {s t : NsState} {step : NsStep} (hstep : namespaceOps.step s step = some t)
    {i : Nat} (hi : i ≠ step.call) : t.attempts i = s.attempts i := by
  cases step_end hstep <;> exact update_of_ne hi ..

namespace NsOp

variable (op : NsOp) (held : Bool)

@[simp] theorem number_told : (op.told held).number = op.number := by
  cases op <;> rfl

@[simp] theorem source_told : (op.told held).source = op.source := by
  cases op <;> rfl

@[simp] theorem needs_told : (op.told held).needs = op.needs := by
  cases op <;> rfl

@[simp] theorem isUnlink_told : (op.told held).isUnlink = op.isUnlink := by
  cases op <;> rfl

theorem isHeld_told (h : op.isUnlink = true) : (op.told held).isHeld = held := by
  cases op with
  | unlink => rfl
  | create | link | rmdir | rename | times => cases h

@[simp] theorem asks_told (read : Nat → Tree) : (op.told held).asks read = op.asks read := by
  cases op <;> rfl

end NsOp

theorem NsOp.asks_unlink {node : NodeID} {parent : Nat} {name : String} {held : Bool}
    {read : Nat → Tree} {ino direntRev rev : Nat} {rec : InodeRecord}
    (hname : (read 0).get (.dirent parent name) = some ⟨ino, direntRev⟩)
    (hget : (read 1).get (.inode ino) = some ⟨rec, rev⟩) :
    (NsOp.unlink node parent name held).asks read =
      if rec.nlink ≤ 1 ∧ ¬ IsDir rec then some ino else none := by
  simp [NsOp.asks, hname, hget]

namespace OpenFiles

variable (o : OpenFiles) (ino i : Nat)

theorem count_retain_of_ne (h : i ≠ ino) : (o.retain ino).count i = o.count i := by
  simp [retain, h]

theorem count_release_le : (o.release ino).2.count i ≤ o.count i := by
  rw [release]
  by_cases h : i = ino
  · subst h
    split <;> simp
  · split <;> simp [h]

@[simp] theorem count_heldOpen : (o.heldOpen ino).2.count = o.count := by
  rw [heldOpen]
  split <;> rfl

theorem count_release_last (h : (o.release ino).1 = true) : (o.release ino).2.count ino = 0 := by
  rw [release] at h ⊢
  split
  · next hlt =>
    rw [if_pos hlt] at h
    cases h
  · simp

theorem orphaned_release (h : o.orphaned i = true) : (o.release ino).2.orphaned i = true ∨
    i = ino ∧ (o.release ino).1 = true := by
  rw [release]
  split
  · exact .inl h
  · by_cases he : i = ino
    · subst he
      exact .inr ⟨rfl, h⟩
    · exact .inl (by simpa [he] using h)

theorem count_of_orphaned_release (hmarks : ∀ i, o.orphaned i = true → o.count i ≠ 0)
    {i : Nat} (h : (o.release ino).2.orphaned i = true) : (o.release ino).2.count i ≠ 0 := by
  rw [release] at h ⊢
  split
  · next hlt =>
    rw [if_pos hlt] at h
    by_cases he : i = ino
    · subst he
      simp only [update_self]
      omega
    · simpa [he] using hmarks i h
  · next hle =>
    rw [if_neg hle] at h
    by_cases he : i = ino
    · subst he
      simp at h
    · simp only [update_of_ne he] at h ⊢
      exact hmarks i h

theorem orphaned_heldOpen (h : o.orphaned i = true) : (o.heldOpen ino).2.orphaned i = true := by
  rw [heldOpen]
  split
  · exact h
  · by_cases he : i = ino
    · simp [he]
    · simpa [he] using h

theorem orphaned_heldOpen_cases (h : (o.heldOpen ino).2.orphaned i = true) :
    o.orphaned i = true ∨ o.count i ≠ 0 := by
  rw [heldOpen] at h
  split at h
  · exact .inl h
  · next hopen =>
    by_cases he : i = ino
    · exact .inr (he ▸ hopen)
    · exact .inl (by simpa [he] using h)

theorem count_eq_zero_of_heldOpen (h : (o.heldOpen ino).1 = false) : o.count ino = 0 := by
  by_contra hpos
  rw [heldOpen, if_neg hpos] at h
  cases h

end OpenFiles

namespace DescState

variable (s : DescState) (a : Attempt)

@[simp] theorem count_answer : (s.answer a).2.count = s.files.count := by
  rw [answer]
  cases a.op.asks a.read with
  | none => rfl
  | some ino => exact s.files.count_heldOpen ino

theorem orphaned_answer (ino : Nat) (h : s.files.orphaned ino = true) :
    (s.answer a).2.orphaned ino = true := by
  rw [answer]
  cases a.op.asks a.read with
  | none => exact h
  | some i => exact s.files.orphaned_heldOpen i ino h

theorem orphaned_answer_cases {ino : Nat} (h : (s.answer a).2.orphaned ino = true) :
    s.files.orphaned ino = true ∨ s.files.count ino ≠ 0 := by
  rw [answer] at h
  cases hasks : a.op.asks a.read with
  | none =>
    rw [hasks] at h
    exact .inl h
  | some i =>
    rw [hasks] at h
    exact s.files.orphaned_heldOpen_cases i ino h

theorem count_of_denied {ino : Nat} (h : s.denied a = some ino) : s.files.count ino = 0 := by
  rw [denied] at h
  obtain ⟨hno, hasks⟩ := ite_none_left_eq_some.mp h
  rw [answer, hasks] at hno
  exact s.files.count_eq_zero_of_heldOpen ino (Bool.eq_false_iff.mpr hno)

theorem mem_plannedAfter {step : NsStep} {x : Nat × Option Nat} (h : x ∈ s.plannedAfter step) :
    x ∈ s.planned := by
  cases step with
  | start | commit | giveUp => exact (List.mem_filter.mp h).1
  | read => exact h

theorem ne_of_mem_plannedAfter {step : NsStep} {x : Nat × Option Nat}
    (h : x ∈ s.plannedAfter step) : x.1 ≠ step.call ∨ step = .read x.1 := by
  cases step with
  | start | commit | giveUp =>
    exact .inl (of_decide_eq_true (List.mem_filter.mp h).2)
  | read id =>
    by_cases he : x.1 = id
    · exact .inr (by rw [he])
    · exact .inl he

end DescState

def DescStep.call : DescStep → Option Nat
  | .name step => some step.call
  | .plan id => some id
  | .retain _ | .release _ | .readOrphan _ | .dropOrphan _ _ _ => none

theorem descAttempts_of_ne {node : NodeID} {s t : DescState} {step : DescStep}
    (hstep : (descriptors node).step s step = some t) {i : Nat} (hi : step.call ≠ some i) :
    t.ns.attempts i = s.ns.attempts i := by
  cases step with
  | name step =>
    obtain ⟨-, hstep⟩ := ite_none_right_eq_some.mp hstep
    obtain ⟨ns, hns, rfl⟩ := map_eq_some_iff.mp hstep
    exact attempts_of_ne hns fun he => hi (congrArg some he.symm)
  | plan id =>
    obtain ⟨a, -, hstep⟩ := bind_eq_some_iff.mp hstep
    obtain ⟨-, rfl⟩ := ite_some_none_eq_some.mp hstep
    exact update_of_ne (fun he => hi (congrArg some he.symm)) ..
  | retain ino =>
    cases hstep
    rfl
  | release ino =>
    obtain ⟨-, ht⟩ := ite_none_left_eq_some.mp hstep
    cases ht
    rfl
  | readOrphan ino =>
    obtain ⟨-, rfl⟩ := ite_some_none_eq_some.mp hstep
    rfl
  | dropOrphan ino read now =>
    obtain ⟨-, rfl⟩ := ite_some_none_eq_some.mp hstep
    rfl

end EtcFS.Namespace
