import EtcFS.Correctness.LinkCounts
import EtcFS.Namespace.Edits

/-!
# The directories that entries are in

No operation that adds an entry compares that the parent exists, so one in a directory that another
node has just removed commits.
-/

namespace EtcFS.Correctness

open EtcFS.Core Namespace Ipc Option
open Metadata hiding Key Val getInode

def NotUnlink : NsStep → Prop
  | .start _ op => op.isUnlink = false
  | .read _ | .commit _ _ | .giveUp _ => True

instance : DecidablePred NotUnlink
  | .start _ op => inferInstanceAs (Decidable (op.isUnlink = false))
  | .read _ | .commit _ _ | .giveUp _ => inferInstanceAs (Decidable True)

def entryOps : Machine NsState NsStep := namespaceOps.only NotUnlink

def AddsInDirectory (s : NsState) (step : NsStep) : Prop :=
  ∀ x ∈ s.applied step, ∀ e ∈ x.1.op.adds, isDirectory s.tree e.parent = true ∨
    getInode s.tree e.parent = none ∧ ∃ rec ∈ x.1.op.makes, rec.ino = e.parent ∧ IsDir rec
  deriving Decidable

structure ParentsInv (s : NsState) : Prop where
  tracked : ReadsTracked s
  parents : ParentsAreDirectories s.tree
  noUnlink : ∀ id a, s.attempts id = some a → a.op.isUnlink = false

/-- Every entry of every state has a directory for a parent in exactly the runs whose
entries are added to directories that are there when they are added. -/
theorem along_parentsAreDirectories_iff {s : NsState} (hown : Own s.tree)
    (hidle : ∀ id, s.attempts id = none) (hs : ParentsAreDirectories s.tree)
    (steps : List NsStep) :
    entryOps.Along (fun _ _ t => ParentsAreDirectories t.tree) s steps ↔
      entryOps.Along (fun s step _ => AddsInDirectory s step) s steps := by
  have hiff : ∀ s step t, ParentsInv s → entryOps.step s step = some t →
      (ParentsAreDirectories t.tree ↔ AddsInDirectory s step) := by
    intro s step t h hstep
    obtain ⟨-, hstep⟩ := (Machine.only_step namespaceOps).mp hstep
    cases happ : s.applied step with
    | none =>
      rw [tree_of_not_applied hstep happ]
      simp [AddsInDirectory, happ, h.parents]
    | some x =>
      obtain ⟨a, tx⟩ := x
      obtain ⟨id, now, -, ha, -, hplan, hacc, -⟩ := applied_eq_some happ
      rw [tree_of_applied hstep happ,
        parents_commit (h.tracked.edits happ) (h.noUnlink id a ha) hplan hacc h.parents]
      simp [AddsInDirectory, happ]
  refine Machine.along_iff (I := ParentsInv) ?_ hiff ?_ steps
  · intro s step t h hc hstep
    have hparents := (hiff s step t h hstep).mpr hc
    obtain ⟨hp, hstep⟩ := (Machine.only_step namespaceOps).mp hstep
    refine ⟨h.tracked.step hstep, hparents,
      ops_step (P := fun op => op.isUnlink = false) hstep ?_ h.noUnlink⟩
    rintro id op rfl
    exact hp
  · refine ⟨ReadsTracked.of_idle hown hidle, hs, fun id a ha => ?_⟩
    rw [hidle] at ha
    cases ha

def movedSubtree : List NsStep :=
  [.start 0 (.create 1 "d" (newDir 2 0o755 0 0 0) noExtra), .read 0, .commit 0 1,
    .start 0 (.create 1 "e" (newDir 3 0o755 0 0 0) noExtra), .read 0, .commit 0 2,
    .start 1 (.create 2 "f" (newFile 4 0o100644 0 0 0) noExtra), .commit 1 3,
    .start 1 (.link 4 2 "g"), .read 1, .commit 1 4,
    .start 2 (.rename ⟨1, "d", 3, "d", 2, 0, false⟩), .read 2, .read 2, .read 2, .read 2,
    .read 2, .read 2, .commit 2 5]

theorem freshRoot_parents : ParentsAreDirectories freshRoot.tree := by
  intro e he
  rw [entries_freshRoot] at he
  exact absurd he (Multiset.notMem_zero e)

theorem movedSubtree_parents :
    entryOps.Along (fun _ _ t => ParentsAreDirectories t.tree) freshRoot movedSubtree :=
  (along_parentsAreDirectories_iff freshRoot_atRest.sound.own freshRoot_atRest.idle
    freshRoot_parents movedSubtree).mpr (by decide +kernel)

def createdInRemoved : List NsStep :=
  [.start 0 (.create 1 "d" (newDir 2 0o755 0 0 0) noExtra), .read 0, .commit 0 1,
    .start 1 (.create 2 "f" (newFile 3 0o100644 0 0 0) noExtra),
    .start 0 (.rmdir 1 "d"), .read 0, .read 0, .read 0, .commit 0 2, .commit 1 3]

/-- The create commits after the removal: its entry is in a directory with no record. -/
theorem createdInRemoved_stranded :
    ∃ t, entryOps.exec freshRoot createdInRemoved = some t ∧
      lookupDirent t.tree 2 "f" = some 3 ∧ getInode t.tree 2 = none ∧
      ¬ ParentsAreDirectories t.tree := by
  have hrun : ((entryOps.exec freshRoot createdInRemoved).any fun t =>
      lookupDirent t.tree 2 "f" == some 3 && (getInode t.tree 2).isNone) = true := by
    decide +kernel
  obtain ⟨t, ht, h⟩ := (any_eq_true ..).mp hrun
  simp only [Bool.and_eq_true, isNone_iff_eq_none, beq_iff_eq] at h
  obtain ⟨hname, hgone⟩ := h
  refine ⟨t, ht, hname, hgone, fun hp => ?_⟩
  have he : (⟨2, "f", 3⟩ : Entry) ∈ entries t.tree := mem_entries.mpr hname
  have hdir := hp _ he
  simp [isDirectory, hgone] at hdir

end EtcFS.Correctness
