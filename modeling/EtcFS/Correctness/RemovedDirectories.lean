import EtcFS.Correctness.LinkCounts
import EtcFS.Namespace.Edits

/-!
# Directories that are removed with their entries

`AtomicRmdir` and `AtomicRename` compare that the directory they remove is empty.
`AtomicUnlinkKeepingOpen` does not.
-/

namespace EtcFS.Correctness

open EtcFS.Core Namespace Ipc Option
open Metadata hiding Key Val getInode

def RemovesOnlyEmpty (s : NsState) (step : NsStep) (t : NsState) : Prop :=
  (s.applied step).isSome → ∀ ino, isDirectory s.tree ino = true → getInode t.tree ino = none →
    ∀ e ∈ entries s.tree, e.parent ≠ ino

def UnlinksNoFullDirectory (s : NsState) (step : NsStep) : Prop :=
  ∀ x ∈ s.applied step, x.1.op.isUnlink = true → ∀ ino ∈ x.1.op.loses s.tree,
    isDirectory s.tree ino = true → ∀ e ∈ entries s.tree, e.parent ≠ ino
  deriving Decidable

theorem parent_ne_of_dirEmpty {s : Tree} {ino : Nat} (h : s.holds (dirEmpty ino) = true)
    {e : Entry} (he : e ∈ entries s) : e.parent ≠ ino :=
  (ne_parent_of_dirEmpty h (mem_entries.mp he)).symm

theorem unlinked_directory_goes {s : NsState} (h : ReadsTracked s) {step : NsStep} {a : Attempt}
    {tx : Txn} (happ : s.applied step = some (a, tx)) (hop : a.op.isUnlink = true) {ino : Nat}
    (hino : a.op.loses s.tree = some ino) (hdir : isDirectory s.tree ino = true) :
    getInode (s.tree.commit tx.ops) ino = none := by
  obtain ⟨id, now, -, ha, hlen, hplan, -, hcmps⟩ := applied_eq_some happ
  have hread := h.reads_later ha hlen
  cases hcase : a.op with
  | create | link | rmdir | rename | times =>
    rw [hcase] at hop
    cases hop
  | unlink node parent name heldOpen =>
    rw [hcase] at hplan hino hread
    obtain ⟨i, direntRev, rec, rev, hname, hget, rfl⟩ := atomicUnlink_txn hplan
    obtain ⟨hd, hrec⟩ := pinned_named (hread 0 (by simp [NsOp.needs]))
      (hread 1 (by simp [NsOp.needs])) hname hget (hcmps _ (by simp)) (hcmps _ (by simp))
    obtain rfl : i = ino := some.inj (hd.symm.trans hino)
    have hisdir : IsDir rec := by
      rw [isDirectory_of_get hrec] at hdir
      exact of_decide_eq_true hdir
    rw [getInode_commit, effect_delete_dirent, if_neg fun hc => hc.2.1 hisdir,
      effect_unlinkInodeOps_dir hisdir (h.own _ _ hrec), if_pos rfl, getD_some]

/-- No directory is removed with entries in it in exactly the runs whose unlinks never
find a full directory under their name when they commit. -/
theorem along_removesOnlyEmpty_iff {s : NsState} (hown : Own s.tree)
    (hidle : ∀ id, s.attempts id = none) (steps : List NsStep) :
    namespaceOps.Along RemovesOnlyEmpty s steps ↔
      namespaceOps.Along (fun s step _ => UnlinksNoFullDirectory s step) s steps := by
  refine Machine.along_iff (I := ReadsTracked) (fun _ _ _ h _ hstep => h.step hstep) ?_
    (ReadsTracked.of_idle hown hidle) steps
  intro s step t h hstep
  cases happ : s.applied step with
  | none => simp [RemovesOnlyEmpty, UnlinksNoFullDirectory, happ]
  | some x =>
    obtain ⟨a, tx⟩ := x
    have htree := tree_of_applied hstep happ
    constructor
    · intro hq x hx hop ino hino hdir
      obtain rfl := some.inj (happ.symm.trans hx)
      refine hq (by simp [happ]) ino hdir ?_
      rw [htree]
      exact unlinked_directory_goes h happ hop hino hdir
    · intro hc _ ino hdir hgone e he
      obtain ⟨rec, hrec, hisdir⟩ := isDirectory_eq_true.mp hdir
      rw [htree] at hgone
      obtain ⟨hloses, hempty⟩ := removed_of_commit (h.edits happ) hrec hgone
      -- only an unlink removes a directory without comparing that it is empty
      cases hop : a.op.isUnlink with
      | true => exact hc (a, tx) happ hop ino hloses hdir e he
      | false => exact parent_ne_of_dirEmpty (hempty hisdir hop) he

/-- The run removes a file's name and replaces an empty directory. -/
theorem busyRun_removesOnlyEmpty : namespaceOps.Along RemovesOnlyEmpty freshRoot busyRun :=
  (along_removesOnlyEmpty_iff freshRoot_atRest.sound.own freshRoot_atRest.idle busyRun).mpr
    (by decide +kernel)

def reboundToDirectory : List NsStep :=
  [.start 0 (.create 1 "a" (newFile 2 0o100644 0 0 0) noExtra), .commit 0 1,
    .start 1 (.unlink "m" 1 "a" false),
    .start 0 (.unlink "n" 1 "a" false), .read 0, .read 0, .commit 0 2,
    .start 0 (.create 1 "a" (newDir 3 0o755 0 0 0) noExtra), .read 0, .commit 0 3,
    .start 0 (.create 3 "x" (newFile 4 0o100644 0 0 0) noExtra), .commit 0 4,
    .read 1, .read 1]

/-- The unlink commits, the directory's record is gone, and its entry is still there. -/
theorem reboundToDirectory_removes :
    ∃ s t, namespaceOps.exec freshRoot reboundToDirectory = some s ∧
      namespaceOps.step s (.commit 1 5) = some t ∧ isDirectory s.tree 3 = true ∧
      getInode t.tree 3 = none ∧ lookupDirent t.tree 3 "x" = some 4 ∧
      ¬ RemovesOnlyEmpty s (.commit 1 5) t := by
  have hrun : ((namespaceOps.exec freshRoot reboundToDirectory).any fun s =>
      (namespaceOps.step s (.commit 1 5)).any fun t =>
        isDirectory s.tree 3 && (getInode t.tree 3).isNone &&
          lookupDirent t.tree 3 "x" == some 4 && lookupDirent s.tree 3 "x" == some 4 &&
          (s.applied (.commit 1 5)).isSome) = true := by
    decide +kernel
  obtain ⟨s, hs, h⟩ := (any_eq_true ..).mp hrun
  obtain ⟨t, ht, h⟩ := (any_eq_true ..).mp h
  simp only [Bool.and_eq_true, isNone_iff_eq_none, beq_iff_eq] at h
  obtain ⟨⟨⟨⟨hdir, hgone⟩, hleft⟩, hname⟩, happ⟩ := h
  refine ⟨s, t, hs, ht, hdir, hgone, hleft, fun hq => ?_⟩
  have he : (⟨3, "x", 4⟩ : Entry) ∈ entries s.tree := mem_entries.mpr hname
  exact hq happ 3 hdir hgone _ he rfl

end EtcFS.Correctness
