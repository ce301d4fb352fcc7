import EtcFS.Correctness.LinkCounts
import EtcFS.Namespace.Descriptors

/-!
# Records of open files

An unlink asks whether the file is open, a rename over its last name does not, and neither sees a
descriptor opened before the answer is acted on.
-/

namespace EtcFS.Correctness

open EtcFS.Core Namespace Ipc List Option
open Metadata hiding Key Val getInode

def KeepsOpenFiles (s t : DescState) : Prop :=
  ∀ ino rec, getInode s.ns.tree ino = some rec → IsFile rec → s.files.count ino ≠ 0 →
    getInode t.ns.tree ino ≠ none

def HeedsDescriptors (s : DescState) : DescStep → Prop
  | .name step => ∀ x ∈ s.ns.applied step, x.1.op.renameArgs.isSome = true →
      ∀ ino ∈ deletedInodes x.2.ops, ∀ rec ∈ getInode s.ns.tree ino, IsFile rec →
        s.files.count ino = 0
  | .retain ino => (∀ x ∈ s.planned, x.2 ≠ some ino) ∧ ∀ c ∈ s.orphans, c.ino ≠ ino
  | .plan _ | .release _ | .readOrphan _ | .dropOrphan _ _ _ => True

instance (s : DescState) : DecidablePred (HeedsDescriptors s)
  | .name step => inferInstanceAs (Decidable (∀ x ∈ s.ns.applied step, _))
  | .retain _ => inferInstanceAs (Decidable (_ ∧ _))
  | .plan _ | .release _ | .readOrphan _ | .dropOrphan _ _ _ => inferInstanceAs (Decidable True)

theorem not_isDir_of_isFile {rec : InodeRecord} (h : IsFile rec) : ¬ IsDir rec := by
  intro hd
  have hne : modeFile ≠ modeDir := by decide
  exact hne (h.symm.trans hd)

/-! ## What deletes a file's record -/

section

variable {s : Tree} {rec : InodeRecord} {ino : Nat} {now : Time}

theorem asked_of_deleted {node : NodeID} {parent : Nat} {name : String} {held : Bool}
    {read : Nat → Tree} {tx : Txn} (hr : (read 0).Later s) (hr' : (read 1).Later s)
    (hplan : (NsOp.unlink node parent name held).plan read now = .txn tx)
    (hcmps : ∀ c ∈ tx.cmps, s.holds c = true) (hown : Own s) (hrec : getInode s ino = some rec)
    (hdir : ¬ IsDir rec) (hdel : Op.delete (.inode ino) ∈ tx.ops) :
    held = false ∧ (NsOp.unlink node parent name held).asks read = some ino := by
  obtain ⟨i, direntRev, rec', rev, hname, hget, rfl⟩ := atomicUnlink_txn hplan
  obtain ⟨-, hrec'⟩ := pinned_named hr hr' hname hget (hcmps _ (by simp)) (hcmps _ (by simp))
  rcases mem_cons.mp hdel with h | hdel
  · cases h
  · split at hdel
    · simp at hdel
    · next hheld =>
      obtain rfl : ino = i := (delete_of_unlinkInodeOps hdel).trans (hown i rec' hrec')
      obtain rfl := some.inj (hrec.symm.trans hrec')
      have hlink := nlink_le_of_unlinkInodeOps hdir hdel
      refine ⟨?_, by rw [NsOp.asks_unlink hname hget, if_pos ⟨hlink, hdir⟩]⟩
      by_contra htrue
      exact hheld ⟨hlink, hdir, Bool.eq_true_of_not_eq_false htrue⟩

theorem isDir_of_rmdir {parent : Nat} {name : String} {read : Nat → Tree} {tx : Txn}
    (hr : (read 1).Later s) (hplan : (NsOp.rmdir parent name).plan read now = .txn tx)
    (hcmps : ∀ c ∈ tx.cmps, s.holds c = true) (hrec : getInode s ino = some rec)
    (hdel : Op.delete (.inode ino) ∈ tx.ops) : IsDir rec := by
  obtain ⟨i, direntRev, rec', rev, -, hget, hdir, rfl⟩ := atomicRmdir_txn hplan
  have hrec' := getInode_of_get (pinned_get hr hget (hcmps (inodeUnchanged i rev) (by simp)))
  rcases mem_append.mp hdel with hdel | hdel
  · obtain rfl : ino = i := by simpa using hdel
    obtain rfl := some.inj (hrec.symm.trans hrec')
    exact hdir
  · obtain ⟨_, h⟩ := adjustDirNlink_puts hdel
    cases h

end

theorem removed_file {s : NsState} {step : NsStep} {a : Attempt} {tx : Txn} (h : ReadsTracked s)
    (happ : s.applied step = some (a, tx)) {ino : Nat} {rec : InodeRecord}
    (hrec : getInode s.tree ino = some rec) (hfile : IsFile rec)
    (hdel : ino ∈ deletedInodes tx.ops) : a.op.renameArgs.isSome = true ∨
      a.op.isUnlink = true ∧ a.op.isHeld = false ∧ a.op.asks a.read = some ino := by
  obtain ⟨id, now, -, ha, hlen, hplan, -, hcmps⟩ := applied_eq_some happ
  have hlater := h.reads_later ha hlen
  have hdir := not_isDir_of_isFile hfile
  have hdel := mem_deletedInodes.mp hdel
  cases h.edits happ _ hdel with
  | aside _ haside => cases haside
  | remove _ _ _ hloses _ _ =>
    obtain ⟨op, reads⟩ := a
    cases op with
    | create | link | times => cases hloses
    | rename r => exact .inl rfl
    | rmdir parent name =>
      exact absurd (isDir_of_rmdir (hlater 1 (by simp [NsOp.needs])) hplan hcmps hrec hdel) hdir
    | unlink node parent name held =>
      exact .inr ⟨rfl, asked_of_deleted (hlater 0 (by simp [NsOp.needs]))
        (hlater 1 (by simp [NsOp.needs])) hplan hcmps h.own hrec hdir hdel⟩

/-! ## Runs -/

structure Heeded (s : DescState) : Prop where
  tracked : ReadsTracked s.ns
  asked : ∀ x ∈ s.planned, ∀ a, s.ns.attempts x.1 = some a →
    a.reads.length = a.op.needs ∧ (a.op.isHeld = false → x.2 = a.op.asks a.read)
  closed : ∀ x ∈ s.planned, ∀ ino, x.2 = some ino → s.files.count ino = 0
  released : ∀ c ∈ s.orphans, s.files.count c.ino = 0
  read : ∀ c ∈ s.orphans, ∀ rec, c.read = some (some rec) → rec.ino = c.ino

namespace Heeded

variable {s t : DescState} {node : NodeID}

theorem name (h : Heeded s) {step : NsStep} {ns : NsState}
    (hstep : namespaceOps.step s.ns step = some ns) :
    Heeded { s with ns := ns, planned := s.plannedAfter step } := by
  refine ⟨h.tracked.step hstep, fun x hx a ha => ?_,
    fun x hx => h.closed x (s.mem_plannedAfter hx), h.released, h.read⟩
  have hold := s.mem_plannedAfter hx
  rcases s.ne_of_mem_plannedAfter hx with hne | rfl
  · rw [attempts_of_ne hstep hne] at ha
    exact h.asked x hold a ha
  · -- an unlink that has asked has made all its reads
    obtain ⟨a', ha', hstep⟩ := bind_eq_some_iff.mp hstep
    obtain ⟨hlt, -⟩ := ite_none_right_eq_some.mp hstep
    exact absurd (h.asked x hold a' ha').1 (Nat.ne_of_lt hlt)

theorem plan (h : Heeded s) {id : Nat} {a : Attempt} (ha : s.ns.attempts id = some a)
    (hop : a.op.isUnlink = true) (hlen : a.reads.length = a.op.needs)
    (hnew : id ∉ s.planned.map Prod.fst) :
    Heeded { s with
      ns := s.ns.setAttempt id (some ⟨a.op.told (s.answer a).1, a.reads⟩)
      files := (s.answer a).2
      planned := (id, s.denied a) :: s.planned } := by
  refine ⟨⟨h.tracked.own, ?_⟩, ?_, ?_, ?_, h.read⟩
  · refine forall_setAttempt h.tracked.reads id fun b hb => ?_
    cases hb
    exact h.tracked.reads id a ha
  · intro x hx b hb
    rcases mem_cons.mp hx with rfl | hx
    · obtain rfl := some.inj ((attempts_setAttempt.mp hb).resolve_right (by simp)).2
      refine ⟨hlen.trans (a.op.needs_told _).symm, fun hno => ?_⟩
      rw [NsOp.isHeld_told _ _ hop] at hno
      rw [DescState.denied, hno, if_neg Bool.false_ne_true]
      exact (a.op.asks_told _ _).symm
    · have hne : x.1 ≠ id := fun he => hnew (he ▸ mem_map_of_mem hx)
      exact h.asked x hx b ((attempts_setAttempt.mp hb).resolve_left (by simp [hne])).2
  · intro x hx ino hino
    rw [DescState.count_answer]
    rcases mem_cons.mp hx with rfl | hx
    · exact s.count_of_denied a hino
    · exact h.closed x hx ino hino
  · intro c hc
    rw [DescState.count_answer]
    exact h.released c hc

theorem retain (h : Heeded s) {ino : Nat} (hplan : ∀ x ∈ s.planned, x.2 ≠ some ino)
    (horphan : ∀ c ∈ s.orphans, c.ino ≠ ino) :
    Heeded { s with files := s.files.retain ino } := by
  refine ⟨h.tracked, h.asked, fun x hx i hi => ?_, fun c hc => ?_, h.read⟩
  · have hne : i ≠ ino := by
      rintro rfl
      exact hplan x hx hi
    rw [OpenFiles.count_retain_of_ne _ _ _ hne]
    exact h.closed x hx i hi
  · rw [OpenFiles.count_retain_of_ne _ _ _ (horphan c hc)]
    exact h.released c hc

theorem release (h : Heeded s) (ino : Nat) : Heeded { s with
      files := (s.files.release ino).2
      orphans := if (s.files.release ino).1 then ⟨ino, none⟩ :: s.orphans else s.orphans } := by
  have hle : ∀ i, s.files.count i = 0 → (s.files.release ino).2.count i = 0 := fun i hi =>
    Nat.le_zero.mp (hi ▸ s.files.count_release_le ino i)
  refine ⟨h.tracked, h.asked, fun x hx i hi => hle i (h.closed x hx i hi), ?_, ?_⟩
  · split
    · next hlast =>
      refine forall_mem_cons.mpr ⟨s.files.count_release_last ino hlast, fun c hc => ?_⟩
      exact hle _ (h.released c hc)
    · exact fun c hc => hle _ (h.released c hc)
  · split
    · exact forall_mem_cons.mpr ⟨by simp, h.read⟩
    · exact h.read

theorem readOrphan (h : Heeded s) {ino : Nat} (hmem : ⟨ino, none⟩ ∈ s.orphans) : Heeded { s with
      orphans := ⟨ino, some (getInode s.ns.tree ino)⟩ :: s.orphans.erase ⟨ino, none⟩ } := by
  refine ⟨h.tracked, h.asked, h.closed, forall_mem_cons.mpr ⟨h.released ⟨ino, none⟩ hmem, ?_⟩,
    forall_mem_cons.mpr ⟨?_, ?_⟩⟩
  · exact fun c hc => h.released c (mem_of_mem_erase hc)
  · exact fun rec hrec => h.tracked.own ino rec (some.inj hrec)
  · exact fun c hc => h.read c (mem_of_mem_erase hc)

theorem dropOrphan (h : Heeded s) (ino : Nat) (read : Option InodeRecord) (now : Time) :
    Heeded { s with
      ns := { s.ns with tree := s.ns.tree.commit (deleteOrphan node ino read now) }
      orphans := s.orphans.erase ⟨ino, some read⟩ } := by
  refine ⟨⟨fun i rec hrec => h.tracked.own i rec (getInode_deleteOrphan hrec),
      fun id a ha r hr => (h.tracked.reads id a ha r hr).commit _⟩, h.asked, h.closed,
    fun c hc => h.released c (mem_of_mem_erase hc),
    fun c hc => h.read c (mem_of_mem_erase hc)⟩

end Heeded

theorem heeded_step {node : NodeID} {s t : DescState} {step : DescStep} (h : Heeded s)
    (hheed : HeedsDescriptors s step) (hstep : (descriptors node).step s step = some t) :
    Heeded t := by
  cases step with
  | name step =>
    obtain ⟨-, hstep⟩ := ite_none_right_eq_some.mp hstep
    obtain ⟨ns, hns, rfl⟩ := map_eq_some_iff.mp hstep
    exact h.name hns
  | plan id =>
    obtain ⟨a, ha, hstep⟩ := bind_eq_some_iff.mp hstep
    obtain ⟨⟨hop, hlen, hnew⟩, rfl⟩ := ite_some_none_eq_some.mp hstep
    exact h.plan ha hop hlen hnew
  | retain ino =>
    cases hstep
    exact h.retain hheed.1 hheed.2
  | release ino =>
    obtain ⟨-, ht⟩ := ite_none_left_eq_some.mp hstep
    cases ht
    exact h.release ino
  | readOrphan ino =>
    obtain ⟨hmem, rfl⟩ := ite_some_none_eq_some.mp hstep
    exact h.readOrphan hmem
  | dropOrphan ino read now =>
    obtain ⟨-, rfl⟩ := ite_some_none_eq_some.mp hstep
    exact h.dropOrphan ino read now

theorem keepsOpenFiles_step {node : NodeID} {s t : DescState} {step : DescStep} (h : Heeded s)
    (hheed : HeedsDescriptors s step) (hstep : (descriptors node).step s step = some t) :
    KeepsOpenFiles s t := by
  intro ino rec hrec hfile hopen hgone
  have hsome : (getInode s.ns.tree ino).isSome := isSome_iff_exists.mpr ⟨rec, hrec⟩
  cases step with
  | name step =>
    obtain ⟨hready, hstep⟩ := ite_none_right_eq_some.mp hstep
    obtain ⟨ns, hns, rfl⟩ := map_eq_some_iff.mp hstep
    cases happ : s.ns.applied step with
    | none =>
      rw [tree_of_not_applied hns happ, hrec] at hgone
      cases hgone
    | some x =>
      obtain ⟨a, tx⟩ := x
      rw [tree_of_applied hns happ] at hgone
      have hdel := mem_deletedInodes_of_gone hsome hgone
      rcases removed_file h.tracked happ hrec hfile hdel with hrename | ⟨hop, hno, hasks⟩
      · exact hopen (hheed (a, tx) happ hrename ino hdel rec hrec hfile)
      · obtain ⟨id, now, rfl, ha, -⟩ := applied_eq_some happ
        obtain ⟨x, hx, rfl⟩ := mem_map.mp (hready a ha hop)
        have htold := (h.asked x hx a ha).2 hno
        exact hopen (h.closed x hx ino (htold.trans hasks))
  | plan id =>
    obtain ⟨a, ha, hstep⟩ := bind_eq_some_iff.mp hstep
    obtain ⟨-, rfl⟩ := ite_some_none_eq_some.mp hstep
    rw [show getInode (s.ns.setAttempt id _).tree ino = some rec from hrec] at hgone
    cases hgone
  | retain i =>
    cases hstep
    rw [hrec] at hgone
    cases hgone
  | release i =>
    obtain ⟨-, ht⟩ := ite_none_left_eq_some.mp hstep
    cases ht
    rw [hrec] at hgone
    cases hgone
  | readOrphan i =>
    obtain ⟨-, rfl⟩ := ite_some_none_eq_some.mp hstep
    rw [hrec] at hgone
    cases hgone
  | dropOrphan i read now =>
    obtain ⟨hmem, rfl⟩ := ite_some_none_eq_some.mp hstep
    have hdel := mem_deletedInodes.mp (mem_deletedInodes_of_gone hsome hgone)
    rcases deleteOrphan_deletes hdel with he | ⟨old, hold, -, he | ⟨he, -⟩⟩
    · cases he
    · obtain rfl : ino = old.ino := Key.inode.inj (Op.delete.inj he)
      have hown : old.ino = i := h.read _ hmem old (congrArg some hold)
      rw [hown] at hopen
      exact hopen (h.released _ hmem)
    · cases he

structure Still (s : DescState) : Prop where
  own : Own s.ns.tree
  idle : ∀ id, s.ns.attempts id = none
  planned : s.planned = []
  orphans : s.orphans = []

/-- From a node with nothing in flight, no step of any run deletes the record of a regular
file that is open, if no rename takes the last name of one and nothing is opened while
it is about to be deleted. -/
theorem along_keepsOpenFiles {node : NodeID} {s : DescState} (h : Still s)
    {steps : List DescStep}
    (hheed : (descriptors node).Along (fun s step _ => HeedsDescriptors s step) s steps) :
    (descriptors node).Along (fun s _ t => KeepsOpenFiles s t) s steps := by
  have hinv : Heeded s := by
    refine ⟨ReadsTracked.of_idle h.own h.idle, ?_, ?_, ?_, ?_⟩ <;> simp [h.planned, h.orphans]
  refine Machine.Along.of_invariant (I := Heeded) ?_ hinv hheed
  exact fun s step t hs hc hstep => ⟨heeded_step hs hc hstep, keepsOpenFiles_step hs hc hstep⟩

def freshNode : DescState where
  ns := freshRoot
  files := ⟨fun _ => 0, fun _ => false⟩
  planned := []
  orphans := []

theorem freshNode_still : Still freshNode where
  own := freshRoot_atRest.sound.own
  idle := freshRoot_atRest.idle
  planned := rfl
  orphans := rfl

def unlinkedOpen : List DescStep :=
  [.name (.start 0 (.create 1 "f" (newFile 2 0o100644 0 0 0) noExtra)), .name (.commit 0 1),
    .retain 2, .name (.start 0 (.unlink "n" 1 "f" false)), .name (.read 0), .name (.read 0),
    .plan 0, .name (.commit 0 2), .release 2, .readOrphan 2,
    .dropOrphan 2 (some { (newFile 2 0o100644 0 0 0).record with nlink := 0, ctime := 2 }) 3,
    .name (.start 0 (.create 1 "f" (newFile 3 0o100644 0 0 0) noExtra)), .name (.commit 0 4),
    .retain 3, .name (.start 1 (.create 1 "g" (newFile 4 0o100644 0 0 0) noExtra)),
    .name (.commit 1 5), .release 3, .name (.start 0 (.rename ⟨1, "g", 1, "f", 4, 0, false⟩)),
    .name (.read 0), .name (.read 0), .name (.read 0), .name (.read 0), .name (.read 0),
    .name (.read 0), .name (.commit 0 6)]

theorem unlinkedOpen_keepsOpenFiles :
    ((descriptors "n").exec freshNode unlinkedOpen).isSome = true ∧
      (descriptors "n").Along (fun s _ t => KeepsOpenFiles s t) freshNode unlinkedOpen :=
  ⟨by decide +kernel, along_keepsOpenFiles freshNode_still (by decide +kernel)⟩

def openTarget : List DescStep :=
  [.name (.start 0 (.create 1 "f" (newFile 2 0o100644 0 0 0) noExtra)), .name (.commit 0 1),
    .retain 2, .name (.start 0 (.create 1 "g" (newFile 3 0o100644 0 0 0) noExtra)),
    .name (.commit 0 2), .name (.start 0 (.rename ⟨1, "g", 1, "f", 3, 0, false⟩)),
    .name (.read 0), .name (.read 0), .name (.read 0), .name (.read 0), .name (.read 0),
    .name (.read 0)]

/-- The rename commits and the record of the open file is gone. -/
theorem openTarget_deleted :
    ∃ s t, (descriptors "n").exec freshNode openTarget = some s ∧
      (descriptors "n").step s (.name (.commit 0 3)) = some t ∧ s.files.count 2 = 1 ∧
      t.files.count 2 = 1 ∧ getInode t.ns.tree 2 = none ∧ ¬ KeepsOpenFiles s t := by
  have hrun : (((descriptors "n").exec freshNode openTarget).any fun s =>
      ((descriptors "n").step s (.name (.commit 0 3))).any fun t =>
        (getInode s.ns.tree 2).any (fun rec => decide (IsFile rec)) && s.files.count 2 == 1 &&
          t.files.count 2 == 1 && (getInode t.ns.tree 2).isNone) = true := by
    decide +kernel
  obtain ⟨s, hs, hrun⟩ := (Option.any_eq_true ..).mp hrun
  obtain ⟨t, ht, h⟩ := (Option.any_eq_true ..).mp hrun
  simp only [Bool.and_eq_true, Option.any_eq_true, decide_eq_true_eq, beq_iff_eq,
    isNone_iff_eq_none] at h
  obtain ⟨⟨⟨⟨rec, hrec, hfile⟩, hopen⟩, hopen'⟩, hgone⟩ := h
  refine ⟨s, t, hs, ht, hopen, hopen', hgone, fun hkeep => ?_⟩
  exact hkeep 2 rec hrec hfile (by rw [hopen]; exact Nat.one_ne_zero) hgone

end EtcFS.Correctness
