import EtcFS.Correctness.LinkCounts
import EtcFS.Namespace.Edits

/-!
# What becomes of a record and of a name

Whatever runs at once, a record keeps its type as long as it is there, and a name that exists comes
to mean another inode only by a rename.
-/

namespace EtcFS.Correctness

open EtcFS.Core Namespace Ipc Option
open Metadata hiding Key Val getInode

def KeepsRecords (s : NsState) (step : NsStep) (t : NsState) : Prop :=
  ∀ ino rec, getInode t.tree ino = some rec →
    (∃ old, getInode s.tree ino = some old ∧ rec.mode = old.mode ∧ rec.ino = old.ino) ∨
      getInode s.tree ino = none ∧ rec.ino = ino ∧ ∃ x ∈ s.applied step, x.1.op.makes = some rec

def RebindsByRename (s : NsState) (step : NsStep) (t : NsState) : Prop :=
  ∀ parent name i j, lookupDirent s.tree parent name = some i →
    lookupDirent t.tree parent name = some j → i ≠ j →
      ∃ x ∈ s.applied step, ∃ r ∈ x.1.op.renameArgs, r.new = ⟨parent, name, j⟩

/-- As long as an inode has a record, no operation on names changes its type or its
permissions, and a record comes into being only as the one that a create makes. -/
theorem along_keepsRecords {s : NsState} (hown : Own s.tree)
    (hidle : ∀ id, s.attempts id = none) (steps : List NsStep) :
    namespaceOps.Along KeepsRecords s steps := by
  refine Machine.Along.of_invariant (I := ReadsTracked) ?_ (.of_idle hown hidle)
    (Machine.along_true _ steps)
  intro s step t h _ hstep
  refine ⟨h.step hstep, fun ino rec hrec => ?_⟩
  cases happ : s.applied step with
  | none =>
    rw [tree_of_not_applied hstep happ] at hrec
    exact .inl ⟨rec, hrec, rfl, rfl⟩
  | some x =>
    rw [tree_of_applied hstep happ] at hrec
    refine (getInode_commit_cases (h.edits happ) hrec).imp_right ?_
    rintro ⟨hmakes, hino, hfree⟩
    exact ⟨hfree, hino, x, rfl, hmakes⟩

theorem busyRun_keepsRecords : namespaceOps.Along KeepsRecords freshRoot busyRun :=
  along_keepsRecords freshRoot_atRest.sound.own freshRoot_atRest.idle busyRun

/-- Whichever nodes race for a name, one that exists is never taken over by a create or a link:
it comes to mean another inode only by a rename. -/
theorem along_rebindsByRename {s : NsState} (hown : Own s.tree)
    (hidle : ∀ id, s.attempts id = none) (steps : List NsStep) :
    namespaceOps.Along RebindsByRename s steps := by
  refine Machine.Along.of_invariant (I := ReadsTracked) ?_ (.of_idle hown hidle)
    (Machine.along_true _ steps)
  intro s step t h _ hstep
  refine ⟨h.step hstep, fun parent name i j hi hj hne => ?_⟩
  cases happ : s.applied step with
  | none =>
    rw [tree_of_not_applied hstep happ] at hj
    exact absurd (some.inj (hi.symm.trans hj)) hne
  | some x =>
    obtain ⟨a, tx⟩ := x
    rw [tree_of_applied hstep happ] at hj
    obtain ⟨v, hv, rfl⟩ := map_eq_some_iff.mp hj
    rcases Store.get_commit_cases hv with ⟨hold, -⟩ | ⟨hput, -⟩
    · exact absurd (some.inj (hi.symm.trans (lookupDirent_of_get hold))) hne
    · generalize v.value = j at hput ⊢
      cases h.edits happ _ hput with
      | name e he =>
        obtain ⟨id, now, -, -, -, hplan, -, hcmps⟩ := applied_eq_some happ
        rcases (plan_of_adds hplan he).2 with hrename | habsent
        · exact ⟨_, rfl, hrename⟩
        · rw [lookupDirent, Store.holds_absent.mp (hcmps _ habsent)] at hi
          cases hi
      | aside _ ha => cases ha

theorem busyRun_rebindsByRename : namespaceOps.Along RebindsByRename freshRoot busyRun :=
  along_rebindsByRename freshRoot_atRest.sound.own freshRoot_atRest.idle busyRun

end EtcFS.Correctness
