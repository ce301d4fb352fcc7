import EtcFS.Arena.Reconstruct
import EtcFS.Arena.Supply

/-!
# What an allocation grants

A request is granted exactly if there are as many free blocks as it needs. The number of blocks is
computed in 64 bits and may wrap to zero.
-/

namespace EtcFS.Correctness

open EtcFS.Core Metadata Arena List Option

inductive AllocatorCall where
  | allocate (size : Nat)
  | free (diskOff size : Nat)
  deriving DecidableEq, Repr

def allocatorCalls : Machine (List Arena) AllocatorCall where
  step arenas
    | .allocate size => some (allocate arenas size).2
    | .free diskOff size => some (freeLocked diskOff size arenas)

def OnlyTaken (runs : List Run) (arenas arenas' : List Arena) : Prop :=
  List.Forall₂ (fun ar ar' => ar'.arenaID = ar.arenaID ∧
    ∀ b, ar.Has b → (ar'.Free b ↔ ar.Free b ∧ b ∉ runs.flatMap Run.blocks)) arenas arenas'

structure Granted (arenas : List Arena) (size : Nat) (runs : List Run) (arenas' : List Arena) :
    Prop where
  whole : ∀ r ∈ runs, r.Whole
  disjoint : (runs.flatMap Run.blocks).Nodup
  inside : ∀ r ∈ runs, ∃ ar ∈ arenas, ∀ b ∈ r.blocks, ar.Free b
  total : (runs.map Run.length).sum = blocksFor size * blockSize
  bits : OnlyTaken runs arenas arenas'

section

variable {arenas arenas' : List Arena} {runs : List Run} {size : Nat}

theorem tidy_step {call : AllocatorCall} (h : Tidy arenas)
    (hstep : allocatorCalls.step arenas call = some arenas') : Tidy arenas' := by
  cases call with
  | allocate size =>
    cases hstep
    exact (allocate_spec size h).2.2.2
  | free diskOff size =>
    cases hstep
    exact (freeLocked_spec diskOff size h).2.2

theorem onlyTaken_of_available (h : Tidy arenas) (h' : Tidy arenas')
    (hids : arenas'.map Arena.arenaID = arenas.map Arena.arenaID)
    (havail : ∀ b, Available arenas' b ↔ Available arenas b ∧ b ∉ runs.flatMap Run.blocks) :
    OnlyTaken runs arenas arenas' := by
  have hlen : arenas.length = arenas'.length := by
    have hmap := congrArg length hids
    rw [length_map, length_map] at hmap
    exact hmap.symm
  refine forall₂_iff_get.mpr ⟨hlen, fun i hi hi' => ?_⟩
  have hid : (arenas'.get ⟨i, hi'⟩).arenaID = (arenas.get ⟨i, hi⟩).arenaID := by
    have hget := congrArg (fun ids => ids[i]?) hids
    simpa [hi, hi'] using hget
  refine ⟨hid, fun b hb => ?_⟩
  rw [h.free_iff (get_mem ..) hb, h'.free_iff (get_mem ..) ((has_of_id hid).mpr hb),
    havail]

theorem granted_of_tidy (h : Tidy arenas) (hsize : size + blockSize ≤ 2 ^ 64) :
    ((allocate arenas size).1.isSome = true ↔ blocksFor size ≤ supply arenas) ∧
      (∀ runs ∈ (allocate arenas size).1, Granted arenas size runs (allocate arenas size).2) ∧
      ((allocate arenas size).1 = none → OnlyTaken [] arenas (allocate arenas size).2) := by
  have hblocks : blocksFor64 size = blocksFor size := by
    simp only [blocksFor64, blocksFor, blockSize] at *
    omega
  obtain ⟨hsome, -, hids, htidy⟩ := allocate_spec size h
  refine ⟨?_, fun runs hruns => ?_, fun hnone => ?_⟩
  · rw [← hblocks]
    exact allocate_isSome_iff h.fits
  · obtain ⟨htaken, hsum⟩ := hsome runs hruns
    exact ⟨htaken.whole, htaken.nodup, allocate_inside h.fits runs hruns, by rw [hsum, hblocks],
      onlyTaken_of_available h htidy hids htaken.left⟩
  · refine onlyTaken_of_available h htidy hids fun b => ?_
    rw [available_of_allocate_none h hnone]
    exact (and_iff_left not_mem_nil).symm

end

/-- Arenas apart from each other, with any bitmaps, are searched from their first block
and then called in any way. The next request of a size that does not wrap succeeds
exactly if there are enough free blocks, and does what it should in either case. -/
theorem allocate_grants {start arenas : List Arena} {calls : List AllocatorCall} {size : Nat}
    (hsep : Separate (start.map Arena.arenaID)) (hhint : ∀ ar ∈ start, ar.hint = 0)
    (hrun : allocatorCalls.exec start calls = some arenas) (hsize : size + blockSize ≤ 2 ^ 64) :
    ((allocate arenas size).1.isSome = true ↔ blocksFor size ≤ supply arenas) ∧
      (∀ runs ∈ (allocate arenas size).1, Granted arenas size runs (allocate arenas size).2) ∧
      ((allocate arenas size).1 = none → OnlyTaken [] arenas (allocate arenas size).2) := by
  have hstart : Tidy start := ⟨hsep, fun ar hm => by
    rw [Fits, hhint ar hm]
    exact Nat.zero_le _⟩
  have htidy : Tidy arenas :=
    Machine.Along.invariant (fun _ _ _ h _ hstep => tidy_step h hstep) hstart
      (Machine.along_true start calls) hrun
  exact granted_of_tidy htidy hsize

/-- Two arenas after an allocation of two blocks and a free of the first. -/
theorem allocate_grants_twoArenas :
    let arenas := freeLocked 0 100 (allocate [fresh 0, fresh 5] 6000).2
    ((allocate arenas 4096).1.isSome = true ↔ 1 ≤ supply arenas) ∧
      (∀ runs ∈ (allocate arenas 4096).1, Granted arenas 4096 runs (allocate arenas 4096).2) ∧
      ((allocate arenas 4096).1 = none → OnlyTaken [] arenas (allocate arenas 4096).2) := by
  intro arenas
  have hrun : allocatorCalls.exec [fresh 0, fresh 5] [.allocate 6000, .free 0 100] =
      some arenas := rfl
  exact allocate_grants (by decide) (by decide) hrun (by decide)

/-- Without an arena there is no free block, and a request of the largest size is granted. -/
theorem wrapped_size_granted :
    (allocate [] (2 ^ 64 - 1)).1 = some [] ∧
      ¬ blocksFor (2 ^ 64 - 1) ≤ supply [] ∧
      ¬ Granted [] (2 ^ 64 - 1) [] (allocate [] (2 ^ 64 - 1)).2 := by
  refine ⟨by decide, by decide, fun h => ?_⟩
  have htotal : ((([] : List Run).map Run.length).sum = blocksFor (2 ^ 64 - 1) * blockSize) :=
    h.total
  exact absurd htotal (by decide)

/-- What an allocation took and is given back, run by run and in any order, leaves every arena
with the free blocks it had. -/
theorem freed_runs_restore {arenas : List Arena} (htidy : Tidy arenas) {size : Nat}
    {runs freed : List Run} (hruns : (allocate arenas size).1 = some runs)
    (hperm : freed.Perm runs) : OnlyTaken [] arenas
      (freed.foldl (fun as r => freeLocked r.diskOff r.length as) (allocate arenas size).2) := by
  obtain ⟨hsome, -, hids, htidy'⟩ := allocate_spec size htidy
  obtain ⟨htaken, -⟩ := hsome runs hruns
  obtain ⟨hback, hids', htidy''⟩ := undo_spec freed htidy'
  have hmem : ∀ {b}, b ∈ freed.flatMap Run.blocks ↔ b ∈ runs.flatMap Run.blocks :=
    (hperm.flatMap_right _).mem_iff
  refine onlyTaken_of_available htidy htidy'' (hids'.trans hids) fun b => ?_
  refine Iff.trans ?_ (and_iff_left not_mem_nil).symm
  constructor
  · intro hb
    rcases hback b hb with hb | hb
    · exact ((htaken.left b).mp hb).1
    · exact htaken.free b (hmem.mp hb)
  · intro hb
    refine available_undo htidy' (fun r hr => htaken.whole r (hperm.mem_iff.mp hr)) ?_ ?_
    · intro r hr
      obtain ⟨ar, hm, hfree⟩ := allocate_inside htidy.fits runs hruns r (hperm.mem_iff.mp hr)
      exact exists_has_of_ids hids ⟨ar, hm, fun b hb => (hfree b hb).1⟩
    · by_cases hm : b ∈ runs.flatMap Run.blocks
      · exact .inr (hmem.mpr hm)
      · exact .inl ((htaken.left b).mpr ⟨hb, hm⟩)

theorem freed_runs_restore_twoArenas : ∃ runs, (allocate [fresh 0, fresh 5] 6000).1 = some runs ∧
    OnlyTaken [] [fresh 0, fresh 5] (runs.reverse.foldl
      (fun as r => freeLocked r.diskOff r.length as) (allocate [fresh 0, fresh 5] 6000).2) := by
  obtain ⟨runs, hruns⟩ := isSome_iff_exists.mp
    (by decide +kernel : (allocate [fresh 0, fresh 5] 6000).1.isSome = true)
  have htidy : Tidy [fresh 0, fresh 5] := ⟨by decide, by simp [Fits, fresh]⟩
  exact ⟨runs, hruns, freed_runs_restore htidy hruns runs.reverse_perm⟩

end EtcFS.Correctness
