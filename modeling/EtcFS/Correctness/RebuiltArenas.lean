import EtcFS.Arena.Reconstruct

/-!
# Allocating after a rebuild

`Reconstruct` installs a node's arenas before it reads the extents in them. If that read fails, the
arenas stay with nothing marked.
-/

namespace EtcFS.Correctness

open EtcFS.Core Metadata Arena Option

def Untouched (s : Life) (step : LifeStep) (_ : Life) : Prop :=
  match step with
  | .allocate size => ∀ runs ∈ (allocate s.arenas size).1,
      ∀ b ∈ runs.flatMap Run.blocks, b ∉ touched s.extents
  | .free _ _ | .acquire _ _ _ _ | .release _ | .publish _ => True

instance (s : Life) (step : LifeStep) (t : Life) : Decidable (Untouched s step t) := by
  cases step <;> simp only [Untouched] <;> infer_instance

def ReachesInto (i : Nat) (e : ExtentValue) : Prop := ∃ b ∈ e.deviceBlocks, (fresh i).Has b
  deriving Decidable

def StartMarked (records : List (List UInt8)) (extents : List ExtentValue)
    (fault : Option ReconstructRead) : Prop :=
  fault = some .records ∨
    (Separate (existingArenaIDs records) ∧
      ∀ i ∈ existingArenaIDs records, ∀ e ∈ extents, ReachesInto i e →
        fault = none ∧ ShownIn i e)
  deriving Decidable

def StepMarked (s : Life) (step : LifeStep) (_ : Life) : Prop :=
  match step with
  | .acquire i reused _ _ => i ∉ s.arenas.map Arena.arenaID ∧ i + 1 < 2 ^ 34 ∧
      ∀ e ∈ s.extents, ReachesInto i e → reused = true ∧ ShownIn i e
  | .free diskOff size => ∀ b ∈ freedBlocks diskOff size, b ∉ touched s.extents
  | .allocate _ | .release _ | .publish _ => True

instance (s : Life) (step : LifeStep) (t : Life) : Decidable (StepMarked s step t) := by
  cases step <;> simp only [StepMarked] <;> infer_instance

def Held (arenas : List Arena) (b : Nat) : Prop := ∃ ar ∈ arenas, ar.Has b

structure Kept (s : Life) : Prop where
  tidy : Tidy s.arenas
  live : ∀ b, Available s.arenas b → b ∉ touched s.extents
  handed : ∀ b ∈ s.handed, Held s.arenas b ∧ ¬ Available s.arenas b

variable {arenas : List Arena}

theorem Available.held {b : Nat} (h : Available arenas b) : Held arenas b := by
  obtain ⟨ar, hm, hfree⟩ := h
  exact ⟨ar, hm, hfree.1⟩

theorem held_of_ids {arenas' : List Arena} {b : Nat}
    (h : arenas'.map Arena.arenaID = arenas.map Arena.arenaID) (hb : Held arenas b) :
    Held arenas' b := by
  obtain ⟨ar, hm, hhas⟩ := hb
  obtain ⟨ar', hm', hall⟩ := exists_has_of_ids h ⟨ar, hm, List.forall_mem_singleton.mpr hhas⟩
  exact ⟨ar', hm', hall b (List.mem_singleton_self b)⟩

section

variable {s t : Life}

theorem Kept.allocate (h : Kept s) {size : Nat}
    (hstep : allocatorLife.step s (.allocate size) = some t) :
    Kept t ∧ Untouched s (.allocate size) t := by
  cases hstep
  obtain ⟨hsome, hnone, hids, htidy⟩ := allocate_spec size h.tidy
  have havail : ∀ b, Available (allocate s.arenas size).2 b → Available s.arenas b := by
    intro b hb
    cases hres : (allocate s.arenas size).1 with
    | none => exact hnone hres b hb
    | some runs => exact (((hsome runs hres).1.left b).mp hb).1
  refine ⟨⟨htidy, fun b hb => h.live b (havail b hb), ?_⟩, ?_⟩
  · intro b hb
    rcases List.mem_append.mp hb with hb | hb
    · obtain ⟨hheld, hno⟩ := h.handed b hb
      exact ⟨held_of_ids hids hheld, fun hav => hno (havail b hav)⟩
    · cases hres : (allocate s.arenas size).1 with
      | none => simp [hres] at hb
      | some runs =>
        rw [hres, getD_some] at hb
        have htaken := (hsome runs hres).1
        exact ⟨held_of_ids hids (Available.held (htaken.free b hb)),
          fun hav => ((htaken.left b).mp hav).2 hb⟩
  · intro runs hruns b hb
    exact h.live b ((hsome runs hruns).1.free b hb)

theorem Kept.free (h : Kept s) {diskOff size : Nat} (hguard : StepMarked s (.free diskOff size) t)
    (hstep : allocatorLife.step s (.free diskOff size) = some t) : Kept t := by
  cases hstep
  obtain ⟨havail, hids, htidy⟩ := freeLocked_spec diskOff size h.tidy
  have hfreed : ∀ b, Available (freeLocked diskOff size s.arenas) b →
      Available s.arenas b ∨ b ∈ freedBlocks diskOff size := by
    intro b hb
    rw [freedBlocks, List.mem_range'_1]
    exact havail b hb
  refine ⟨htidy, ?_, ?_⟩
  · intro b hb
    rcases hfreed b hb with hb | hb
    · exact h.live b hb
    · exact hguard b hb
  · intro b hb
    obtain ⟨hm, hout⟩ := List.mem_filter.mp hb
    obtain ⟨hheld, hno⟩ := h.handed b hm
    refine ⟨held_of_ids hids hheld, fun hav => ?_⟩
    rcases hfreed b hav with hav | hin
    · exact hno hav
    · exact of_decide_eq_true hout hin

theorem Kept.attach (h : Kept s) {ar : Arena} (hid : ar.arenaID ∉ s.arenas.map Arena.arenaID)
    (hlt : ar.arenaID + 1 < 2 ^ 34) (hfits : ar.Fits)
    (hfree : ∀ b, ar.Free b → b ∉ touched s.extents) :
    Kept { s with arenas := s.arenas ++ [ar] } := by
  have havail : ∀ b, Available (s.arenas ++ [ar]) b ↔ Available s.arenas b ∨ ar.Free b := by
    intro b
    simp only [Available, List.mem_append, List.mem_singleton, or_and_right, exists_or,
      exists_eq_left]
  refine ⟨⟨⟨?_, ?_⟩, ?_⟩, ?_, ?_⟩
  · rw [List.map_append, List.map_singleton]
    rw [List.nodup_append]
    refine ⟨h.tidy.separate.1, List.nodup_singleton _, ?_⟩
    rintro i hi j hj rfl
    rw [List.mem_singleton.mp hj] at hi
    exact hid hi
  · intro i hi
    rw [List.map_append, List.map_singleton, List.mem_append, List.mem_singleton] at hi
    rcases hi with hi | rfl
    · exact h.tidy.separate.2 i hi
    · exact hlt
  · intro ar' hm
    rcases List.mem_append.mp hm with hm | hm
    · exact h.tidy.fits ar' hm
    · rw [List.mem_singleton.mp hm]
      exact hfits
  · intro b hb
    rcases (havail b).mp hb with hb | hb
    · exact h.live b hb
    · exact hfree b hb
  · intro b hb
    obtain ⟨⟨ar', hm, hhas⟩, hno⟩ := h.handed b hb
    refine ⟨⟨ar', List.mem_append_left _ hm, hhas⟩, fun hav => ?_⟩
    rcases (havail b).mp hav with hav | hav
    · exact hno hav
    · have hid' : ar'.arenaID ∈ s.arenas.map Arena.arenaID := List.mem_map_of_mem hm
      exact hid (arenaID_eq_of_has (h.tidy.separate.2 _ hid') hlt hhas hav.1 ▸ hid')

theorem Kept.acquire (h : Kept s) {i : Nat} {reused recorded answered : Bool}
    (hm : StepMarked s (.acquire i reused recorded answered) t)
    (hstep : allocatorLife.step s (.acquire i reused recorded answered) = some t) : Kept t := by
  cases hstep
  obtain ⟨hid, hlt, hext⟩ := hm
  rcases acquireArena_cases s.deviceSize s.arenas s.extents i reused recorded answered with
    he | ⟨hr, he⟩ | ⟨hr, he⟩
  · rw [he]
    exact h
  · rw [he]
    refine h.attach hid hlt (fresh_hint_fits i) ?_
    intro b hb hin
    obtain ⟨e, hme, hbe⟩ := mem_touched.mp hin
    have hreused := (hext e hme ⟨b, hbe, hb.1⟩).1
    rw [hr] at hreused
    cases hreused
  · have hmark := (markLiveExtents_ids (fresh i) s.extents).1
    rw [he]
    refine h.attach (hmark ▸ hid) (hmark ▸ hlt) (markLiveExtents_fits (fresh_hint_fits i)) ?_
    intro b hb hin
    obtain ⟨e, hme, hbe⟩ := mem_touched.mp hin
    have hshown := (hext e hme ⟨b, hbe, has_markLiveExtents.mp hb.1⟩).2
    exact not_free_markLiveExtents (fresh i) hlt hme hshown hbe hb

theorem free_of_isEmpty {ar : Arena} (h : isEmpty ar = true) {b : Nat} (hb : ar.Has b) :
    ar.Free b := by
  refine ⟨hb, ?_⟩
  have hword := List.all_eq_true.mp h ((b - ar.firstBlock) / 64) ?_
  · rw [Words.isClear_eq, beq_iff_eq.mp hword]
    simp
  · rw [List.mem_range]
    simp only [Has, blocksPerArena, arenaSizeBytes, blockSize] at hb ⊢
    omega

theorem reattached_sublist (empty : List Arena) (replies : List ReleaseReply) :
    (reattached empty replies).Sublist empty := by
  induction empty generalizing replies with
  | nil => simp [reattached]
  | cons ar empty ih =>
    match replies with
    | [] | .failed :: _ => exact List.singleton_sublist.mpr List.mem_cons_self
    | .released :: replies => exact (ih replies).cons ar
    | .refused :: replies => exact (ih replies).cons_cons ar

theorem Kept.release (h : Kept s) {replies : List ReleaseReply}
    (hstep : allocatorLife.step s (.release replies) = some t) : Kept t := by
  cases hstep
  have hsub := reattached_sublist (s.arenas.filter isEmpty) replies
  have hperm : ((s.arenas.filter (!isEmpty ·)) ++ s.arenas.filter isEmpty).Perm s.arenas :=
    List.perm_append_comm.trans (List.filter_append_perm isEmpty s.arenas)
  have hall : (releaseEmptyArenas s.arenas replies).Subperm s.arenas :=
    (hsub.append_left _).subperm.trans hperm.subperm
  have hmem : ∀ ar ∈ releaseEmptyArenas s.arenas replies, ar ∈ s.arenas := fun ar hm =>
    hall.subset hm
  have hids : ((releaseEmptyArenas s.arenas replies).map Arena.arenaID).Subperm
      (s.arenas.map Arena.arenaID) := by
    obtain ⟨l, hp, hs⟩ := hall
    exact ⟨l.map Arena.arenaID, hp.map _, hs.map _⟩
  have havail : ∀ b, Available (releaseEmptyArenas s.arenas replies) b → Available s.arenas b := by
    rintro b ⟨ar, hm, hfree⟩
    exact ⟨ar, hmem ar hm, hfree⟩
  refine ⟨⟨⟨?_, fun i hi => h.tidy.separate.2 i (hids.subset hi)⟩, fun ar hm => h.tidy.fits ar
    (hmem ar hm)⟩, fun b hb => h.live b (havail b hb), ?_⟩
  · obtain ⟨l, hp, hs⟩ := hids
    exact hp.nodup_iff.mp (h.tidy.separate.1.sublist hs)
  · intro b hb
    obtain ⟨⟨ar, hm, hhas⟩, hno⟩ := h.handed b hb
    refine ⟨⟨ar, List.mem_append_left _ (List.mem_filter.mpr ⟨hm, ?_⟩), hhas⟩,
      fun hav => hno (havail b hav)⟩
    rw [Bool.not_eq_true']
    by_contra hempty
    exact hno ⟨ar, hm, free_of_isEmpty (by simpa using hempty) hhas⟩

theorem Kept.publish (h : Kept s) {extents : List ExtentValue}
    (hstep : allocatorLife.step s (.publish extents) = some t) : Kept t := by
  obtain ⟨hguard, rfl⟩ := ite_some_none_eq_some.mp hstep
  refine ⟨h.tidy, ?_, h.handed⟩
  intro b hb hin
  rcases hguard b hin with hold | hhanded | hout
  · exact h.live b hb hold
  · exact (h.handed b hhanded).2 hb
  · obtain ⟨ar, hm, hhas⟩ := Available.held hb
    exact hout ar hm hhas

end

theorem kept_step {s t : Life} {step : LifeStep} (h : Kept s) (hm : StepMarked s step t)
    (hstep : allocatorLife.step s step = some t) : Kept t ∧ Untouched s step t := by
  cases step with
  | allocate size => exact h.allocate hstep
  | free diskOff size => exact ⟨h.free hm hstep, trivial⟩
  | acquire i reused recorded answered => exact ⟨h.acquire hm hstep, trivial⟩
  | release replies => exact ⟨h.release hstep, trivial⟩
  | publish extents => exact ⟨h.publish hstep, trivial⟩

theorem kept_installed {deviceSize : Nat} (ids : List Nat) {extents : List ExtentValue}
    (hsep : Separate ids) (hids : arenas.map Arena.arenaID = ids) (hfits : ∀ ar ∈ arenas, ar.Fits)
    (hfree : ∀ ar ∈ arenas, ∀ b, ar.Free b → b ∉ touched extents) :
    Kept ⟨deviceSize, arenas, extents, []⟩ where
  tidy := ⟨hids ▸ hsep, hfits⟩
  live := by
    rintro b ⟨ar, hm, hb⟩
    exact hfree ar hm b hb
  handed := by simp

theorem kept_restarted (deviceSize : Nat) {records : List (List UInt8)} {extents : List ExtentValue}
    {fault : Option ReconstructRead} (h : StartMarked records extents fault) :
    Kept (restarted deviceSize records extents fault) := by
  have hempty : Kept ⟨deviceSize, [], extents, []⟩ :=
    kept_installed [] ⟨List.nodup_nil, by simp⟩ rfl (by simp) (by simp)
  rcases h with rfl | ⟨hsep, hext⟩
  · exact hempty
  · cases fault with
    | none =>
      refine kept_installed (existingArenaIDs records) hsep ?_ ?_ ?_
      · simp [reconstruct, Function.comp_def, markLiveExtents_ids, fresh]
      · intro ar hm
        obtain ⟨ar', hm', rfl⟩ := List.mem_map.mp hm
        obtain ⟨i, -, rfl⟩ := List.mem_map.mp hm'
        exact markLiveExtents_fits (fresh_hint_fits i)
      · intro ar hm b hb hin
        obtain ⟨ar', hm', rfl⟩ := List.mem_map.mp hm
        obtain ⟨i, hi, rfl⟩ := List.mem_map.mp hm'
        obtain ⟨e, hme, hbe⟩ := mem_touched.mp hin
        have hshown := (hext i hi e hme ⟨b, hbe, has_markLiveExtents.mp hb.1⟩).2
        exact not_free_markLiveExtents (fresh i) (hsep.2 i hi) hme hshown hbe hb
    | some read =>
      cases read with
      | records => exact hempty
      | extents =>
        refine kept_installed (existingArenaIDs records) hsep ?_ ?_ ?_
        · simp [reconstruct, Function.comp_def, fresh]
        · intro ar hm
          obtain ⟨i, -, rfl⟩ := List.mem_map.mp hm
          exact fresh_hint_fits i
        · intro ar hm b hb hin
          obtain ⟨i, hi, rfl⟩ := List.mem_map.mp hm
          obtain ⟨e, hme, hbe⟩ := mem_touched.mp hin
          -- nothing is marked, so nothing may reach in
          cases (hext i hi e hme ⟨b, hbe, hb.1⟩).1

/-- Whatever a node reads of its arenas at its start and whatever it does from then on,
no allocation gets a block that an extent touches, as long as every extent that reaches
into an arena it takes in is read and marked there, and only blocks without a live byte
are freed. -/
theorem along_untouched {deviceSize : Nat} {records : List (List UInt8)}
    {extents : List ExtentValue} {fault : Option ReconstructRead} {steps : List LifeStep}
    (h : StartMarked records extents fault)
    (hsteps : allocatorLife.Along StepMarked (restarted deviceSize records extents fault) steps) :
    allocatorLife.Along Untouched (restarted deviceSize records extents fault) steps :=
  Machine.Along.of_invariant (fun _ _ _ hs hm hstep => kept_step hs hm hstep)
    (kept_restarted deviceSize h) hsteps

/-- Arena 0 with a live extent in its first block, rebuilt in full. The node allocates,
publishes, frees what it overwrote and takes a used arena. -/
theorem along_untouched_rebuilt :
    let own : List ExtentValue := [⟨0, 0, 4096, 1, 1, "a"⟩]
    allocatorLife.Along Untouched (restarted 0 [[0, 0, 0, 0, 0, 0, 0, 0]] own none)
      [.allocate 5000, .publish [⟨0, 4096, 5000, 1, 2, "a"⟩], .free 0 4096, .allocate 1,
        .acquire 3 true true true, .release [.refused], .allocate 8192] :=
  along_untouched (by decide +kernel) (by decide +kernel)

/-- The same arena and extent. The read of the extents fails, and the first allocation
gets the extent's block. -/
theorem failed_read_hands_out_live_block :
    let start := restarted 0 [[0, 0, 0, 0, 0, 0, 0, 0]] [⟨0, 0, 4096, 1, 1, "a"⟩] (some .extents)
    allocatorLife.Along StepMarked start [.allocate 1] ∧
      (allocate start.arenas 1).1 = some [⟨0, 4096⟩] ∧
      ¬ allocatorLife.Along Untouched start [.allocate 1] := by
  refine ⟨by decide +kernel, by decide +kernel, by decide +kernel⟩

end EtcFS.Correctness
