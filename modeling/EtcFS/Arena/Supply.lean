import EtcFS.Arena.Search

/-!
# How much an allocation finds

What an allocation cannot cover is what it asks for beyond all free blocks, and then it leaves the
bitmaps as they were.
-/

namespace EtcFS.Arena

open EtcFS.Core Metadata List

def freeBlocks (ar : Arena) : Nat := (ar.bitmap.clearBits blocksPerArena).card

def supply (arenas : List Arena) : Nat := (arenas.map freeBlocks).sum

section

variable {ar : Arena} {want : Nat}

theorem freeBlocks_eq_zero (hmax : 0 < want) (h : (ar.findRun want).2.1 = 0) :
    ar.freeBlocks = 0 := by
  rw [findRun] at h
  dsimp only at h
  split at h
  · rename_i hpos
    exact absurd h (Nat.ne_of_gt hpos)
  · rename_i hfirst
    split at h
    · rename_i hpos
      exact absurd h (Nat.ne_of_gt hpos)
    · rename_i hsecond
      rw [freeBlocks, Finset.card_eq_zero, Finset.eq_empty_iff_forall_notMem]
      intro c hc
      obtain ⟨hlt, hclear⟩ := Words.mem_clearBits.mp hc
      have hfalse : ar.bitmap.isClear c = false := by
        by_cases hhint : ar.hint ≤ c
        · exact Words.findRunIn_complete hmax (Nat.le_refl _) (Nat.eq_zero_of_not_pos hfirst)
            hhint hlt
        · exact Words.findRunIn_complete hmax (Nat.le_refl _) (Nat.eq_zero_of_not_pos hsecond)
            (Nat.zero_le c) (not_le.mp hhint)
      rw [hfalse] at hclear
      cases hclear

theorem fill_left {fuel : Nat} (h : ar.Fits) (hfuel : want ≤ fuel) :
    (fill fuel want ar).2.2 = want - ar.freeBlocks := by
  induction fuel generalizing want ar with
  | zero =>
    obtain rfl := Nat.le_zero.mp hfuel
    rw [fill, Nat.zero_sub]
  | succ fuel ih =>
    rw [fill]
    split
    · rename_i hw
      rw [hw, Nat.zero_sub]
    · rename_i hw
      obtain ⟨hle, hrun, hid, hmap, hfits⟩ := findRun_spec h want
      have hnone : (ar.findRun want).2.1 = 0 → ar.freeBlocks = 0 :=
        freeBlocks_eq_zero (Nat.pos_of_ne_zero hw)
      rcases hfound : ar.findRun want with ⟨start, length, ar'⟩
      simp only [hfound] at hle hrun hid hmap hfits hnone
      cases length with
      | zero =>
        show want = want - ar.freeBlocks
        rw [hnone rfl, Nat.sub_zero]
      | succ length =>
        have hcount : (ar'.markRun start (length + 1)).freeBlocks + (length + 1) =
            ar.freeBlocks := by
          rw [freeBlocks, freeBlocks, markRun, hmap]
          exact Words.card_clearBits_setRange hrun
        have hleft : (fill fuel (want - (length + 1)) (ar'.markRun start (length + 1))).2.2 =
            want - (length + 1) - (ar'.markRun start (length + 1)).freeBlocks :=
          ih hfits (by omega)
        show (fill fuel (want - (length + 1)) (ar'.markRun start (length + 1))).2.2 = _
        rw [hleft]
        omega

end

section

variable {arenas : List Arena} {want size b : Nat}

theorem allocateFrom_left (h : ∀ ar ∈ arenas, ar.Fits) :
    (allocateFrom want arenas).2.2 = want - supply arenas := by
  induction arenas generalizing want with
  | nil => rfl
  | cons ar arenas ih =>
    obtain ⟨hhead, htail⟩ := forall_mem_cons.mp h
    have hfill : (fill want want ar).2.2 = want - ar.freeBlocks := fill_left hhead (Nat.le_refl _)
    have hsum : supply (ar :: arenas) = ar.freeBlocks + supply arenas := by
      rw [supply, map_cons, sum_cons, supply]
    rcases hres : fill want want ar with ⟨runs, ar', left⟩
    rw [hres] at hfill
    dsimp only at hfill
    rw [allocateFrom, hres]
    cases left with
    | zero =>
      show 0 = want - supply (ar :: arenas)
      omega
    | succ left =>
      show (allocateFrom (left + 1) arenas).2.2 = want - supply (ar :: arenas)
      rw [ih htail]
      omega

theorem allocateFrom_inside (h : ∀ ar ∈ arenas, ar.Fits) :
    ∀ r ∈ (allocateFrom want arenas).1, ∃ ar ∈ arenas, ∀ b ∈ r.blocks, ar.Free b := by
  induction arenas generalizing want with
  | nil =>
    intro r hr
    cases hr
  | cons ar arenas ih =>
    obtain ⟨hhead, htail⟩ := forall_mem_cons.mp h
    have hfree := (fill_spec want want ar hhead).1.free
    rcases hres : fill want want ar with ⟨runs, ar', left⟩
    rw [hres] at hfree
    have hruns : ∀ r ∈ runs, ∃ x ∈ ar :: arenas, ∀ b ∈ r.blocks, x.Free b := by
      intro r hr
      exact ⟨ar, mem_cons_self, fun b hb => hfree b (mem_flatMap.mpr ⟨r, hr, hb⟩)⟩
    rw [allocateFrom, hres]
    cases left with
    | zero => exact hruns
    | succ left =>
      intro r hr
      rcases mem_append.mp hr with hr | hr
      · exact hruns r hr
      · obtain ⟨x, hx, hin⟩ := ih htail r hr
        exact ⟨x, mem_cons_of_mem _ hx, hin⟩

theorem allocate_inside (h : ∀ ar ∈ arenas, ar.Fits) :
    ∀ runs ∈ (allocate arenas size).1, ∀ r ∈ runs, ∃ ar ∈ arenas, ∀ b ∈ r.blocks, ar.Free b := by
  intro runs hruns r hr
  have hinside : ∀ r ∈ (allocateFrom (blocksFor64 size) arenas).1,
      ∃ ar ∈ arenas, ∀ b ∈ r.blocks, ar.Free b := allocateFrom_inside h
  rw [allocate] at hruns
  split at hruns
  · cases hruns
    cases hr
  · rcases hres : allocateFrom (blocksFor64 size) arenas with ⟨taken, arenas', left⟩
    rw [hres] at hruns hinside
    cases left with
    | zero =>
      cases hruns
      exact hinside r hr
    | succ left => cases hruns

theorem allocate_isSome_iff (h : ∀ ar ∈ arenas, ar.Fits) :
    (allocate arenas size).1.isSome = true ↔ blocksFor64 size ≤ supply arenas := by
  have hleft : (allocateFrom (blocksFor64 size) arenas).2.2 =
      blocksFor64 size - supply arenas := allocateFrom_left h
  rw [allocate]
  split
  · rename_i hw
    rw [hw]
    exact iff_of_true rfl (Nat.zero_le _)
  · rcases hres : allocateFrom (blocksFor64 size) arenas with ⟨runs, arenas', left⟩
    rw [hres] at hleft
    cases left with
    | zero => exact iff_of_true rfl (Nat.sub_eq_zero_iff_le.mp hleft.symm)
    | succ left =>
      refine iff_of_false Bool.false_ne_true ?_
      dsimp only at hleft
      omega

/-! ## Giving back -/

variable {ar : Arena} {diskOff : Nat}

theorem free_freeRange_of_free (h : ar.Free b) : (ar.freeRange diskOff size).Free b :=
  ⟨h.1, Words.isClear_clearRange.mpr (.inl h.2)⟩

theorem available_freeLocked_of_available (h : Available arenas b) :
    Available (freeLocked diskOff size arenas) b := by
  induction arenas with
  | nil => exact h
  | cons ar arenas ih =>
    rw [freeLocked]
    rw [available_cons] at h
    split
    · rw [available_cons]
      exact h.imp_left free_freeRange_of_free
    · rw [available_cons]
      exact h.imp_right ih

theorem has_first_last {r : Run} (hpos : 0 < r.length) (hin : ∀ b ∈ r.blocks, ar.Has b) :
    ar.Has (r.diskOff / blockSize) ∧ r.length ≤ arenaSizeBytes := by
  have hcount : 0 < blocksFor r.length := by
    simp only [blocksFor, blockSize]
    omega
  have hfirst := hin (r.diskOff / blockSize) (mem_rangeBlocks.mpr (by omega))
  have hlast := hin (r.diskOff / blockSize + (blocksFor r.length - 1))
    (mem_rangeBlocks.mpr (by omega))
  refine ⟨hfirst, ?_⟩
  simp only [Has, blocksFor, blockSize, blocksPerArena, arenaSizeBytes] at *
  omega

theorem free_freeRange_of_mem {r : Run} (hin : ∀ b ∈ r.blocks, ar.Has b)
    (hoff : ar.diskStart ≤ r.diskOff) (hlen : r.length ≤ arenaSizeBytes) (hb : b ∈ r.blocks) :
    (ar.freeRange r.diskOff r.length).Free b := by
  refine ⟨hin b hb, Words.isClear_clearRange.mpr (.inr ?_)⟩
  have hhas := hin b hb
  have hmul := ar.firstBlock_mul
  rw [Run.blocks, mem_rangeBlocks] at hb
  rw [Has] at hhas
  have hfirst : (ar.freeRange r.diskOff r.length).firstBlock = ar.firstBlock := rfl
  rw [hfirst]
  simp only [blocksFor64, blocksFor, blockSize, blocksPerArena, arenaSizeBytes] at *
  omega

theorem diskStart_le_iff_has (hid : ar.arenaID + 1 < 2 ^ 34) (hd : blockSize ∣ diskOff) :
    ar.diskStart ≤ diskOff ∧ diskOff < ar.diskEnd ↔ ar.Has (diskOff / blockSize) := by
  have hmul := ar.firstBlock_mul
  have hfirst := firstBlock_of_lt hid
  have hend : ar.diskEnd = (ar.arenaID + 1) * arenaSizeBytes := by
    refine Nat.mod_eq_of_lt ?_
    simp only [arenaSizeBytes]
    omega
  obtain ⟨k, rfl⟩ := hd
  rw [Has, hend, ← hmul, hfirst]
  simp only [blockSize, blocksPerArena, arenaSizeBytes] at *
  omega

theorem available_freeLocked_of_mem {r : Run} (h : Tidy arenas) (hr : r.Whole)
    (hm : ar ∈ arenas) (hin : ∀ b ∈ r.blocks, ar.Has b) (hb : b ∈ r.blocks) :
    Available (freeLocked r.diskOff r.length arenas) b := by
  obtain ⟨hpos, -, hd⟩ := hr
  obtain ⟨hfirst, hlen⟩ := has_first_last hpos hin
  have hid : ∀ x ∈ arenas, x.arenaID + 1 < 2 ^ 34 := fun x hx =>
    h.separate.2 _ (mem_map_of_mem hx)
  have hlt := hid ar hm
  clear h
  induction arenas with
  | nil => cases hm
  | cons x arenas ih =>
    have hx := hid x mem_cons_self
    rw [freeLocked]
    split
    · rename_i hmatch
      -- the arena the free meets has the first block, so it is the run's
      have heq := arenaID_eq_of_has hx hlt ((diskStart_le_iff_has hx hd).mp hmatch) hfirst
      have hin' : ∀ b ∈ r.blocks, x.Has b := fun b hb => (has_of_id heq).mpr (hin b hb)
      exact available_cons.mpr (.inl (free_freeRange_of_mem hin' hmatch.1 hlen hb))
    · rename_i hmiss
      rcases mem_cons.mp hm with rfl | hm
      · exact absurd ((diskStart_le_iff_has hx hd).mpr hfirst) hmiss
      · exact available_cons.mpr (.inr (ih hm fun y hy => hid y (mem_cons_of_mem _ hy)))

theorem available_undo {runs : List Run} (h : Tidy arenas) (hr : ∀ r ∈ runs, r.Whole)
    (hin : ∀ r ∈ runs, ∃ ar ∈ arenas, ∀ b ∈ r.blocks, ar.Has b)
    (hb : Available arenas b ∨ b ∈ runs.flatMap Run.blocks) :
    Available (runs.foldl (fun as r => freeLocked r.diskOff r.length as) arenas) b := by
  induction runs generalizing arenas with
  | nil => exact hb.resolve_right not_mem_nil
  | cons r runs ih =>
    obtain ⟨hr, hruns⟩ := forall_mem_cons.mp hr
    obtain ⟨⟨ar, hm, hhas⟩, hrest⟩ := forall_mem_cons.mp hin
    obtain ⟨-, hids, htidy⟩ := freeLocked_spec r.diskOff r.length h
    refine ih htidy hruns ?_ ?_
    · exact fun r' hr' => exists_has_of_ids hids (hrest r' hr')
    · rw [flatMap_cons, mem_append] at hb
      rcases hb with hb | hb | hb
      · exact .inl (available_freeLocked_of_available hb)
      · exact .inl (available_freeLocked_of_mem h hr hm hhas hb)
      · exact .inr hb

theorem available_of_allocate_none (h : Tidy arenas) (hnone : (allocate arenas size).1 = none) :
    Available (allocate arenas size).2 b ↔ Available arenas b := by
  refine ⟨(allocate_spec size h).2.1 hnone b, fun hb => ?_⟩
  obtain ⟨htaken, -, hids, hfits⟩ := allocateFrom_spec (blocksFor64 size) h
  have hinside : ∀ r ∈ (allocateFrom (blocksFor64 size) arenas).1,
      ∃ ar ∈ arenas, ∀ b ∈ r.blocks, ar.Free b := allocateFrom_inside h.fits
  have htidy := h.of_ids hids hfits
  rw [allocate] at hnone ⊢
  split at hnone
  · cases hnone
  · rename_i hwant
    rw [if_neg hwant]
    rcases hres : allocateFrom (blocksFor64 size) arenas with ⟨runs, arenas', left⟩
    simp only [hres] at htaken hids htidy hinside hnone
    cases left with
    | zero => cases hnone
    | succ left =>
      refine available_undo htidy htaken.whole ?_ ?_
      · intro r hr
        obtain ⟨ar, hm, hfree⟩ := hinside r hr
        exact exists_has_of_ids hids ⟨ar, hm, fun b hb => (hfree b hb).1⟩
      · by_cases hmem : b ∈ runs.flatMap Run.blocks
        · exact .inr hmem
        · exact .inl ((htaken.left b).mpr ⟨hb, hmem⟩)

theorem Tidy.free_iff (h : Tidy arenas) (hm : ar ∈ arenas) (hb : ar.Has b) :
    ar.Free b ↔ Available arenas b := by
  refine ⟨fun hfree => ⟨ar, hm, hfree⟩, ?_⟩
  rintro ⟨x, hx, hfree⟩
  have hid : x.arenaID = ar.arenaID := arenaID_eq_of_has
    (h.separate.2 _ (mem_map_of_mem hx)) (h.separate.2 _ (mem_map_of_mem hm)) hfree.1 hb
  have heq : x = ar := inj_on_of_nodup_map h.separate.1 hx hm hid
  exact heq ▸ hfree

/-! ## Blocks freed twice -/

def doubleFreed (diskOff size : Nat) : List Arena → Nat
  | [] => 0
  | ar :: arenas =>
    if ar.diskStart ≤ diskOff ∧ diskOff < ar.diskEnd then
      let start := (diskOff - ar.diskStart) / blockSize
      ((range' start (min (blocksFor64 size) (blocksPerArena - start))).filter fun c =>
        ar.bitmap.isClear c).length
    else doubleFreed diskOff size arenas

theorem doubleFreed_eq_zero (h : ∀ b ∈ rangeBlocks diskOff size, ¬ Available arenas b) :
    doubleFreed diskOff size arenas = 0 := by
  induction arenas with
  | nil => rfl
  | cons ar arenas ih =>
    rw [doubleFreed]
    split
    · rename_i hin
      refine length_eq_zero_iff.mpr (filter_eq_nil_iff.mpr fun c hc hclear => ?_)
      rw [mem_range'_1] at hc
      have hoff := div_blockSize_eq hin.1
      have hle := blocksFor64_le size
      refine h (ar.firstBlock + c) (mem_rangeBlocks.mpr (by omega)) (available_cons.mpr ?_)
      refine .inl ⟨⟨Nat.le_add_right .., by omega⟩, ?_⟩
      rwa [Nat.add_sub_cancel_left]
    · exact ih fun b hb havail => h b hb (available_cons.mpr (.inr havail))

end

end EtcFS.Arena
