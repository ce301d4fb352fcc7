import EtcFS.Arena.Allocator
import EtcFS.Core.Bitmap

/-!
# The search for free blocks

`Allocate` fills a request from as many runs as it takes, arena by arena, and gives everything back
if the arenas cannot cover it.
-/

structure EtcFS.Arena where
  arenaID : Nat
  bitmap : EtcFS.Core.Words
  hint : Nat

namespace EtcFS.Arena

open EtcFS.Core Metadata List

def arenaSizeBytes : Nat := 2 ^ 30

def blocksPerArena : Nat := arenaSizeBytes / blockSize

def blocksFor64 (n : Nat) : Nat := (n + blockSize - 1) % 2 ^ 64 / blockSize

def diskStart (ar : Arena) : Nat := ar.arenaID * arenaSizeBytes % 2 ^ 64

def diskEnd (ar : Arena) : Nat := (ar.arenaID + 1) * arenaSizeBytes % 2 ^ 64

def findRun (ar : Arena) (max : Nat) : Nat × Nat × Arena :=
  let found := ar.bitmap.findRunIn blocksPerArena max (blocksPerArena - ar.hint) ar.hint
  if 0 < found.2 then (found.1, found.2, { ar with hint := found.1 + found.2 })
  else
    let wrapped := ar.bitmap.findRunIn ar.hint max ar.hint 0
    if 0 < wrapped.2 then (wrapped.1, wrapped.2, { ar with hint := wrapped.1 + wrapped.2 })
    else (0, 0, ar)

def markRun (ar : Arena) (start length : Nat) : Arena :=
  { ar with bitmap := ar.bitmap.setRange start length }

def fill : Nat → Nat → Arena → List Run × Arena × Nat
  | 0, want, ar => ([], ar, want)
  | fuel + 1, want, ar =>
    if want = 0 then ([], ar, 0)
    else
      match ar.findRun want with
      | (_, 0, ar') => ([], ar', want)
      | (start, length, ar') =>
        match fill fuel (want - length) (ar'.markRun start length) with
        | (runs, ar'', left) =>
          (⟨ar.diskStart + start * blockSize, length * blockSize⟩ :: runs, ar'', left)

def freeRange (ar : Arena) (diskOff size : Nat) : Arena :=
  let start := (diskOff - ar.diskStart) / blockSize
  { ar with
    bitmap := ar.bitmap.clearRange start (min (blocksFor64 size) (blocksPerArena - start))
    -- what was just returned is reused before sweeping forward again
    hint := if start < ar.hint then start else ar.hint }

def allocateFrom : Nat → List Arena → List Run × List Arena × Nat
  | want, [] => ([], [], want)
  | want, ar :: arenas =>
    match ar.fill want want with
    | (runs, ar', 0) => (runs, ar' :: arenas, 0)
    | (runs, ar', left) =>
      match allocateFrom left arenas with
      | (runs', arenas', left') => (runs ++ runs', ar' :: arenas', left')

def freeLocked (diskOff size : Nat) : List Arena → List Arena
  | [] => []
  | ar :: arenas =>
    if ar.diskStart ≤ diskOff ∧ diskOff < ar.diskEnd then ar.freeRange diskOff size :: arenas
    else ar :: freeLocked diskOff size arenas

def allocate (arenas : List Arena) (size : Nat) : Option (List Run) × List Arena :=
  let want := blocksFor64 size
  if want = 0 then (some [], arenas)
  else
    match allocateFrom want arenas with
    | (runs, arenas', 0) => (some runs, arenas')
    | (runs, arenas', _) =>
      (none, runs.foldl (fun as r => freeLocked r.diskOff r.length as) arenas')

/-! ## The blocks an arena has -/

def firstBlock (ar : Arena) : Nat := ar.diskStart / blockSize

def Has (ar : Arena) (b : Nat) : Prop := ar.firstBlock ≤ b ∧ b < ar.firstBlock + blocksPerArena
  deriving Decidable

def Free (ar : Arena) (b : Nat) : Prop :=
  ar.Has b ∧ ar.bitmap.isClear (b - ar.firstBlock) = true
  deriving Decidable

def Fits (ar : Arena) : Prop := ar.hint ≤ blocksPerArena

variable {b : Nat}

theorem has_of_id {ar ar' : Arena} (h : ar'.arenaID = ar.arenaID) : ar'.Has b ↔ ar.Has b := by
  simp only [Has, firstBlock, diskStart, h]

theorem exists_has_of_ids {arenas arenas' : List Arena} {blocks : List Nat}
    (hids : arenas'.map Arena.arenaID = arenas.map Arena.arenaID)
    (h : ∃ ar ∈ arenas, ∀ b ∈ blocks, ar.Has b) : ∃ ar ∈ arenas', ∀ b ∈ blocks, ar.Has b := by
  obtain ⟨ar, hm, hhas⟩ := h
  have hid : ar.arenaID ∈ arenas'.map Arena.arenaID := hids ▸ mem_map_of_mem hm
  obtain ⟨ar', hm', heq⟩ := mem_map.mp hid
  exact ⟨ar', hm', fun b hb => (has_of_id heq).mpr (hhas b hb)⟩

theorem blockSize_dvd_arenaSizeBytes : blockSize ∣ arenaSizeBytes := by decide

theorem blockSize_dvd_diskStart (ar : Arena) : blockSize ∣ ar.diskStart := by
  have h64 : blockSize ∣ 2 ^ 64 := by decide
  exact (Nat.dvd_mod_iff h64).mpr (Dvd.dvd.mul_left blockSize_dvd_arenaSizeBytes _)

theorem firstBlock_mul (ar : Arena) : ar.firstBlock * blockSize = ar.diskStart :=
  Nat.div_mul_cancel ar.blockSize_dvd_diskStart

theorem mem_blocks_run {ar : Arena} {start length : Nat} :
    b ∈ Run.blocks ⟨ar.diskStart + start * blockSize, length * blockSize⟩ ↔
      ar.firstBlock + start ≤ b ∧ b < ar.firstBlock + start + length := by
  have hdiv : (ar.diskStart + start * blockSize) / blockSize = ar.firstBlock + start :=
    Nat.add_mul_div_right _ _ (by decide)
  have hlen : blocksFor (length * blockSize) = length := by
    simp only [blocksFor, blockSize]
    omega
  rw [Run.blocks, mem_rangeBlocks, hdiv, hlen]

structure Taken (avail avail' : Nat → Prop) (runs : List Run) : Prop where
  whole : ∀ r ∈ runs, r.Whole
  nodup : (runs.flatMap Run.blocks).Nodup
  free : ∀ b ∈ runs.flatMap Run.blocks, avail b
  left : ∀ b, avail' b ↔ avail b ∧ b ∉ runs.flatMap Run.blocks

namespace Taken

variable {A B C R : Nat → Prop} {runs runs' : List Run}

theorem nil (A : Nat → Prop) : Taken A A [] := by
  constructor <;> simp

theorem trans (h : Taken A B runs) (h' : Taken B C runs') : Taken A C (runs ++ runs') where
  whole := by
    intro r hr
    rcases mem_append.mp hr with hr | hr
    · exact h.whole r hr
    · exact h'.whole r hr
  nodup := by
    rw [flatMap_append, nodup_append]
    refine ⟨h.nodup, h'.nodup, ?_⟩
    rintro b hb b' hb' rfl
    exact ((h.left b).mp (h'.free b hb')).2 hb
  free := by
    intro b hb
    rw [flatMap_append, mem_append] at hb
    rcases hb with hb | hb
    · exact h.free b hb
    · exact ((h.left b).mp (h'.free b hb)).1
  left := by
    intro b
    rw [h'.left, h.left, flatMap_append, mem_append, not_or, and_assoc]

theorem congr {A' B' : Nat → Prop} (h : Taken A B runs) (hA : ∀ b, A' b ↔ A b)
    (hB : ∀ b, B' b ↔ B b) : Taken A' B' runs where
  whole := h.whole
  nodup := h.nodup
  free := fun b hb => (hA b).mpr (h.free b hb)
  left := fun b => by rw [hB, hA, h.left]

theorem frame (h : Taken A B runs) (hR : ∀ b, A b → ¬ R b) :
    Taken (fun b => A b ∨ R b) (fun b => B b ∨ R b) runs where
  whole := h.whole
  nodup := h.nodup
  free := fun b hb => .inl (h.free b hb)
  left := by
    intro b
    rw [h.left]
    constructor
    · rintro (⟨hA, hn⟩ | hr)
      · exact ⟨.inl hA, hn⟩
      · exact ⟨.inr hr, fun hb => hR b (h.free b hb) hr⟩
    · rintro ⟨hA | hr, hn⟩
      · exact .inl ⟨hA, hn⟩
      · exact .inr hr

end Taken

variable {ar : Arena} {max want : Nat}

theorem findRun_spec (h : ar.Fits) (max : Nat) : (ar.findRun max).2.1 ≤ max ∧
      (∀ c < (ar.findRun max).2.1, (ar.findRun max).1 + c < blocksPerArena ∧
        ar.bitmap.isClear ((ar.findRun max).1 + c) = true) ∧
      (ar.findRun max).2.2.arenaID = ar.arenaID ∧ (ar.findRun max).2.2.bitmap = ar.bitmap ∧
      (ar.findRun max).2.2.Fits := by
  obtain ⟨hle, hrun⟩ :=
    ar.bitmap.findRunIn_spec blocksPerArena max (blocksPerArena - ar.hint) ar.hint
  obtain ⟨hle', hrun'⟩ := ar.bitmap.findRunIn_spec ar.hint max ar.hint 0
  rw [findRun]
  dsimp only
  split
  · rename_i hpos
    refine ⟨hle, hrun, rfl, rfl, ?_⟩
    have hlast := (hrun _ (Nat.sub_lt hpos Nat.one_pos)).1
    simp only [Fits]
    omega
  · split
    · rename_i hpos
      have hlast := (hrun' _ (Nat.sub_lt hpos Nat.one_pos)).1
      refine ⟨hle', fun c hc => ⟨lt_of_lt_of_le (hrun' c hc).1 h, (hrun' c hc).2⟩, rfl, rfl, ?_⟩
      simp only [Fits] at h ⊢
      omega
    · exact ⟨Nat.zero_le _, by simp, rfl, rfl, h⟩

theorem taken_markRun (ar : Arena) {start length : Nat} (hpos : 0 < length)
    (hrun : ∀ c < length, start + c < blocksPerArena ∧ ar.bitmap.isClear (start + c) = true) :
    Taken ar.Free (ar.markRun start length).Free
      [⟨ar.diskStart + start * blockSize, length * blockSize⟩] where
  whole := by
    simp only [mem_singleton, forall_eq, Run.Whole]
    refine ⟨Nat.mul_pos hpos (by decide), Nat.dvd_mul_left .., ?_⟩
    exact Nat.dvd_add ar.blockSize_dvd_diskStart (Nat.dvd_mul_left ..)
  nodup := by
    rw [flatMap_singleton]
    exact nodup_range' ..
  free := by
    intro b hb
    rw [flatMap_singleton, mem_blocks_run] at hb
    obtain ⟨hlt, hclear⟩ := hrun (b - ar.firstBlock - start) (by omega)
    have he : start + (b - ar.firstBlock - start) = b - ar.firstBlock := by omega
    rw [he] at hlt hclear
    exact ⟨⟨by omega, by omega⟩, hclear⟩
  left := by
    intro b
    rw [flatMap_singleton, mem_blocks_run]
    simp only [Free, Has, markRun, firstBlock, diskStart, Words.isClear_setRange]
    constructor
    · rintro ⟨hhas, hclear, hout⟩
      refine ⟨⟨hhas, hclear⟩, ?_⟩
      omega
    · rintro ⟨⟨hhas, hclear⟩, hout⟩
      refine ⟨hhas, hclear, ?_⟩
      omega

theorem fill_spec (fuel want : Nat) (ar : Arena) (h : ar.Fits) :
    Taken ar.Free (fill fuel want ar).2.1.Free (fill fuel want ar).1 ∧
      ((fill fuel want ar).1.map Run.length).sum + (fill fuel want ar).2.2 * blockSize =
        want * blockSize ∧
      (fill fuel want ar).2.1.arenaID = ar.arenaID ∧ (fill fuel want ar).2.1.Fits := by
  induction fuel generalizing want ar with
  | zero => exact ⟨.nil _, by simp [fill], rfl, h⟩
  | succ fuel ih =>
    rw [fill]
    split
    · rename_i hw
      exact ⟨.nil _, by simp [hw], rfl, h⟩
    · obtain ⟨hle, hrun, hid, hmap, hfits⟩ := findRun_spec h want
      rcases hfound : ar.findRun want with ⟨start, length, ar'⟩
      simp only [hfound] at hle hrun hid hmap hfits
      obtain ⟨arenaID, bitmap, hint⟩ := ar'
      obtain rfl : arenaID = ar.arenaID := hid
      obtain rfl : bitmap = ar.bitmap := hmap
      cases length with
      | zero => exact ⟨.nil _, by simp, rfl, hfits⟩
      | succ length =>
        have hmark : Taken ar.Free (markRun ⟨ar.arenaID, ar.bitmap, hint⟩ start (length + 1)).Free
            [⟨ar.diskStart + start * blockSize, (length + 1) * blockSize⟩] :=
          taken_markRun ⟨ar.arenaID, ar.bitmap, hint⟩ (Nat.succ_pos _) hrun
        obtain ⟨htaken, hsum, hid', hfits'⟩ :=
          ih (want - (length + 1)) (markRun ⟨ar.arenaID, ar.bitmap, hint⟩ start (length + 1)) hfits
        refine ⟨hmark.trans htaken, ?_, hid', hfits'⟩
        rcases hrest : fill fuel (want - (length + 1))
          (markRun ⟨ar.arenaID, ar.bitmap, hint⟩ start (length + 1)) with ⟨runs, ar'', left⟩
        have hmul : want * blockSize =
            (length + 1) * blockSize + (want - (length + 1)) * blockSize := by
          rw [← Nat.add_mul, Nat.add_sub_cancel' hle]
        simp only [hrest, map_cons, sum_cons] at hsum ⊢
        omega

theorem div_blockSize_eq {diskOff : Nat} (hin : ar.diskStart ≤ diskOff) :
    diskOff / blockSize = ar.firstBlock + (diskOff - ar.diskStart) / blockSize := by
  have hmul := ar.firstBlock_mul
  have hsplit : diskOff = (diskOff - ar.diskStart) + ar.firstBlock * blockSize := by omega
  rw [hsplit, Nat.add_mul_div_right _ _ (by decide), ← hsplit]
  omega

theorem free_freeRange {diskOff size : Nat} (hin : ar.diskStart ≤ diskOff)
    (hb : (ar.freeRange diskOff size).Free b) :
    ar.Free b ∨ (diskOff / blockSize ≤ b ∧ b < diskOff / blockSize + blocksFor64 size) := by
  obtain ⟨hhas, hclear⟩ := hb
  have hfirst : (ar.freeRange diskOff size).firstBlock = ar.firstBlock := rfl
  have hhas' : ar.Has b := hhas
  rw [hfirst] at hclear
  rcases Words.isClear_clearRange.mp hclear with hclear | ⟨hlo, hhi⟩
  · exact .inl ⟨hhas', hclear⟩
  · refine .inr ?_
    have hoff := div_blockSize_eq hin
    obtain ⟨hlow, -⟩ := hhas'
    omega

theorem fits_freeRange {diskOff size : Nat} (h : ar.Fits) : (ar.freeRange diskOff size).Fits := by
  simp only [Fits, freeRange] at *
  split <;> omega

/-! ## The blocks a list of arenas has -/

def Available (arenas : List Arena) (b : Nat) : Prop := ∃ ar ∈ arenas, ar.Free b
  deriving Decidable

def reserved (arenas : List Arena) : Bitmap := fun b => !decide (Available arenas b)

def Separate (ids : List Nat) : Prop := ids.Nodup ∧ ∀ i ∈ ids, i + 1 < 2 ^ 34
  deriving Decidable

structure Tidy (arenas : List Arena) : Prop where
  separate : Separate (arenas.map Arena.arenaID)
  fits : ∀ ar ∈ arenas, ar.Fits

theorem firstBlock_of_lt {ar : Arena} (h : ar.arenaID + 1 < 2 ^ 34) :
    ar.firstBlock = ar.arenaID * blocksPerArena := by
  have hlt : ar.arenaID * arenaSizeBytes < 2 ^ 64 := by
    simp only [arenaSizeBytes]
    omega
  rw [firstBlock, diskStart, Nat.mod_eq_of_lt hlt, blocksPerArena,
    Nat.mul_div_assoc _ blockSize_dvd_arenaSizeBytes]

theorem arenaID_eq_of_has {ar ar' : Arena} (h : ar.arenaID + 1 < 2 ^ 34)
    (h' : ar'.arenaID + 1 < 2 ^ 34) (hb : ar.Has b) (hb' : ar'.Has b) :
    ar.arenaID = ar'.arenaID := by
  simp only [Has, firstBlock_of_lt h, firstBlock_of_lt h', blocksPerArena, arenaSizeBytes,
    blockSize] at hb hb'
  omega

theorem available_cons {ar : Arena} {arenas : List Arena} :
    Available (ar :: arenas) b ↔ ar.Free b ∨ Available arenas b := by
  simp only [Available, exists_mem_cons_iff]

theorem Separate.tail {i : Nat} {ids : List Nat} (h : Separate (i :: ids)) : Separate ids :=
  ⟨(nodup_cons.mp h.1).2, fun j hj => h.2 j (mem_cons_of_mem _ hj)⟩

theorem Separate.not_has {ar : Arena} {arenas : List Arena}
    (h : Separate ((ar :: arenas).map Arena.arenaID)) (hb : ar.Has b) :
    ∀ ar' ∈ arenas, ¬ ar'.Has b := by
  intro ar' hm hb'
  have hmem : ar'.arenaID ∈ arenas.map Arena.arenaID := mem_map_of_mem hm
  have he := arenaID_eq_of_has (h.2 _ mem_cons_self) (h.2 _ (mem_cons_of_mem _ hmem)) hb hb'
  exact (nodup_cons.mp h.1).1 (he ▸ hmem)

theorem Separate.not_available {ar : Arena} {arenas : List Arena}
    (h : Separate ((ar :: arenas).map Arena.arenaID)) (hb : ar.Has b) :
    ¬ Available arenas b := by
  rintro ⟨ar', hm, hfree⟩
  exact h.not_has hb ar' hm hfree.1

namespace Tidy

variable {ar : Arena} {arenas : List Arena}

theorem tail (h : Tidy (ar :: arenas)) : Tidy arenas :=
  ⟨Separate.tail h.separate, fun ar' hm => h.fits ar' (mem_cons_of_mem _ hm)⟩

theorem of_ids {arenas' : List Arena} (h : Tidy arenas)
    (hids : arenas'.map Arena.arenaID = arenas.map Arena.arenaID)
    (hfits : ∀ ar ∈ arenas', ar.Fits) : Tidy arenas' :=
  ⟨hids ▸ h.separate, hfits⟩

end Tidy

theorem allocateFrom_spec {arenas : List Arena} (want : Nat) (h : Tidy arenas) :
    Taken (Available arenas) (Available (allocateFrom want arenas).2.1)
        (allocateFrom want arenas).1 ∧
      ((allocateFrom want arenas).1.map Run.length).sum +
        (allocateFrom want arenas).2.2 * blockSize = want * blockSize ∧
      (allocateFrom want arenas).2.1.map Arena.arenaID = arenas.map Arena.arenaID ∧
      ∀ ar ∈ (allocateFrom want arenas).2.1, ar.Fits := by
  induction arenas generalizing want with
  | nil => exact ⟨.nil _, by simp [allocateFrom], rfl, by simp [allocateFrom]⟩
  | cons ar arenas ih =>
    obtain ⟨htaken, hsum, hid, hfits⟩ := fill_spec want want ar (h.fits ar mem_cons_self)
    rcases hfill : fill want want ar with ⟨runs, ar', left⟩
    simp only [hfill] at htaken hsum hid hfits
    -- the other arenas have none of this one's blocks
    have hhead : Taken (Available (ar :: arenas)) (Available (ar' :: arenas)) runs := by
      refine (htaken.frame fun b hb => Separate.not_available h.separate hb.1).congr ?_ ?_
      · exact fun b => available_cons
      · exact fun b => available_cons
    obtain ⟨htail, hsum', hids, hfits'⟩ := ih left h.tail
    cases left with
    | zero =>
      have hout : allocateFrom want (ar :: arenas) = (runs, ar' :: arenas, 0) := by
        simp only [allocateFrom, hfill]
      rw [hout]
      refine ⟨hhead, by simpa using hsum, by simp [hid], ?_⟩
      rw [forall_mem_cons]
      exact ⟨hfits, h.tail.fits⟩
    | succ left =>
      rcases hrest : allocateFrom (left + 1) arenas with ⟨runs', arenas', left'⟩
      simp only [hrest] at htail hsum' hids hfits'
      have hout : allocateFrom want (ar :: arenas) = (runs ++ runs', ar' :: arenas', left') := by
        simp only [allocateFrom, hfill, hrest]
      rw [hout]
      have hrest' : Taken (Available (ar' :: arenas)) (Available (ar' :: arenas')) runs' := by
        refine (htail.frame (R := ar'.Free) ?_).congr ?_ ?_
        · intro b hb hfree
          have hsep : Separate ((ar' :: arenas).map Arena.arenaID) := by
            rw [map_cons, hid]
            exact h.separate
          exact hsep.not_available hfree.1 hb
        · exact fun b => available_cons.trans or_comm
        · exact fun b => available_cons.trans or_comm
      refine ⟨hhead.trans hrest', ?_, by simp [hid, hids], ?_⟩
      · simp only [map_append, sum_append]
        omega
      · rw [forall_mem_cons]
        exact ⟨hfits, hfits'⟩

theorem freeLocked_spec {arenas : List Arena} (diskOff size : Nat) (h : Tidy arenas) :
    (∀ b, Available (freeLocked diskOff size arenas) b → Available arenas b ∨
        (diskOff / blockSize ≤ b ∧ b < diskOff / blockSize + blocksFor64 size)) ∧
      (freeLocked diskOff size arenas).map Arena.arenaID = arenas.map Arena.arenaID ∧
      Tidy (freeLocked diskOff size arenas) := by
  induction arenas with
  | nil => exact ⟨fun b hb => .inl hb, rfl, h⟩
  | cons ar arenas ih =>
    rw [freeLocked]
    split
    · rename_i hin
      refine ⟨?_, rfl, h.of_ids rfl ?_⟩
      · intro b hb
        rw [available_cons] at hb ⊢
        rcases hb with hb | hb
        · exact (free_freeRange hin.1 hb).imp_left .inl
        · exact .inl (.inr hb)
      · rw [forall_mem_cons]
        exact ⟨fits_freeRange (h.fits ar mem_cons_self), h.tail.fits⟩
    · obtain ⟨havail, hids, htidy⟩ := ih h.tail
      have hids' : (ar :: freeLocked diskOff size arenas).map Arena.arenaID =
          (ar :: arenas).map Arena.arenaID := by
        rw [map_cons, hids, map_cons]
      refine ⟨?_, hids', h.of_ids hids' ?_⟩
      · intro b hb
        rw [available_cons] at hb ⊢
        rcases hb with hb | hb
        · exact .inl (.inl hb)
        · exact (havail b hb).imp_left .inr
      · rw [forall_mem_cons]
        exact ⟨h.fits ar mem_cons_self, htidy.fits⟩

theorem blocksFor64_le (n : Nat) : blocksFor64 n ≤ blocksFor n :=
  Nat.div_le_div_right (Nat.mod_le ..)

theorem undo_spec {arenas : List Arena} (runs : List Run) (h : Tidy arenas) :
    (∀ b, Available (runs.foldl (fun as r => freeLocked r.diskOff r.length as) arenas) b →
        Available arenas b ∨ b ∈ runs.flatMap Run.blocks) ∧
      (runs.foldl (fun as r => freeLocked r.diskOff r.length as) arenas).map Arena.arenaID =
        arenas.map Arena.arenaID ∧
      Tidy (runs.foldl (fun as r => freeLocked r.diskOff r.length as) arenas) := by
  induction runs generalizing arenas with
  | nil => exact ⟨fun b hb => .inl hb, rfl, h⟩
  | cons r runs ih =>
    obtain ⟨havail, hids, htidy⟩ := freeLocked_spec r.diskOff r.length h
    obtain ⟨havail', hids', htidy'⟩ := ih htidy
    refine ⟨?_, hids'.trans hids, htidy'⟩
    intro b hb
    rw [flatMap_cons, mem_append]
    rcases havail' b hb with hb | hb
    · rcases havail b hb with hb | ⟨hlo, hhi⟩
      · exact .inl hb
      · have hle := blocksFor64_le r.length
        exact .inr (.inl (mem_rangeBlocks.mpr ⟨hlo, by omega⟩))
    · exact .inr (.inr hb)

theorem allocate_spec {arenas : List Arena} (size : Nat) (h : Tidy arenas) :
    (∀ runs ∈ (allocate arenas size).1,
        Taken (Available arenas) (Available (allocate arenas size).2) runs ∧
          (runs.map Run.length).sum = blocksFor64 size * blockSize) ∧
      ((allocate arenas size).1 = none →
        ∀ b, Available (allocate arenas size).2 b → Available arenas b) ∧
      (allocate arenas size).2.map Arena.arenaID = arenas.map Arena.arenaID ∧
      Tidy (allocate arenas size).2 := by
  rw [allocate]
  split
  · rename_i hw
    refine ⟨?_, by simp, rfl, h⟩
    intro runs hruns
    cases hruns
    exact ⟨.nil _, by simp [hw]⟩
  · obtain ⟨htaken, hsum, hids, hfits⟩ := allocateFrom_spec (blocksFor64 size) h
    have htidy := h.of_ids hids hfits
    rcases halloc : allocateFrom (blocksFor64 size) arenas with ⟨runs, arenas', left⟩
    simp only [halloc] at htaken hsum hids htidy
    cases left with
    | zero =>
      refine ⟨?_, by simp, hids, htidy⟩
      intro runs' hruns
      cases hruns
      exact ⟨htaken, by simpa using hsum⟩
    | succ left =>
      obtain ⟨havail, hids', htidy'⟩ := undo_spec runs htidy
      refine ⟨by simp, ?_, hids'.trans hids, htidy'⟩
      intro _ b hb
      rcases havail b hb with hb | hb
      · exact ((htaken.left b).mp hb).1
      · exact htaken.free b hb

theorem mayAllocate_of_allocate {arenas : List Arena} {size : Nat} {runs : List Run}
    (h : Tidy arenas) (hsize : size + blockSize ≤ 2 ^ 64)
    (hruns : (allocate arenas size).1 = some runs) :
    MayAllocate (reserved arenas) size runs ∧ reserved (allocate arenas size).2 =
        reserve (reserved arenas) (runs.flatMap Run.blocks) := by
  obtain ⟨htaken, hsum⟩ := (allocate_spec size h).1 runs hruns
  have hblocks : blocksFor64 size = blocksFor size := by
    simp only [blocksFor64, blocksFor, blockSize] at *
    omega
  refine ⟨⟨⟨htaken.whole, by rw [hsum, hblocks]⟩, htaken.nodup, ?_⟩, ?_⟩
  · intro b hb
    simpa [reserved] using htaken.free b hb
  · funext b
    rw [Bool.eq_iff_iff, reserve_eq_true]
    simp only [reserved, Bool.not_eq_true', decide_eq_false_iff_not, htaken.left]
    tauto

end EtcFS.Arena
