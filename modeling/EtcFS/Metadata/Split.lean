import EtcFS.Metadata.Extent
import Mathlib.Tactic.Ring

/-!
# Splitting an extent around a write

A write over `[start, stop)` leaves a head and a tail, which starts at the last block boundary at or
before the write's end.
-/

namespace EtcFS.Metadata

open Option List

def blocksFor (n : Nat) : Nat := (n + blockSize - 1) / blockSize

def headOf (old : ExtentValue) (start : Nat) : ExtentValue :=
  { old with length := start - old.logOff }

def tailSkip (old : ExtentValue) (stop : Nat) : Nat :=
  (stop - old.logOff) / blockSize * blockSize

def tailOf (old : ExtentValue) (stop : Nat) : ExtentValue :=
  { old with
    logOff := old.logOff + tailSkip old stop
    diskOff := old.diskOff + tailSkip old stop
    length := old.length - tailSkip old stop }

def splitAround (old : ExtentValue) (start stop : Nat) :
    Option ExtentValue × Option ExtentValue :=
  (if start > old.logOff then some (headOf old start) else none,
   if stop < old.endOff then some (tailOf old stop) else none)

def coveredBlocks (old : ExtentValue) (head tail : Option ExtentValue) : Nat × Nat :=
  let first := (head.map fun h => blocksFor h.length).getD 0
  let last := (tail.map fun t => (t.diskOff - old.diskOff) / blockSize).getD (blocksFor old.length)
  if last ≤ first then (0, 0)
  else (old.diskOff + first * blockSize, (last - first) * blockSize)

def rangeBlocks (diskOff length : Nat) : List Nat :=
  range' (diskOff / blockSize) (blocksFor length)

def survivors (old : ExtentValue) (start stop : Nat) : List ExtentValue :=
  (splitAround old start stop).1.toList ++ (splitAround old start stop).2.toList

def givenUp (old : ExtentValue) (start stop : Nat) : Nat × Nat :=
  coveredBlocks old (splitAround old start stop).1 (splitAround old start stop).2

def tailStart (old : ExtentValue) (stop : Nat) : Nat := old.logOff + tailSkip old stop

variable {old : ExtentValue} {start stop : Nat}

theorem tailStart_le (h : old.logOff ≤ stop) : tailStart old stop ≤ stop := by
  simp only [tailStart, tailSkip, blockSize]
  omega

theorem logOff_le_tailStart (old : ExtentValue) (stop : Nat) :
    old.logOff ≤ tailStart old stop := Nat.le_add_right _ _

variable {p : ExtentValue} {block : Nat}

theorem mem_survivors : p ∈ survivors old start stop ↔ (old.logOff < start ∧ p = headOf old start) ∨
      (stop < old.endOff ∧ p = tailOf old stop) := by
  simp only [survivors, splitAround, mem_append, mem_toList,
    ite_none_right_eq_some, some.injEq, gt_iff_lt]
  exact or_congr (and_congr_right fun _ => eq_comm) (and_congr_right fun _ => eq_comm)

theorem headOf_covers (hstart : start ≤ old.endOff) (hlo : old.logOff ≤ start) {b : Nat} :
    (headOf old start).Covers b ↔ old.Covers b ∧ b < start := by
  simp only [ExtentValue.Covers, ExtentValue.endOff, headOf] at *
  omega

theorem tailOf_covers (hlo : old.logOff ≤ stop) (hstop : stop < old.endOff) {b : Nat} :
    (tailOf old stop).Covers b ↔ old.Covers b ∧ tailStart old stop ≤ b := by
  have hle := tailStart_le hlo
  simp only [ExtentValue.Covers, ExtentValue.endOff, tailOf, tailStart] at *
  omega

theorem exists_survivor_covers_iff (hov : old.Overlaps start stop) {b : Nat} :
    (∃ p ∈ survivors old start stop, p.Covers b) ↔
      old.Covers b ∧ (b < start ∨ stop < old.endOff ∧ tailStart old stop ≤ b) := by
  obtain ⟨hlo, hhi⟩ := hov
  constructor
  · rintro ⟨p, hp, hb⟩
    rcases mem_survivors.mp hp with ⟨hs, rfl⟩ | ⟨hs, rfl⟩
    · obtain ⟨hc, hb⟩ := (headOf_covers hhi.le hs.le).mp hb
      exact ⟨hc, .inl hb⟩
    · obtain ⟨hc, hb⟩ := (tailOf_covers hlo.le hs).mp hb
      exact ⟨hc, .inr ⟨hs, hb⟩⟩
  · rintro ⟨hc, hb | ⟨hs, hb⟩⟩
    · have hs : old.logOff < start := hc.1.trans_lt hb
      exact ⟨_, mem_survivors.mpr (.inl ⟨hs, rfl⟩), (headOf_covers hhi.le hs.le).mpr ⟨hc, hb⟩⟩
    · exact ⟨_, mem_survivors.mpr (.inr ⟨hs, rfl⟩), (tailOf_covers hlo.le hs).mpr ⟨hc, hb⟩⟩

theorem survivor_seq (h : p ∈ survivors old start stop) : p.seq = old.seq := by
  rcases mem_survivors.mp h with ⟨_, rfl⟩ | ⟨_, rfl⟩ <;> rfl

theorem survivor_covers (hov : old.Overlaps start stop)
    (hp : p ∈ survivors old start stop) {b : Nat} (hb : p.Covers b) :
    old.Covers b ∧ p.devicePos b = old.devicePos b := by
  obtain ⟨hlo, hhi⟩ := hov
  rcases mem_survivors.mp hp with ⟨hs, rfl⟩ | ⟨hs, rfl⟩
  · exact ⟨((headOf_covers hhi.le hs.le).mp hb).1, rfl⟩
  · obtain ⟨hc, ht⟩ := (tailOf_covers hlo.le hs).mp hb
    refine ⟨hc, ?_⟩
    simp only [ExtentValue.devicePos, tailOf, tailStart] at *
    omega

theorem survivor_eq_tail (hov : old.Overlaps start stop)
    (hp : p ∈ survivors old start stop) {b : Nat} (hb : p.Covers b) (hs : start ≤ b) :
    stop < old.endOff ∧ p = tailOf old stop := by
  rcases mem_survivors.mp hp with ⟨hlt, rfl⟩ | h
  · have hb' := ((headOf_covers hov.2.le hlt.le).mp hb).2
    omega
  · exact h

theorem survivor_bounds (hov : old.Overlaps start stop)
    (hp : p ∈ survivors old start stop) : 0 < p.length ∧ p.endOff ≤ old.endOff := by
  obtain ⟨hlo, hhi⟩ := hov
  rcases mem_survivors.mp hp with ⟨hs, rfl⟩ | ⟨hs, rfl⟩
  · simp only [headOf, ExtentValue.endOff] at *
    omega
  · have hle := tailStart_le hlo.le
    simp only [tailOf, tailStart, ExtentValue.endOff] at *
    omega

theorem survivor_aligned (hp : p ∈ survivors old start stop)
    (ha : blockSize ∣ old.diskOff) : blockSize ∣ p.diskOff := by
  rcases mem_survivors.mp hp with ⟨_, rfl⟩ | ⟨_, rfl⟩
  · exact ha
  · exact Nat.dvd_add ha (Nat.dvd_mul_left _ _)

theorem survivor_touches (hov : old.Overlaps start stop)
    (hp : p ∈ survivors old start stop) (ht : p.Touches block) :
    old.Touches block := by
  obtain ⟨hlo, hhi⟩ := hov
  obtain ⟨x, hx, hx', hb⟩ := ht
  rcases mem_survivors.mp hp with ⟨hs, rfl⟩ | ⟨hs, rfl⟩
  · refine ⟨x, hx, ?_, hb⟩
    simp only [headOf, ExtentValue.endOff] at *
    omega
  · have hle := tailStart_le hlo.le
    refine ⟨x, ?_, ?_, hb⟩
    · simp only [tailOf] at hx
      omega
    · simp only [tailOf, tailStart, ExtentValue.endOff] at *
      omega

theorem mem_rangeBlocks {diskOff length : Nat} : block ∈ rangeBlocks diskOff length ↔
    diskOff / blockSize ≤ block ∧ block < diskOff / blockSize + blocksFor length := by
  rw [rangeBlocks, mem_range'_1]

theorem touches_of_mem_rangeBlocks {e : ExtentValue}
    (h : block ∈ rangeBlocks e.diskOff e.length) : e.Touches block := by
  rw [mem_rangeBlocks] at h
  simp only [ExtentValue.Touches, blocksFor, blockSize] at *
  exact ⟨max e.diskOff (block * 4096), by omega, by omega, by omega⟩

theorem touches_iff {e : ExtentValue} (ha : blockSize ∣ e.diskOff) : e.Touches block ↔
      e.diskOff / blockSize ≤ block ∧ block < e.diskOff / blockSize + blocksFor e.length := by
  refine ⟨?_, fun h => touches_of_mem_rangeBlocks (mem_rangeBlocks.mpr h)⟩
  obtain ⟨k, hk⟩ := ha
  rintro ⟨x, hx, hx', rfl⟩
  simp only [blocksFor, blockSize] at *
  omega

def headBlocks (old : ExtentValue) (start : Nat) : Nat :=
  if old.logOff < start then blocksFor (start - old.logOff) else 0

def tailBlock (old : ExtentValue) (stop : Nat) : Nat :=
  if stop < old.endOff then tailSkip old stop / blockSize else blocksFor old.length

theorem tailBlock_le (hov : old.Overlaps start stop) :
    tailBlock old stop ≤ blocksFor old.length := by
  obtain ⟨hlo, -⟩ := hov
  unfold tailBlock
  split
  · simp only [tailSkip, blocksFor, ExtentValue.endOff, blockSize] at *
    omega
  · exact le_rfl

theorem givenUp_eq (old : ExtentValue) (start stop : Nat) : givenUp old start stop =
    if tailBlock old stop ≤ headBlocks old start then (0, 0)
    else (old.diskOff + headBlocks old start * blockSize,
      (tailBlock old stop - headBlocks old start) * blockSize) := by
  have hhead : ((splitAround old start stop).1.map fun h => blocksFor h.length).getD 0 =
      headBlocks old start := by
    simp only [splitAround, headBlocks, gt_iff_lt]
    split <;> rfl
  have htail : ((splitAround old start stop).2.map fun t =>
      (t.diskOff - old.diskOff) / blockSize).getD (blocksFor old.length) = tailBlock old stop := by
    simp only [splitAround, tailBlock]
    split
    · simp only [map_some, getD_some, tailOf, Nat.add_sub_cancel_left]
    · rfl
  rw [givenUp, coveredBlocks, hhead, htail]

theorem mem_givenUp : block ∈ rangeBlocks (givenUp old start stop).1 (givenUp old start stop).2 ↔
      old.diskOff / blockSize + headBlocks old start ≤ block ∧
        block < old.diskOff / blockSize + tailBlock old stop := by
  rw [mem_rangeBlocks, givenUp_eq]
  split
  · simp only [blocksFor, blockSize] at *
    omega
  · simp only [blocksFor, blockSize] at *
    omega

theorem headOf_touches (ha : blockSize ∣ old.diskOff) (hs : old.logOff < start) :
    (headOf old start).Touches block ↔ old.diskOff / blockSize ≤ block ∧
      block < old.diskOff / blockSize + headBlocks old start := by
  have hah : blockSize ∣ (headOf old start).diskOff := ha
  rw [touches_iff hah, headBlocks, if_pos hs]
  rfl

theorem tailOf_touches (ha : blockSize ∣ old.diskOff) (hs : stop < old.endOff) :
    (tailOf old stop).Touches block ↔ old.diskOff / blockSize + tailBlock old stop ≤ block ∧
      block < old.diskOff / blockSize + blocksFor old.length := by
  have hat : blockSize ∣ (tailOf old stop).diskOff := Nat.dvd_add ha (Nat.dvd_mul_left _ _)
  obtain ⟨k, hk⟩ := ha
  rw [touches_iff hat, tailBlock, if_pos hs]
  simp only [tailOf, tailSkip, hk, blocksFor, ExtentValue.endOff, blockSize] at *
  omega

theorem headBlocks_le_tailBlock_iff (hhead : old.logOff < start) (htail : stop < old.endOff) :
    headBlocks old start ≤ tailBlock old stop ↔ start ≤ tailStart old stop := by
  rw [headBlocks, if_pos hhead, tailBlock, if_pos htail]
  simp only [tailStart, tailSkip, blocksFor, blockSize]
  omega

theorem tailBlock_lt (hov : old.Overlaps start stop) (htail : stop < old.endOff) :
    tailBlock old stop < blocksFor old.length := by
  obtain ⟨hlo, -⟩ := hov
  rw [tailBlock, if_pos htail]
  simp only [tailSkip, blocksFor, ExtentValue.endOff, blockSize] at *
  omega

theorem halves_disjoint_iff (ha : blockSize ∣ old.diskOff) (hov : old.Overlaps start stop)
    (hhead : old.logOff < start) (htail : stop < old.endOff) :
    (∀ block, (headOf old start).Touches block → ¬ (tailOf old stop).Touches block) ↔
      start ≤ tailStart old stop := by
  rw [← headBlocks_le_tailBlock_iff hhead htail]
  have hlt := tailBlock_lt hov htail
  constructor
  · intro h
    have hnot := h (old.diskOff / blockSize + tailBlock old stop)
    rw [headOf_touches ha hhead, tailOf_touches ha htail] at hnot
    omega
  · intro h block hh ht
    have hin := (headOf_touches ha hhead).mp hh
    have hin' := (tailOf_touches ha htail).mp ht
    omega

theorem givenUp_spec (ha : blockSize ∣ old.diskOff) (hov : old.Overlaps start stop)
    (hb : block ∈ rangeBlocks (givenUp old start stop).1 (givenUp old start stop).2) :
    old.Touches block ∧ ∀ p ∈ survivors old start stop, ¬ p.Touches block := by
  obtain ⟨hfirst, hlast⟩ := mem_givenUp.mp hb
  have hle := tailBlock_le hov
  refine ⟨(touches_iff ha).mpr ⟨by omega, by omega⟩, fun p hp htouch => ?_⟩
  rcases mem_survivors.mp hp with ⟨hs, rfl⟩ | ⟨hs, rfl⟩
  · have hin := (headOf_touches ha hs).mp htouch
    omega
  · have hin := (tailOf_touches ha hs).mp htouch
    omega

theorem touches_cases (ha : blockSize ∣ old.diskOff) (ht : old.Touches block) :
    block ∈ rangeBlocks (givenUp old start stop).1 (givenUp old start stop).2 ∨
      ∃ p ∈ survivors old start stop, p.Touches block := by
  obtain ⟨hlo, hhi⟩ := (touches_iff ha).mp ht
  by_cases hhead : block < old.diskOff / blockSize + headBlocks old start
  · have hs : old.logOff < start := by
      by_contra hnot
      rw [headBlocks, if_neg hnot] at hhead
      omega
    exact .inr ⟨_, mem_survivors.mpr (.inl ⟨hs, rfl⟩), (headOf_touches ha hs).mpr ⟨hlo, hhead⟩⟩
  · by_cases htail : block < old.diskOff / blockSize + tailBlock old stop
    · exact .inl (mem_givenUp.mpr ⟨not_lt.mp hhead, htail⟩)
    · have hs : stop < old.endOff := by
        by_contra hnot
        rw [tailBlock, if_neg hnot] at htail
        omega
      exact .inr ⟨_, mem_survivors.mpr (.inr ⟨hs, rfl⟩),
        (tailOf_touches ha hs).mpr ⟨not_lt.mp htail, hhi⟩⟩

theorem givenUp_aligned (ha : blockSize ∣ old.diskOff) (start stop : Nat) :
    blockSize ∣ (givenUp old start stop).1 ∧ blockSize ∣ (givenUp old start stop).2 := by
  rw [givenUp_eq]
  split
  · exact ⟨Nat.dvd_zero _, Nat.dvd_zero _⟩
  · exact ⟨Nat.dvd_add ha (Nat.dvd_mul_left _ _), Nat.dvd_mul_left _ _⟩

end EtcFS.Metadata
