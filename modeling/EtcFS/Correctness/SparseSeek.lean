import EtcFS.Ipc.Read
import EtcFS.Metadata.DataRanges

/-!
# Seeking in a sparse file

A read fills exactly the bytes in the ranges from an extent, and the seeks find the first byte of
data and the first byte of a hole.
-/

namespace EtcFS.Correctness

open EtcFS.Core Metadata Ipc

variable {extents : List Extent} {size offset b : Nat}

theorem filled_iff_covered (h : Sorted extents) {reqEnd : Nat} (hlo : offset ≤ b)
    (hhi : b < reqEnd) :
    (∃ f ∈ readWalk reqEnd offset extents, f.Takes b) ↔ Covered extents b := by
  have hwalk : ∀ e, (∃ st ∈ cursorWalk (fun e : Extent => e.logOff) (fun e => e.endOff) reqEnd
      offset extents, st.first ≤ b ∧ b < st.last ∧ st.source = e) ↔
        extents.find? (fun x => decide (x.Covers b)) = some e :=
    cursorWalk_eq_find? h.logOff_le hlo hhi
  have htakes : (∃ f ∈ readWalk reqEnd offset extents, f.Takes b) ↔
      ∃ e, extents.find? (fun x => decide (x.Covers b)) = some e := by
    simp only [← hwalk, readWalk_eq, List.mem_map, exists_exists_and_eq_and, fillOf_takes]
    constructor
    · rintro ⟨st, hst, h1, h2⟩
      exact ⟨st.source, st, hst, h1, h2, rfl⟩
    · rintro ⟨-, st, hst, h1, h2, -⟩
      exact ⟨st, hst, h1, h2⟩
  rw [htakes, ← Option.isSome_iff_exists, List.find?_isSome]
  simp only [decide_eq_true_eq, Covered]

def FirstData (extents : List Extent) (size offset d : Nat) : Prop :=
  offset ≤ d ∧ d < size ∧ Covered extents d ∧
    ∀ b, offset ≤ b → b < d → ¬ Covered extents b

def FirstHole (extents : List Extent) (size offset h : Nat) : Prop :=
  offset ≤ h ∧ h ≤ size ∧ (h = size ∨ ¬ Covered extents h) ∧
    ∀ b, offset ≤ b → b < h → Covered extents b

theorem seekData_spec (h : Sorted extents) (hoff : offset < size) :
    (∀ d, seekData extents size offset = some d → FirstData extents size offset d) ∧
      (seekData extents size offset = none → ∀ b, offset ≤ b → b < size → ¬ Covered extents b) := by
  obtain ⟨hspans, hmem⟩ := dataRanges_spec h size
  rw [seekData, if_neg (not_le.mpr hoff)]
  refine ⟨fun d hd => ?_, fun hnone b hlo hhi hc => ?_⟩
  · obtain ⟨hle, hin, hleast⟩ := firstIn_eq_some hspans hd
    obtain ⟨hlt, hc⟩ := (hmem d).mp hin
    exact ⟨hle, hlt, hc, fun b hlo hhi hb => hleast b hlo hhi ((hmem b).mpr ⟨hhi.trans hlt, hb⟩)⟩
  · exact not_inSpans_of_firstIn hnone hlo ((hmem b).mpr ⟨hhi, hc⟩)

theorem seekHole_spec (h : Sorted extents) (hoff : offset < size) :
    ∃ hole, seekHole extents size offset = some hole ∧ FirstHole extents size offset hole := by
  obtain ⟨hspans, hmem⟩ := dataRanges_spec h size
  obtain ⟨hle, hout, hall⟩ := firstOut_spec hspans offset
  have hend : firstOut (dataRanges extents size) offset ≤ size := by
    by_contra hgt
    -- the end of the file is in no range
    have hlast := (hmem size).mp (hall size hoff.le (not_le.mp hgt))
    exact lt_irrefl size hlast.1
  refine ⟨_, if_neg (not_le.mpr hoff), hle, hend, ?_, fun b hlo hhi => ?_⟩
  · rcases hend.eq_or_lt with heq | hlt
    · exact .inl heq
    · exact .inr fun hc => hout ((hmem _).mpr ⟨hlt, hc⟩)
  · exact ((hmem b).mp (hall b hlo hhi)).2

/-- On a sorted list the ranges of data ascend, are not empty and do not touch. They hold
exactly the bytes below the size that an extent covers, which are those that a read of
any range of the file fills from an extent. The seeks find the least such byte and the
least byte that is none of them. -/
theorem dataRanges_match_reads (h : Sorted extents) (size : Nat) :
    Spans (dataRanges extents size) ∧
      (∀ b, InSpans (dataRanges extents size) b ↔ b < size ∧ Covered extents b) ∧
      (∀ offset reqEnd b, reqEnd ≤ size → offset ≤ b → b < reqEnd →
        ((∃ f ∈ readWalk reqEnd offset extents, f.Takes b) ↔
          InSpans (dataRanges extents size) b)) ∧
      ∀ offset, offset < size →
        (∀ d, seekData extents size offset = some d → FirstData extents size offset d) ∧
        (seekData extents size offset = none →
          ∀ b, offset ≤ b → b < size → ¬ Covered extents b) ∧
        ∃ hole, seekHole extents size offset = some hole ∧
          FirstHole extents size offset hole := by
  obtain ⟨hspans, hmem⟩ := dataRanges_spec h size
  refine ⟨hspans, hmem, fun offset reqEnd b hreq hlo hhi => ?_, fun offset hoff => ?_⟩
  · rw [filled_iff_covered h hlo hhi, hmem, and_iff_right (lt_of_lt_of_le hhi hreq)]
  · obtain ⟨hdata, hnone⟩ := seekData_spec h hoff
    exact ⟨hdata, hnone, seekHole_spec h hoff⟩

def sparseExtents : List Extent :=
  [⟨⟨2, 4096, 4, 1, 2, "a"⟩, 1, 1⟩, ⟨⟨4, 0, 4, 1, 1, "a"⟩, 0, 1⟩, ⟨⟨8, 8192, 1, 1, 3, "a"⟩, 2, 1⟩,
    ⟨⟨12, 12288, 9, 1, 4, "a"⟩, 3, 1⟩]

example : dataRanges sparseExtents 15 = [(2, 9), (12, 15)] := by decide

example : seekHole sparseExtents 15 3 = some 9 := by decide

theorem dataRanges_match_reads_sparse : Sorted sparseExtents ∧
    Spans (dataRanges sparseExtents 15) ∧ seekData sparseExtents 15 9 = some 12 ∧
      FirstData sparseExtents 15 9 12 := by
  have hsorted : Sorted sparseExtents := by decide
  obtain ⟨hspans, -, -, hseek⟩ := dataRanges_match_reads hsorted 15
  have hfound : seekData sparseExtents 15 9 = some 12 := by decide
  exact ⟨hsorted, hspans, hfound, (hseek 9 (by decide)).1 12 hfound⟩

end EtcFS.Correctness
