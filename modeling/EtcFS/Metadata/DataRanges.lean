import EtcFS.Core.Intervals
import EtcFS.Metadata.Extent

/-!
# Data and holes of a file

`DataRanges` walks the extents as a read does. The ranges hold exactly the bytes below the size that
some extent covers.
-/

namespace EtcFS.Metadata

open EtcFS.Core List

def dataRangesFrom (size : Nat) : List (Nat × Nat) → Nat → List Extent → List (Nat × Nat)
  | ranges, _, [] => ranges
  | ranges, pos, ext :: extents =>
    if pos ≥ size then ranges
    -- entirely behind the cursor, or buried by a newer extent
    else if ext.endOff ≤ pos then dataRangesFrom size ranges pos extents
    else
      let start := max ext.logOff pos
      let stop := min ext.endOff size
      if start ≥ stop then dataRangesFrom size ranges pos extents
      else dataRangesFrom size (extendSpans ranges start stop) stop extents

def dataRanges (extents : List Extent) (size : Nat) : List (Nat × Nat) :=
  (dataRangesFrom size [] 0 extents).reverse

def seekData (extents : List Extent) (size offset : Nat) : Option Nat :=
  if offset ≥ size then none else firstIn (dataRanges extents size) offset

def seekHole (extents : List Extent) (size offset : Nat) : Option Nat :=
  if offset ≥ size then none else some (firstOut (dataRanges extents size) offset)

def Covered (extents : List Extent) (b : Nat) : Prop := ∃ e ∈ extents, e.Covers b

def Sorted (extents : List Extent) : Prop := extents.Pairwise fun a b => extentOrder a b ≠ .gt
  deriving Decidable

variable {extents : List Extent} {ranges : List (Nat × Nat)} {size pos : Nat}

theorem Sorted.logOff_le (h : Sorted extents) :
    extents.Pairwise fun a b => a.logOff ≤ b.logOff := by
  refine h.imp fun {a b} hab => ?_
  rw [extentOrder_ne_gt_iff, Extent.before_iff] at hab
  omega

theorem covered_cons {e : Extent} {b : Nat} :
    Covered (e :: extents) b ↔ e.Covers b ∨ Covered extents b := by
  simp only [Covered, exists_mem_cons_iff]

theorem dataRangesFrom_spec (hsorted : extents.Pairwise fun a b => a.logOff ≤ b.logOff)
    (hto : SpansTo ranges pos)
    (hbehind : ∀ e ∈ extents, ∀ b, e.logOff ≤ b → b < pos → InSpans ranges b) :
    (∃ pos', SpansTo (dataRangesFrom size ranges pos extents) pos') ∧
      ∀ b, InSpans (dataRangesFrom size ranges pos extents) b ↔
        InSpans ranges b ∨ (b < size ∧ Covered extents b) := by
  induction extents generalizing ranges pos with
  | nil =>
    refine ⟨⟨pos, hto⟩, fun b => (or_iff_left ?_).symm⟩
    rintro ⟨-, e, he, -⟩
    cases he
  | cons ext extents ih =>
    obtain ⟨hle, hrest⟩ := pairwise_cons.mp hsorted
    obtain ⟨hext, hbehind'⟩ := forall_mem_cons.mp hbehind
    -- an extent that adds nothing
    have hskip : (∀ b, b < size → ext.Covers b → InSpans ranges b) →
        (∃ pos', SpansTo (dataRangesFrom size ranges pos extents) pos') ∧
          ∀ b, InSpans (dataRangesFrom size ranges pos extents) b ↔
            InSpans ranges b ∨ (b < size ∧ Covered (ext :: extents) b) := by
      intro hin
      obtain ⟨hto', hmem⟩ := ih hrest hto hbehind'
      refine ⟨hto', fun b => ?_⟩
      rw [hmem, covered_cons]
      constructor
      · exact fun h => h.imp_right fun h => ⟨h.1, .inr h.2⟩
      · rintro (h | ⟨hlt, h | h⟩)
        · exact .inl h
        · exact .inl (hin b hlt h)
        · exact .inr ⟨hlt, h⟩
    rw [dataRangesFrom]
    split
    · rename_i hend
      refine ⟨⟨pos, hto⟩, fun b => (or_iff_left_of_imp ?_).symm⟩
      rintro ⟨hlt, e, he, hlo, -⟩
      exact hbehind e he b hlo (lt_of_lt_of_le hlt hend)
    · split
      · rename_i hpast
        exact hskip fun b _ hc => hext b hc.1 (lt_of_lt_of_le hc.2 hpast)
      · dsimp only
        split
        · rename_i hnone
          refine hskip fun b hlt hc => absurd hc.1 ?_
          have hhi := hc.2
          omega
        · rename_i htake
          obtain ⟨hto', hadd⟩ := hto.extend (le_max_right ext.logOff pos) (not_le.mp htake)
          have hbehind'' : ∀ e ∈ extents, ∀ b, e.logOff ≤ b → b < min ext.endOff size →
              InSpans (extendSpans ranges (max ext.logOff pos) (min ext.endOff size)) b := by
            intro e he b hlo hhi
            rw [hadd]
            by_cases hb : b < pos
            · exact .inl (hext b ((hle e he).trans hlo) hb)
            · exact .inr ⟨max_le ((hle e he).trans hlo) (not_lt.mp hb), hhi⟩
          obtain ⟨hto'', hmem⟩ := ih hrest hto' hbehind''
          refine ⟨hto'', fun b => ?_⟩
          rw [hmem, hadd, covered_cons]
          constructor
          · rintro ((h | ⟨hlo, hhi⟩) | ⟨hlt, h⟩)
            · exact .inl h
            · exact .inr ⟨lt_of_lt_of_le hhi (min_le_right _ _),
                .inl ⟨(le_max_left _ _).trans hlo, lt_of_lt_of_le hhi (min_le_left _ _)⟩⟩
            · exact .inr ⟨hlt, .inr h⟩
          · rintro (h | ⟨hlt, ⟨hlo, hhi⟩ | h⟩)
            · exact .inl (.inl h)
            · by_cases hb : b < pos
              · exact .inl (.inl (hext b hlo hb))
              · exact .inl (.inr ⟨max_le hlo (not_lt.mp hb), lt_min hhi hlt⟩)
            · exact .inr ⟨hlt, h⟩

theorem dataRanges_spec (h : Sorted extents) (size : Nat) : Spans (dataRanges extents size) ∧
      ∀ b, InSpans (dataRanges extents size) b ↔ b < size ∧ Covered extents b := by
  have hloop : (∃ pos, SpansTo (dataRangesFrom size [] 0 extents) pos) ∧ _ :=
    dataRangesFrom_spec h.logOff_le (.nil 0) fun _ _ _ _ hb => absurd hb (Nat.not_lt_zero _)
  obtain ⟨⟨pos, hto⟩, hmem⟩ := hloop
  refine ⟨hto.spans, fun b => ?_⟩
  rw [dataRanges, inSpans_reverse, hmem]
  exact or_iff_right not_inSpans_nil

end EtcFS.Metadata
