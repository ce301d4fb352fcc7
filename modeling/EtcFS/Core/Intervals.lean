import Mathlib.Data.List.Basic
import Mathlib.Order.Defs.LinearOrder
import Mathlib.Order.MinMax

/-!
# Sets of points as lists of intervals

Half-open intervals in ascending order, none empty and no two touching, are a set of points in its
shortest form.
-/

namespace EtcFS.Core

open List

variable {ι : Type*} [LinearOrder ι]

def InSpans (rs : List (ι × ι)) (b : ι) : Prop := ∃ r ∈ rs, r.1 ≤ b ∧ b < r.2

structure Spans (rs : List (ι × ι)) : Prop where
  proper : ∀ r ∈ rs, r.1 < r.2
  apart : rs.Pairwise fun r s => r.2 < s.1

def firstIn : List (ι × ι) → ι → Option ι
  | [], _ => none
  | r :: rs, b => if b < r.2 then some (max r.1 b) else firstIn rs b

def firstOut : List (ι × ι) → ι → ι
  | [], b => b
  | r :: rs, b =>
    if b < r.1 then b
    else if b < r.2 then firstOut rs r.2
    else firstOut rs b

def extendSpans : List (ι × ι) → ι → ι → List (ι × ι)
  | [], start, stop => [(start, stop)]
  | last :: rs, start, stop =>
    if start ≤ last.2 then (last.1, max last.2 stop) :: rs
    else (start, stop) :: last :: rs

variable {rs : List (ι × ι)} {r : ι × ι} {b c d pos start stop : ι}

@[simp] theorem not_inSpans_nil : ¬ InSpans ([] : List (ι × ι)) b := by
  rintro ⟨r, hr, -⟩
  cases hr

theorem inSpans_cons : InSpans (r :: rs) b ↔ (r.1 ≤ b ∧ b < r.2) ∨ InSpans rs b := by
  simp only [InSpans, exists_mem_cons_iff]

theorem inSpans_reverse : InSpans rs.reverse b ↔ InSpans rs b := by
  simp only [InSpans, mem_reverse]

theorem Spans.tail (h : Spans (r :: rs)) : Spans rs :=
  ⟨fun s hs => h.proper s (mem_cons_of_mem _ hs), (pairwise_cons.mp h.apart).2⟩

theorem Spans.lt_of_tail (h : Spans (r :: rs)) (hb : InSpans rs b) : r.2 < b := by
  obtain ⟨s, hs, hlo, -⟩ := hb
  exact lt_of_lt_of_le ((pairwise_cons.mp h.apart).1 s hs) hlo

theorem firstIn_eq_some (h : Spans rs) (hd : firstIn rs b = some d) :
    b ≤ d ∧ InSpans rs d ∧ ∀ c, b ≤ c → c < d → ¬ InSpans rs c := by
  induction rs with
  | nil => cases hd
  | cons r rs ih =>
    rw [firstIn] at hd
    split at hd
    · rename_i hlt
      cases hd
      have hproper := h.proper r mem_cons_self
      refine ⟨le_max_right _ _, inSpans_cons.mpr (.inl ⟨le_max_left _ _, max_lt hproper hlt⟩), ?_⟩
      intro c hbc hcd hc
      have hcr : c < r.1 := (lt_max_iff.mp hcd).resolve_right (not_lt.mpr hbc)
      rcases inSpans_cons.mp hc with ⟨hlo, -⟩ | hc
      · exact absurd hlo (not_le.mpr hcr)
      · exact absurd (hcr.trans hproper) (not_lt.mpr (h.lt_of_tail hc).le)
    · rename_i hle
      obtain ⟨hbd, hin, hleast⟩ := ih h.tail hd
      refine ⟨hbd, inSpans_cons.mpr (.inr hin), fun c hbc hcd hc => ?_⟩
      rcases inSpans_cons.mp hc with ⟨-, hhi⟩ | hc
      · exact hle (lt_of_le_of_lt hbc hhi)
      · exact hleast c hbc hcd hc

theorem not_inSpans_of_firstIn (hd : firstIn rs b = none) (hbc : b ≤ c) : ¬ InSpans rs c := by
  induction rs with
  | nil => exact not_inSpans_nil
  | cons r rs ih =>
    rw [firstIn] at hd
    split at hd
    · cases hd
    · rename_i hle
      intro hc
      rcases inSpans_cons.mp hc with ⟨-, hhi⟩ | hc
      · exact hle (lt_of_le_of_lt hbc hhi)
      · exact ih hd hc

theorem firstOut_spec (h : Spans rs) (b : ι) : b ≤ firstOut rs b ∧ ¬ InSpans rs (firstOut rs b) ∧
      ∀ c, b ≤ c → c < firstOut rs b → InSpans rs c := by
  induction rs generalizing b with
  | nil => exact ⟨le_rfl, not_inSpans_nil, fun c hbc hcb => absurd hbc (not_le.mpr hcb)⟩
  | cons r rs ih =>
    have hproper := h.proper r mem_cons_self
    rw [firstOut]
    split
    · rename_i hlt
      refine ⟨le_rfl, fun hin => ?_, fun c hbc hcb => absurd hbc (not_le.mpr hcb)⟩
      rcases inSpans_cons.mp hin with ⟨hlo, -⟩ | hin
      · exact absurd hlo (not_le.mpr hlt)
      · exact absurd (hlt.trans hproper) (not_lt.mpr (h.lt_of_tail hin).le)
    · rename_i hlo
      split
      · rename_i hhi
        obtain ⟨hle, hout, hall⟩ := ih h.tail r.2
        refine ⟨hhi.le.trans hle, fun hin => ?_, fun c hbc hc => ?_⟩
        · rcases inSpans_cons.mp hin with ⟨-, hin⟩ | hin
          · exact absurd hle (not_le.mpr hin)
          · exact hout hin
        · by_cases hcr : c < r.2
          · exact inSpans_cons.mpr (.inl ⟨(not_lt.mp hlo).trans hbc, hcr⟩)
          · exact inSpans_cons.mpr (.inr (hall c (not_lt.mp hcr) hc))
      · rename_i hhi
        obtain ⟨hle, hout, hall⟩ := ih h.tail b
        refine ⟨hle, fun hin => ?_, fun c hbc hc => inSpans_cons.mpr (.inr (hall c hbc hc))⟩
        rcases inSpans_cons.mp hin with ⟨-, hin⟩ | hin
        · exact hhi (lt_of_le_of_lt hle hin)
        · exact hout hin

structure SpansTo (rs : List (ι × ι)) (pos : ι) : Prop where
  proper : ∀ r ∈ rs, r.1 < r.2
  apart : rs.Pairwise fun s r => r.2 < s.1
  behind : ∀ r ∈ rs, r.2 ≤ pos

namespace SpansTo

theorem nil (pos : ι) : SpansTo [] pos :=
  ⟨fun _ hr => (nomatch hr), List.Pairwise.nil,
    fun _ hr => nomatch hr⟩

theorem spans (h : SpansTo rs pos) : Spans rs.reverse :=
  ⟨fun r hr => h.proper r (mem_reverse.mp hr), pairwise_reverse.mpr h.apart⟩

theorem extend (h : SpansTo rs pos) (hpos : pos ≤ start) (hlt : start < stop) :
    SpansTo (extendSpans rs start stop) stop ∧
      ∀ b, InSpans (extendSpans rs start stop) b ↔ InSpans rs b ∨ (start ≤ b ∧ b < stop) := by
  have hbehind : ∀ r ∈ rs, r.2 ≤ stop := fun r hr => (h.behind r hr).trans (hpos.trans hlt.le)
  cases rs with
  | nil =>
    refine ⟨⟨?_, pairwise_singleton _ _, ?_⟩, fun b => inSpans_cons.trans or_comm⟩
    · exact forall_mem_singleton.mpr hlt
    · exact forall_mem_singleton.mpr le_rfl
  | cons last rs =>
    obtain ⟨hlast, hproper⟩ := forall_mem_cons.mp h.proper
    obtain ⟨hapart, hpair⟩ := pairwise_cons.mp h.apart
    have hend := h.behind last mem_cons_self
    rw [extendSpans]
    split
    · rename_i hmeet
      -- the interval starts where the last one ends
      have hmax : max last.2 stop = stop := max_eq_right (hbehind last mem_cons_self)
      have heq : last.2 = start := le_antisymm (hend.trans hpos) hmeet
      rw [hmax]
      refine ⟨⟨?_, List.Pairwise.cons hapart hpair, ?_⟩, fun b => ?_⟩
      · exact forall_mem_cons.mpr ⟨(heq ▸ hlast).trans hlt, hproper⟩
      · exact forall_mem_cons.mpr ⟨le_rfl, fun r hr => hbehind r (mem_cons_of_mem _ hr)⟩
      · rw [inSpans_cons, inSpans_cons, heq]
        constructor
        · rintro (⟨hlo, hhi⟩ | hin)
          · rcases lt_or_ge b start with hb | hb
            · exact .inl (.inl ⟨hlo, hb⟩)
            · exact .inr ⟨hb, hhi⟩
          · exact .inl (.inr hin)
        · rintro ((⟨hlo, hhi⟩ | hin) | ⟨hlo, hhi⟩)
          · exact .inl ⟨hlo, hhi.trans hlt⟩
          · exact .inr hin
          · exact .inl ⟨((heq ▸ hlast).le).trans hlo, hhi⟩
    · rename_i hmeet
      refine ⟨⟨?_, ?_, ?_⟩, fun b => inSpans_cons.trans or_comm⟩
      · exact forall_mem_cons.mpr ⟨hlt, h.proper⟩
      · refine List.Pairwise.cons (fun r hr => ?_) h.apart
        rcases mem_cons.mp hr with rfl | hr
        · exact not_le.mp hmeet
        · exact (hapart r hr).trans (hlast.trans (not_le.mp hmeet))
      · exact forall_mem_cons.mpr ⟨le_rfl, hbehind⟩

end SpansTo

end EtcFS.Core
