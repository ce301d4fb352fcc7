import EtcFS.Metadata.Words

/-!
# What a split keeps and what it gives up

The rounding up of a length within a block of the 64-bit bound wraps around, and then every block of
the extent is forgotten.
-/

namespace EtcFS.Correctness

open Metadata

structure SplitsExactly (old : ExtentValue) (start stop : Nat) (parts : List ExtentValue)
    (freed : Nat × Nat) : Prop where
  covers : ∀ b, old.Covers b → ¬ (start ≤ b ∧ b < stop) →
    ∃ p ∈ parts, p.Covers b ∧ p.devicePos b = old.devicePos b
  aligned : ∀ p ∈ parts, blockSize ∣ p.diskOff
  stamped : ∀ p ∈ parts, p.seq = old.seq ∧ p.gen = old.gen ∧ p.node = old.node
  freed_aligned : blockSize ∣ freed.1 ∧ blockSize ∣ freed.2
  freed_inside : ∀ block ∈ rangeBlocks freed.1 freed.2, old.Touches block
  freed_apart : ∀ block ∈ rangeBlocks freed.1 freed.2, ∀ p ∈ parts, ¬ p.Touches block
  complete : ∀ block, old.Touches block →
    block ∈ rangeBlocks freed.1 freed.2 ∨ ∃ p ∈ parts, p.Touches block

theorem survivors_splitsExactly {old : ExtentValue} {start stop : Nat}
    (ha : blockSize ∣ old.diskOff) (hov : old.Overlaps start stop) :
    SplitsExactly old start stop (survivors old start stop) (givenUp old start stop) where
  covers := by
    intro b hb hout
    have hkept : b < start ∨ stop < old.endOff ∧ tailStart old stop ≤ b := by
      have hle := tailStart_le hov.1.le
      have hend := hb.2
      omega
    obtain ⟨p, hp, hc⟩ := (exists_survivor_covers_iff hov).mpr ⟨hb, hkept⟩
    exact ⟨p, hp, hc, (survivor_covers hov hp hc).2⟩
  aligned _ hp := survivor_aligned hp ha
  stamped := by
    intro p hp
    rcases mem_survivors.mp hp with ⟨_, rfl⟩ | ⟨_, rfl⟩
    · exact ⟨rfl, rfl, rfl⟩
    · exact ⟨rfl, rfl, rfl⟩
  freed_aligned := givenUp_aligned ha start stop
  freed_inside _ hb := (givenUp_spec ha hov hb).1
  freed_apart _ hb := (givenUp_spec ha hov hb).2
  complete _ ht := touches_cases ha ht

def splitParts (old : ExtentWords) (start stop : UInt64) : List ExtentValue :=
  ((old.splitAround start stop).1.toList ++ (old.splitAround start stop).2.toList).map
    ExtentWords.value

def splitFreed (old : ExtentWords) (start stop : UInt64) : Nat × Nat :=
  let freed := old.coveredBlocks (old.splitAround start stop).1 (old.splitAround start stop).2
  (freed.1.toNat, freed.2.toNat)

theorem splitParts_eq {old : ExtentWords} {start stop : UInt64} (hfit : old.Fits)
    (hlo : old.logOff < stop) :
    splitParts old start stop = survivors old.value start.toNat stop.toNat := by
  have hsplit := ExtentWords.splitAround_value start hfit hlo
  rw [survivors, ← hsplit, splitParts, List.map_append]
  have hlist : ∀ o : Option ExtentWords,
      o.toList.map ExtentWords.value = (o.map ExtentWords.value).toList := by
    intro o
    cases o <;> rfl
  rw [hlist, hlist]

/-- Every extent with a block-aligned device offset that ends inside the 64-bit range
with its last block, and every range that overlaps it: `SplitAround` and
`CoveredBlocks` split it exactly. -/
theorem splitAround_exact {old : ExtentWords} {start stop : UInt64}
    (ha : blockSize ∣ old.value.diskOff) (hov : old.value.Overlaps start.toNat stop.toNat)
    (hfit : old.Fits) :
    SplitsExactly old.value start.toNat stop.toNat (splitParts old start stop)
      (splitFreed old start stop) := by
  rw [splitParts_eq hfit (UInt64.lt_iff_toNat_lt.mpr hov.1), splitFreed,
    ExtentWords.coveredBlocks_value hfit hov]
  exact survivors_splitsExactly ha hov

def midExtent : ExtentWords := ⟨8192, 4096, 12288, 2, 5, "a"⟩

theorem midExtent_splitsExactly : blockSize ∣ midExtent.value.diskOff ∧
    midExtent.value.Overlaps (13000 : UInt64).toNat (14000 : UInt64).toNat ∧
    midExtent.Fits ∧
    SplitsExactly midExtent.value (13000 : UInt64).toNat (14000 : UInt64).toNat
      (splitParts midExtent 13000 14000) (splitFreed midExtent 13000 14000) := by
  have ha : blockSize ∣ midExtent.value.diskOff := by decide
  have hov : midExtent.value.Overlaps (13000 : UInt64).toNat (14000 : UInt64).toNat := by decide
  have hfit : midExtent.Fits := by decide
  exact ⟨ha, hov, hfit, splitAround_exact ha hov hfit⟩

def longExtent : ExtentWords := ⟨0, 0, 18446744073709547521, 0, 0, "a"⟩

/-- A write over all of the long extent leaves no part of it and gives nothing up: its
length rounded up to whole blocks is zero. -/
theorem longExtent_forgotten : blockSize ∣ longExtent.value.diskOff ∧
    longExtent.value.Overlaps 0 (18446744073709547521 : UInt64).toNat ∧
    splitParts longExtent 0 18446744073709547521 = [] ∧
    splitFreed longExtent 0 18446744073709547521 = (0, 0) ∧
    ¬ SplitsExactly longExtent.value 0 (18446744073709547521 : UInt64).toNat
      (splitParts longExtent 0 18446744073709547521)
      (splitFreed longExtent 0 18446744073709547521) := by
  have hparts : splitParts longExtent 0 18446744073709547521 = [] := by decide
  have hfreed : splitFreed longExtent 0 18446744073709547521 = (0, 0) := by decide
  refine ⟨by decide, by decide, hparts, hfreed, fun h => ?_⟩
  rw [hparts, hfreed] at h
  have htouch : longExtent.value.Touches 0 := ⟨0, by decide, by decide, by decide⟩
  rcases h.complete 0 htouch with hin | ⟨p, hp, -⟩
  · exact absurd hin (by decide)
  · cases hp

end EtcFS.Correctness
