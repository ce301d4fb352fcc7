import EtcFS.Metadata.Split

/-!
# Extents on 64-bit words

Where the extent and its rounding up to whole blocks end inside the 64-bit range, nothing wraps and
it splits as natural numbers do.
-/

namespace EtcFS.Metadata

open Option

structure ExtentWords where
  logOff : UInt64
  diskOff : UInt64
  length : UInt64
  gen : UInt64
  seq : UInt64
  node : NodeID
  deriving DecidableEq, Repr

namespace ExtentWords

def value (e : ExtentWords) : ExtentValue where
  logOff := e.logOff.toNat
  diskOff := e.diskOff.toNat
  length := e.length.toNat
  gen := e.gen.toNat
  seq := e.seq.toNat
  node := e.node

def endOff (e : ExtentWords) : UInt64 := e.logOff + e.length

def blockWord : UInt64 := 4096

def blocksFor (n : UInt64) : UInt64 := (n + blockWord - 1) / blockWord

def splitAround (old : ExtentWords) (start stop : UInt64) :
    Option ExtentWords × Option ExtentWords :=
  (if start > old.logOff then some { old with length := start - old.logOff } else none,
   if stop < old.endOff then
     let skip := (stop - old.logOff) / blockWord * blockWord
     some { old with
       logOff := old.logOff + skip
       diskOff := old.diskOff + skip
       length := old.length - skip }
   else none)

def coveredBlocks (old : ExtentWords) (head tail : Option ExtentWords) : UInt64 × UInt64 :=
  let first := (head.map fun h => blocksFor h.length).getD 0
  let last := (tail.map fun t => (t.diskOff - old.diskOff) / blockWord).getD (blocksFor old.length)
  if last ≤ first then (0, 0)
  else (old.diskOff + first * blockWord, (last - first) * blockWord)

def Fits (e : ExtentWords) : Prop :=
  e.logOff.toNat + e.length.toNat < 2 ^ 64 ∧ e.diskOff.toNat + e.length.toNat ≤ 2 ^ 64 ∧
    e.length.toNat + blockSize ≤ 2 ^ 64

instance (e : ExtentWords) : Decidable e.Fits := inferInstanceAs (Decidable (_ ∧ _))

theorem endOff_toNat {e : ExtentWords} (h : e.Fits) : e.endOff.toNat = e.value.endOff := by
  rw [endOff, UInt64.toNat_add]
  exact Nat.mod_eq_of_lt h.1

theorem blocksFor_toNat {n : UInt64} (h : n.toNat + blockSize ≤ 2 ^ 64) :
    (blocksFor n).toNat = Metadata.blocksFor n.toNat := by
  have hn := n.toNat_lt
  have hsub : (n + blockWord - 1).toNat = n.toNat + blockSize - 1 := by
    simp only [blockSize, blockWord, UInt64.toNat_sub, UInt64.toNat_add, UInt64.reduceToNat] at *
    omega
  rw [blocksFor, UInt64.toNat_div, hsub]
  rfl

section

variable {old : ExtentWords} {start stop : UInt64}

theorem skip_toNat (h : old.logOff ≤ stop) :
    ((stop - old.logOff) / blockWord * blockWord).toNat = tailSkip old.value stop.toNat := by
  have hlt := stop.toNat_lt
  have hle := UInt64.le_iff_toNat_le.mp h
  rw [UInt64.toNat_mul, UInt64.toNat_div, UInt64.toNat_sub_of_le _ _ h]
  simp only [tailSkip, value, blockSize, blockWord, UInt64.reduceToNat]
  omega

theorem value_head (hs : old.logOff < start) :
    value { old with length := start - old.logOff } = headOf old.value start.toNat := by
  simp only [value, headOf, UInt64.toNat_sub_of_le _ _ (UInt64.le_of_lt hs)]

theorem value_tail (hfit : old.Fits) (hlo : old.logOff ≤ stop) (hs : stop < old.endOff) :
    value { old with
      logOff := old.logOff + (stop - old.logOff) / blockWord * blockWord
      diskOff := old.diskOff + (stop - old.logOff) / blockWord * blockWord
      length := old.length - (stop - old.logOff) / blockWord * blockWord } =
      tailOf old.value stop.toNat := by
  have hskip := skip_toNat hlo
  have hle := UInt64.le_iff_toNat_le.mp hlo
  have hend := endOff_toNat hfit
  have hstop := UInt64.lt_iff_toNat_lt.mp hs
  have hlt : tailSkip old.value stop.toNat < old.length.toNat := by
    have hstart : tailStart old.value stop.toNat ≤ stop.toNat := tailStart_le hle
    simp only [tailStart, value, ExtentValue.endOff] at hstart hend ⊢
    omega
  obtain ⟨hlog, hdisk, -⟩ := hfit
  simp only [value, tailOf] at hskip hlt ⊢
  rw [ExtentValue.mk.injEq]
  refine ⟨?_, ?_, ?_, rfl, rfl, rfl⟩
  · rw [UInt64.toNat_add, hskip]
    exact Nat.mod_eq_of_lt (by omega)
  · rw [UInt64.toNat_add, hskip]
    exact Nat.mod_eq_of_lt (by omega)
  · rw [UInt64.toNat_sub_of_le _ _ (UInt64.le_iff_toNat_le.mpr (by omega)), hskip]

theorem splitAround_value (start : UInt64) (hfit : old.Fits) (hlo : old.logOff < stop) :
    ((old.splitAround start stop).1.map value, (old.splitAround start stop).2.map value) =
      Metadata.splitAround old.value start.toNat stop.toNat := by
  have hhead : start > old.logOff ↔ start.toNat > old.value.logOff := UInt64.lt_iff_toNat_lt
  have htail : stop < old.endOff ↔ stop.toNat < old.value.endOff := by
    rw [UInt64.lt_iff_toNat_lt, endOff_toNat hfit]
  simp only [splitAround, Metadata.splitAround, hhead, htail, apply_ite (Option.map value),
    map_some, map_none, Prod.mk.injEq]
  constructor
  · split
    · rename_i hs
      rw [value_head (hhead.mpr hs)]
    · rfl
  · split
    · rename_i hs
      rw [value_tail hfit (UInt64.le_of_lt hlo) (htail.mpr hs)]
    · rfl

theorem head_blocks_toNat (hfit : old.Fits) (hov : old.value.Overlaps start.toNat stop.toNat) :
    (((old.splitAround start stop).1.map fun h => blocksFor h.length).getD 0).toNat =
      headBlocks old.value start.toNat := by
  have hhead : start > old.logOff ↔ old.value.logOff < start.toNat := UInt64.lt_iff_toNat_lt
  obtain ⟨-, hhi⟩ := hov
  simp only [splitAround, hhead, headBlocks]
  split
  · rename_i hs
    have hsub := UInt64.toNat_sub_of_le _ _ (UInt64.le_of_lt (hhead.mpr hs))
    have hround : (start - old.logOff).toNat + blockSize ≤ 2 ^ 64 := by
      have hlen := hfit.2.2
      simp only [value, ExtentValue.endOff] at hhi
      omega
    rw [map_some, getD_some, blocksFor_toNat hround, hsub]
    rfl
  · rfl

theorem tail_block_toNat (start : UInt64) (hfit : old.Fits) (hlo : old.logOff < stop) :
    (((old.splitAround start stop).2.map fun t => (t.diskOff - old.diskOff) / blockWord).getD
      (blocksFor old.length)).toNat = tailBlock old.value stop.toNat := by
  have htail : stop < old.endOff ↔ stop.toNat < old.value.endOff := by
    rw [UInt64.lt_iff_toNat_lt, endOff_toNat hfit]
  simp only [splitAround, htail, tailBlock]
  split
  · have hcancel : old.diskOff + (stop - old.logOff) / blockWord * blockWord - old.diskOff =
        (stop - old.logOff) / blockWord * blockWord := by
      rw [UInt64.add_comm, UInt64.add_sub_cancel]
    rw [map_some, getD_some, hcancel, UInt64.toNat_div, skip_toNat (UInt64.le_of_lt hlo)]
    rfl
  · rw [map_none, getD_none, blocksFor_toNat hfit.2.2]
    rfl

theorem coveredBlocks_value (hfit : old.Fits) (hov : old.value.Overlaps start.toNat stop.toNat) :
    ((old.coveredBlocks (old.splitAround start stop).1 (old.splitAround start stop).2).1.toNat,
      (old.coveredBlocks (old.splitAround start stop).1 (old.splitAround start stop).2).2.toNat) =
      givenUp old.value start.toNat stop.toNat := by
  have hfirst := head_blocks_toNat hfit hov
  have hlast := tail_block_toNat start hfit (UInt64.lt_iff_toNat_lt.mpr hov.1)
  have hle := tailBlock_le hov
  rw [givenUp_eq, coveredBlocks, ← hfirst, ← hlast]
  rw [← hlast] at hle
  revert hle
  generalize ((old.splitAround start stop).1.map fun h => blocksFor h.length).getD 0 = first
  generalize ((old.splitAround start stop).2.map fun t =>
    (t.diskOff - old.diskOff) / blockWord).getD (blocksFor old.length) = last
  intro hle
  by_cases hlt : last ≤ first
  · rw [if_pos hlt, if_pos (UInt64.le_iff_toNat_le.mp hlt)]
    rfl
  · rw [if_neg hlt, if_neg fun h => hlt (UInt64.le_iff_toNat_le.mpr h)]
    rw [UInt64.le_iff_toNat_le] at hlt
    obtain ⟨-, hdisk, hlen⟩ := hfit
    have hsub : (last - first).toNat = last.toNat - first.toNat :=
      UInt64.toNat_sub_of_le _ _ (UInt64.le_iff_toNat_le.mpr (by omega))
    simp only [Prod.mk.injEq, UInt64.toNat_add, UInt64.toNat_mul, hsub, value,
      Metadata.blocksFor, blockSize, blockWord, UInt64.reduceToNat] at *
    omega

end

end ExtentWords

end EtcFS.Metadata
