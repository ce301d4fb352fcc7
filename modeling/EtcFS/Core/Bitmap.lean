import Mathlib.Data.Finset.Card
import Mathlib.Data.List.Basic
import Mathlib.Logic.Function.Basic

/-!
# A bitmap of 64-bit words

A search for a run of clear bits skips full words and takes the first clear bit it meets with the
clear bits right after it.
-/

namespace EtcFS.Core

open Function

abbrev Words := Nat → BitVec 64

namespace Words

def mask (b : Nat) : BitVec 64 := 1#64 <<< (b % 64)

def isClear (w : Words) (b : Nat) : Bool := w (b / 64) &&& mask b == 0#64

def set (w : Words) (b : Nat) : Words := Function.update w (b / 64) (w (b / 64) ||| mask b)

def clear (w : Words) (b : Nat) : Words := Function.update w (b / 64) (w (b / 64) &&& ~~~ mask b)

def setRange (w : Words) (start : Nat) : Nat → Words
  | 0 => w
  | n + 1 => (setRange w start n).set (start + n)

def clearRange (w : Words) (start : Nat) : Nat → Words
  | 0 => w
  | n + 1 => (clearRange w start n).clear (start + n)

def countClear (w : Words) : Nat → Nat → Nat
  | 0, _ => 0
  | n + 1, i => if w.isClear i then countClear w n (i + 1) + 1 else 0

def findRunIn (w : Words) (stop max : Nat) : Nat → Nat → Nat × Nat
  | 0, _ => (0, 0)
  | fuel + 1, i =>
    if i < stop then
      if w (i / 64) = BitVec.allOnes 64 then findRunIn w stop max fuel ((i / 64 + 1) * 64)
      else if w.isClear i then (i, w.countClear (min max (stop - i)) i)
      else findRunIn w stop max fuel (i + 1)
    else (0, 0)

def clearBits (w : Words) (bound : Nat) : Finset Nat :=
  (Finset.range bound).filter fun c => w.isClear c = true

variable {w : Words} {b c start n i stop max fuel bound : Nat}

theorem isClear_eq (w : Words) (b : Nat) : w.isClear b = !(w (b / 64)).getLsbD (b % 64) := by
  have hlt : b % 64 < 64 := Nat.mod_lt _ (by decide)
  have hand : w (b / 64) &&& mask b =
      if (w (b / 64)).getLsbD (b % 64) then BitVec.twoPow 64 (b % 64) else 0#64 :=
    BitVec.and_twoPow ..
  rw [isClear, hand]
  cases (w (b / 64)).getLsbD (b % 64) with
  | false => rfl
  | true =>
    have hpos : (BitVec.twoPow 64 (b % 64)).toNat ≠ 0 := by
      rw [BitVec.toNat_twoPow_of_lt hlt]
      exact Nat.ne_of_gt (Nat.two_pow_pos _)
    simpa using fun he => hpos (by rw [he]; rfl)

theorem eq_of_div_mod (hd : c / 64 = b / 64) (hm : c % 64 = b % 64) : c = b := by
  omega

theorem getLsbD_mask (b i : Nat) : (mask b).getLsbD i = decide (i = b % 64) := by
  have hb : b % 64 < 64 := Nat.mod_lt _ (by decide)
  rw [mask, ← BitVec.twoPow_eq, BitVec.getLsbD_twoPow]
  simp [hb, eq_comm]

theorem isClear_set : (w.set b).isClear c = (w.isClear c && decide (c ≠ b)) := by
  have hlt : c % 64 < 64 := Nat.mod_lt _ (by decide)
  rw [isClear_eq, isClear_eq, set]
  by_cases hd : c / 64 = b / 64
  · rw [hd, update_self, BitVec.getLsbD_or, getLsbD_mask]
    have hiff : c % 64 = b % 64 ↔ c = b := ⟨eq_of_div_mod hd, fun h => by rw [h]⟩
    simp [hiff]
  · rw [update_of_ne hd]
    have hne : c ≠ b := fun h => hd (by rw [h])
    simp [hne]

theorem isClear_clear : (w.clear b).isClear c = (w.isClear c || decide (c = b)) := by
  have hlt : c % 64 < 64 := Nat.mod_lt _ (by decide)
  rw [isClear_eq, isClear_eq, clear]
  by_cases hd : c / 64 = b / 64
  · rw [hd, update_self, BitVec.getLsbD_and, BitVec.getLsbD_not, getLsbD_mask]
    have hiff : c % 64 = b % 64 ↔ c = b := ⟨eq_of_div_mod hd, fun h => by rw [h]⟩
    simp [hiff, hlt]
  · rw [update_of_ne hd]
    have hne : c ≠ b := fun h => hd (by rw [h])
    simp [hne]

@[simp] theorem isClear_setRange :
    (w.setRange start n).isClear c = true ↔ w.isClear c = true ∧ ¬ (start ≤ c ∧ c < start + n) := by
  induction n with
  | zero =>
    rw [setRange]
    refine (and_iff_left ?_).symm
    omega
  | succ n ih =>
    rw [setRange, isClear_set, Bool.and_eq_true, ih, decide_eq_true_iff, and_assoc]
    refine and_congr_right fun _ => ?_
    omega

@[simp] theorem isClear_clearRange :
    (w.clearRange start n).isClear c = true ↔ w.isClear c = true ∨ (start ≤ c ∧ c < start + n) := by
  induction n with
  | zero =>
    rw [clearRange]
    refine (or_iff_left ?_).symm
    omega
  | succ n ih =>
    rw [clearRange, isClear_clear, Bool.or_eq_true, ih, decide_eq_true_iff, or_assoc]
    refine or_congr_right ?_
    omega

theorem countClear_le (w : Words) (n i : Nat) : w.countClear n i ≤ n := by
  induction n generalizing i with
  | zero => exact Nat.le_refl _
  | succ n ih =>
    rw [countClear]
    split
    · exact Nat.succ_le_succ (ih (i + 1))
    · exact Nat.zero_le _

theorem isClear_of_lt_countClear (h : c < w.countClear n i) : w.isClear (i + c) = true := by
  induction n generalizing i c with
  | zero => cases h
  | succ n ih =>
    rw [countClear] at h
    split at h
    · rename_i hi
      cases c with
      | zero => exact hi
      | succ c =>
        have := ih (Nat.lt_of_succ_lt_succ h)
        rwa [Nat.add_assoc, Nat.add_comm 1 c] at this
    · cases h

theorem findRunIn_spec (w : Words) (stop max fuel i : Nat) : (w.findRunIn stop max fuel i).2 ≤ max ∧
      ∀ c < (w.findRunIn stop max fuel i).2, (w.findRunIn stop max fuel i).1 + c < stop ∧
        w.isClear ((w.findRunIn stop max fuel i).1 + c) = true := by
  induction fuel generalizing i with
  | zero => simp [findRunIn]
  | succ fuel ih =>
    rw [findRunIn]
    split
    · rename_i hlt
      split
      · exact ih _
      · split
        · have hle := w.countClear_le (min max (stop - i)) i
          refine ⟨Nat.le_trans hle (Nat.min_le_left ..), ?_⟩
          intro c hc
          have hstop := Nat.lt_of_lt_of_le (Nat.lt_of_lt_of_le hc hle) (Nat.min_le_right ..)
          exact ⟨by omega, isClear_of_lt_countClear hc⟩
        · exact ih _
    · simp

theorem isClear_eq_false_of_full (h : w (b / 64) = BitVec.allOnes 64) : w.isClear b = false := by
  have hlt : b % 64 < 64 := Nat.mod_lt _ (by decide)
  rw [isClear_eq, h, BitVec.getLsbD_allOnes, decide_eq_true hlt]
  rfl

theorem findRunIn_complete (hmax : 0 < max) (hfuel : stop - i ≤ fuel)
    (h : (w.findRunIn stop max fuel i).2 = 0) (hlo : i ≤ c) (hhi : c < stop) :
    w.isClear c = false := by
  induction fuel generalizing i with
  | zero => omega
  | succ fuel ih =>
    rw [findRunIn, if_pos (Nat.lt_of_le_of_lt hlo hhi)] at h
    by_cases hfull : w (i / 64) = BitVec.allOnes 64
    · rw [if_pos hfull] at h
      by_cases hword : c / 64 = i / 64
      · rw [← hword] at hfull
        exact isClear_eq_false_of_full hfull
      · exact ih (by omega) h (by omega)
    · rw [if_neg hfull] at h
      by_cases hi : w.isClear i = true
      · -- the first clear bit is counted
        obtain ⟨n, hn⟩ : ∃ n, min max (stop - i) = n + 1 := ⟨min max (stop - i) - 1, by omega⟩
        rw [if_pos hi, hn, countClear, if_pos hi] at h
        cases h
      · rw [if_neg hi] at h
        by_cases hc : c = i
        · rw [hc]
          exact Bool.eq_false_iff.mpr hi
        · exact ih (by omega) h (by omega)

@[simp] theorem mem_clearBits : c ∈ w.clearBits bound ↔ c < bound ∧ w.isClear c = true := by
  rw [clearBits, Finset.mem_filter, Finset.mem_range]

theorem card_clearBits_setRange (h : ∀ c < n, start + c < bound ∧ w.isClear (start + c) = true) :
    ((w.setRange start n).clearBits bound).card + n = (w.clearBits bound).card := by
  induction n with
  | zero => rfl
  | succ n ih =>
    have hmem : start + n ∈ (w.setRange start n).clearBits bound := by
      obtain ⟨hlt, hclear⟩ := h n (Nat.lt_succ_self n)
      rw [mem_clearBits, isClear_setRange]
      exact ⟨hlt, hclear, by omega⟩
    have herase : (w.setRange start (n + 1)).clearBits bound =
        ((w.setRange start n).clearBits bound).erase (start + n) := by
      ext c
      rw [Finset.mem_erase, mem_clearBits, mem_clearBits, setRange, isClear_set, Bool.and_eq_true,
        decide_eq_true_iff]
      tauto
    have hcard := Finset.card_erase_add_one hmem
    rw [← herase] at hcard
    have hrest := ih fun c hc => h c (Nat.lt_succ_of_lt hc)
    omega

end Words

end EtcFS.Core
