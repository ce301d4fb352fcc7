import Mathlib.Algebra.Order.Ring.Nat
import Mathlib.Tactic.Ring

/-!
# Little-endian fields of a byte buffer

A field is the number that consecutive bytes spell. One read at the wrong offset is a mixture of the
fields it straddles.
-/

namespace EtcFS.Core.Bytes

open List

def le : List UInt8 → Nat
  | [] => 0
  | b :: bs => b.toNat + 256 * le bs

theorem le_append (bs bs' : List UInt8) : le (bs ++ bs') = le bs + 256 ^ bs.length * le bs' := by
  induction bs with
  | nil => simp [le]
  | cons b bs ih =>
    simp only [cons_append, le, ih, length_cons]
    ring

theorem le_lt (bs : List UInt8) : le bs < 256 ^ bs.length := by
  induction bs with
  | nil => simp [le]
  | cons b bs ih =>
    have hb : b.toNat < 256 := b.toNat_lt
    rw [le, length_cons, Nat.pow_succ]
    omega

def field (buf : List UInt8) (off width : Nat) : Nat := le ((buf.drop off).take width)

theorem field_lt (buf : List UInt8) (off width : Nat) : field buf off width < 256 ^ width := by
  have hlen : ((buf.drop off).take width).length ≤ width := length_take_le ..
  exact lt_of_lt_of_le (le_lt _) (Nat.pow_le_pow_right (by decide) hlen)

theorem field_add {buf : List UInt8} (off w w' : Nat) (h : off + w ≤ buf.length) :
    field buf off (w + w') = field buf off w + 256 ^ w * field buf (off + w) w' := by
  have hlen : ((buf.drop off).take w).length = w := by
    rw [length_take, length_drop]
    omega
  rw [field, take_add, le_append, hlen, drop_drop]
  rfl

def leBytes : Nat → Nat → List UInt8
  | 0, _ => []
  | w + 1, n => UInt8.ofNat n :: leBytes w (n / 256)

theorem length_leBytes (w n : Nat) : (leBytes w n).length = w := by
  induction w generalizing n with
  | zero => rfl
  | succ w ih => rw [leBytes, length_cons, ih]

theorem le_leBytes (w n : Nat) : le (leBytes w n) = n % 256 ^ w := by
  induction w generalizing n with
  | zero => rw [leBytes, le, Nat.pow_zero, Nat.mod_one]
  | succ w ih =>
    have hbyte : (UInt8.ofNat n).toNat = n % 256 := UInt8.toNat_ofNat'
    rw [leBytes, le, ih, hbyte, Nat.pow_succ, Nat.mul_comm (256 ^ w), Nat.mod_mul]

/-! ## Big-endian fields -/

def be (bs : List UInt8) : Nat := le bs.reverse

def beBytes (w n : Nat) : List UInt8 := (leBytes w n).reverse

def beField (buf : List UInt8) (off width : Nat) : Nat := be ((buf.drop off).take width)

@[simp] theorem length_beBytes (w n : Nat) : (beBytes w n).length = w := by
  rw [beBytes, length_reverse, length_leBytes]

theorem be_beBytes {w n : Nat} (h : n < 256 ^ w) : be (beBytes w n) = n := by
  rw [be, beBytes, reverse_reverse, le_leBytes, Nat.mod_eq_of_lt h]

theorem beField_self {w n : Nat} (h : n < 256 ^ w) (rest : List UInt8) :
    beField (beBytes w n ++ rest) 0 w = n := by
  rw [beField, drop_zero, take_left' (length_beBytes w n), be_beBytes h]

theorem beField_skip {w off : Nat} (h : w ≤ off) (n width : Nat) (rest : List UInt8) :
    beField (beBytes w n ++ rest) off width = beField rest (off - w) width := by
  rw [beField, beField, drop_append, length_beBytes, drop_eq_nil_of_le, nil_append]
  rw [length_beBytes]
  exact h

end EtcFS.Core.Bytes
