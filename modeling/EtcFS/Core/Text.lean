import Mathlib.Algebra.Group.Nat.Defs
import Mathlib.Data.List.Infix

/-!
# Textual keys

A field that does not contain its separator is read back from any text it begins, so keys with
different fields are not prefixes of one another.
-/

namespace EtcFS.Core

open List Option

abbrev Text := List Char

def decimal (n : Nat) : Text := Nat.toDigits 10 n

theorem decimal_inj {m n : Nat} (h : decimal m = decimal n) : m = n := by
  have hread := congrArg (fun ds => Nat.ofDigitChars 10 ds 0) h
  simpa only [decimal, Nat.ofDigitChars_toDigits, Nat.reduceLT, Nat.reduceLeDiff] using hread

theorem not_mem_decimal {c : Char} (h : c.isDigit = false) (n : Nat) : c ∉ decimal n := by
  intro hc
  rw [Nat.isDigit_of_mem_toDigits (by decide) (by decide) hc] at h
  cases h

variable {sep : Char} {a b : Text}

theorem field_eq_of_begins {rest : Text} (ha : sep ∉ a) (hb : sep ∉ b)
    (h : a ++ [sep] <+: b ++ sep :: rest) : a = b := by
  induction a generalizing b with
  | nil =>
    cases b with
    | nil => rfl
    | cons y b =>
      have hy : sep = y := (cons_prefix_cons.mp h).1
      exact absurd (hy ▸ mem_cons_self) hb
  | cons x a ih =>
    cases b with
    | nil =>
      have hx : x = sep := (cons_prefix_cons.mp h).1
      exact absurd (hx ▸ mem_cons_self) ha
    | cons y b =>
      obtain ⟨rfl, htail⟩ := cons_prefix_cons.mp h
      rw [ih (fun hc => ha (mem_cons_of_mem _ hc)) (fun hc => hb (mem_cons_of_mem _ hc)) htail]

theorem field_eq_of_append {c d : Text} (ha : sep ∉ a) (hb : sep ∉ b)
    (h : a ++ sep :: c = b ++ sep :: d) : a = b ∧ c = d := by
  have hpre : a ++ [sep] <+: b ++ sep :: d := ⟨c, by rw [← h, append_assoc]; rfl⟩
  obtain rfl := field_eq_of_begins ha hb hpre
  exact ⟨rfl, (cons.inj (append_cancel_left h)).2⟩

theorem begins_append_iff {c : Text} (hc : sep ∉ c) :
    a ++ [sep] <+: b ++ sep :: c ↔ a = b ∨ a ++ [sep] <+: b := by
  induction b generalizing a with
  | nil =>
    cases a with
    | nil => exact iff_of_true (prefix_append [sep] c) (.inl rfl)
    | cons x a =>
      refine iff_of_false (fun h => ?_) ?_
      · have htail : a ++ [sep] <+: c := (cons_prefix_cons.mp h).2
        exact hc (htail.subset mem_concat_self)
      · rintro (h | h)
        · cases h
        · exact cons_ne_nil _ _ (prefix_nil.mp h)
  | cons y b ih =>
    cases a with
    | nil => simp [cons_prefix_cons]
    | cons x a =>
      rw [cons_append, cons_append, cons_prefix_cons, ih, cons_prefix_cons,
        cons.injEq, and_or_left]

/-! ## Reading a text back -/

def cutPrefix : Text → Text → Option Text
  | [], s => some s
  | _ :: _, [] => none
  | c :: p, d :: s => if c = d then cutPrefix p s else none

def cut (sep : Char) : Text → Option (Text × Text)
  | [] => none
  | c :: s => if c = sep then some ([], s) else (cut sep s).map fun f => (c :: f.1, f.2)

def cutLast (sep : Char) (s : Text) : Option (Text × Text) :=
  (cut sep s.reverse).map fun f => (f.2.reverse, f.1.reverse)

def splitN (sep : Char) : Nat → Text → List Text
  | 0, _ => []
  | 1, s => [s]
  | n + 2, s =>
    match cut sep s with
    | none => [s]
    | some (field, rest) => field :: splitN sep (n + 1) rest

def parseUint (s : Text) : Option UInt64 :=
  if s.isEmpty = false ∧ s.all Char.isDigit ∧ Nat.ofDigitChars 10 s 0 < 2 ^ 64 then
    some (UInt64.ofNat (Nat.ofDigitChars 10 s 0))
  else none

@[simp] theorem cutPrefix_append (p s : Text) : cutPrefix p (p ++ s) = some s := by
  induction p with
  | nil => rfl
  | cons c p ih => rw [cons_append, cutPrefix, if_pos rfl, ih]

theorem cut_append (h : sep ∉ a) (b : Text) : cut sep (a ++ sep :: b) = some (a, b) := by
  induction a with
  | nil => exact if_pos rfl
  | cons c a ih =>
    have hc : c ≠ sep := fun hc => h (hc ▸ mem_cons_self)
    rw [cons_append, cut, if_neg hc, ih fun ha => h (mem_cons_of_mem _ ha)]
    rfl

theorem cutLast_append (a : Text) (h : sep ∉ b) : cutLast sep (a ++ sep :: b) = some (a, b) := by
  have hrev : (a ++ sep :: b).reverse = b.reverse ++ sep :: a.reverse := by
    rw [reverse_append, reverse_cons, append_assoc]
    rfl
  rw [cutLast, hrev, cut_append (fun hb => h (mem_reverse.mp hb)), map_some,
    reverse_reverse, reverse_reverse]

theorem splitN_append (h : sep ∉ a) (b : Text) (n : Nat) :
    splitN sep (n + 2) (a ++ sep :: b) = a :: splitN sep (n + 1) b := by
  rw [splitN, cut_append h]

theorem parseUint_decimal (n : UInt64) : parseUint (decimal n.toNat) = some n := by
  have hread : Nat.ofDigitChars 10 (decimal n.toNat) 0 = n.toNat :=
    Nat.ofDigitChars_toDigits (by decide) (by decide)
  have hdigits : (decimal n.toNat).all Char.isDigit = true :=
    all_eq_true.mpr fun c hc => Nat.isDigit_of_mem_toDigits (by decide) (by decide) hc
  have hne : (decimal n.toNat).isEmpty = false := isEmpty_eq_false_iff.mpr Nat.toDigits_ne_nil
  rw [parseUint, hread, if_pos ⟨hne, hdigits, n.toNat_lt⟩, UInt64.ofNat_toNat]

theorem parseUint_eq_some {n : Nat} {m : UInt64} (h : parseUint (decimal n) = some m) :
    m.toNat = n := by
  have hread : Nat.ofDigitChars 10 (decimal n) 0 = n :=
    Nat.ofDigitChars_toDigits (by decide) (by decide)
  obtain ⟨⟨-, -, hlt⟩, heq⟩ := ite_none_right_eq_some.mp h
  rw [hread] at hlt heq
  rw [← some.inj heq, UInt64.toNat_ofNat_of_lt' hlt]

theorem parseUint_eq_none {s : Text} {c : Char} (hc : c ∈ s) (h : c.isDigit = false) :
    parseUint s = none := by
  refine if_neg fun hs => ?_
  have hd := all_eq_true.mp hs.2.1 c hc
  exact Bool.false_ne_true (h.symm.trans hd)

/-! ## The order of texts -/

def before : Text → Text → Bool
  | _, [] => false
  | [], _ :: _ => true
  | a :: as, b :: bs => decide (a.toNat < b.toNat) || (decide (a = b) && before as bs)

theorem before_nil (a : Text) : before a [] = false := by
  cases a <;> rfl

theorem before_cons {a b : Char} {as bs : Text} : before (a :: as) (b :: bs) = true ↔
    a.toNat < b.toNat ∨ a = b ∧ before as bs = true := by
  rw [before, Bool.or_eq_true, Bool.and_eq_true, decide_eq_true_iff, decide_eq_true_iff]

theorem not_before_self (a : Text) : ¬ before a a = true := by
  induction a with
  | nil => exact Bool.false_ne_true
  | cons c a ih =>
    rw [before_cons]
    exact fun h => h.elim (Nat.lt_irrefl _) fun h => ih h.2

theorem before_asymm (h : before a b = true) : ¬ before b a = true := by
  induction a generalizing b with
  | nil =>
    rw [before_nil]
    exact Bool.false_ne_true
  | cons c a ih =>
    cases b with
    | nil => cases h
    | cons c' b =>
      rw [before_cons] at h ⊢
      rcases h with hlt | ⟨rfl, h⟩
      · rintro (hgt | ⟨rfl, -⟩)
        · exact Nat.lt_asymm hlt hgt
        · exact Nat.lt_irrefl _ hlt
      · exact fun h' => h'.elim (Nat.lt_irrefl _) fun h' => ih h h'.2

theorem before_append (p : Text) : before (p ++ a) (p ++ b) = true ↔ before a b = true := by
  induction p with
  | nil => exact Iff.rfl
  | cons c p ih =>
    rw [cons_append, cons_append, before_cons, ih]
    exact ⟨fun h => (h.resolve_left (Nat.lt_irrefl _)).2, fun h => .inr ⟨rfl, h⟩⟩

theorem not_before_snoc_zero : ¬ before b (a ++ ['\x00']) = true ↔ before a b = true := by
  induction a generalizing b with
  | nil =>
    cases b with
    | nil => decide
    | cons c b =>
      refine iff_of_true ?_ rfl
      rw [nil_append, before_cons]
      rintro (hlt | ⟨-, h⟩)
      · exact Nat.not_lt_zero _ hlt
      · rw [before_nil] at h
        cases h
  | cons x a ih =>
    cases b with
    | nil => exact iff_of_false (fun h => h rfl) Bool.false_ne_true
    | cons c b =>
      rw [cons_append, before_cons, before_cons, ← ih]
      by_cases hc : c = x
      · subst hc
        simp
      · have hne : c.toNat ≠ x.toNat := fun h => hc (Char.toNat_inj.mp h)
        have hc' : x ≠ c := fun h => hc h.symm
        simp only [hc, hc', false_and, or_false]
        omega

end EtcFS.Core
