import Mathlib.Order.Lattice
import Mathlib.Order.Defs.LinearOrder
import Mathlib.Data.List.Basic

/-!
# First match over an ordered list of intervals

A cursor takes, at every point it stands on, the first interval that reaches past it. On a list
ordered by lower end this is first match.
-/

namespace EtcFS.Core

open List

structure Stretch (ι α : Type*) where
  first : ι
  last : ι
  source : α
  deriving DecidableEq, Repr

section

variable {ι α : Type*} [LinearOrder ι] (lo hi : α → ι)

def Inside (b : ι) (x : α) : Prop := lo x ≤ b ∧ b < hi x
  deriving Decidable

def cursorWalk (stop : ι) : ι → List α → List (Stretch ι α)
  | _, [] => []
  | pos, x :: xs =>
    if stop ≤ pos ∨ stop ≤ lo x then []
    else if hi x ≤ pos then cursorWalk stop pos xs
    else ⟨max pos (lo x), min (hi x) stop, x⟩ :: cursorWalk stop (min (hi x) stop) xs

variable {lo hi}

theorem cursorWalk_bounds {stop pos : ι} {xs : List α} {p : Stretch ι α}
    (h : p ∈ cursorWalk lo hi stop pos xs) :
    pos ≤ p.first ∧ lo p.source ≤ p.first ∧ p.last ≤ hi p.source ∧ p.last ≤ stop ∧
      p.source ∈ xs := by
  induction xs generalizing pos with
  | nil => simp [cursorWalk] at h
  | cons x xs ih =>
    simp only [cursorWalk] at h
    split at h
    · cases h
    · split at h
      · obtain ⟨h1, h2, h3, h4, h5⟩ := ih h
        exact ⟨h1, h2, h3, h4, mem_cons_of_mem _ h5⟩
      · rename_i hstop hpos
        rcases mem_cons.mp h with rfl | h
        · exact ⟨le_max_left _ _, le_max_right _ _, min_le_left _ _, min_le_right _ _,
            mem_cons_self⟩
        · obtain ⟨h1, h2, h3, h4, h5⟩ := ih h
          have hle : pos ≤ min (hi x) stop := by
            rw [not_or, not_le, not_le] at hstop
            exact le_min (not_le.mp hpos).le hstop.1.le
          exact ⟨hle.trans h1, h2, h3, h4, mem_cons_of_mem _ h5⟩

theorem cursorWalk_first_le_last (hle : ∀ x, lo x ≤ hi x) {stop pos : ι} {xs : List α}
    {p : Stretch ι α} (h : p ∈ cursorWalk lo hi stop pos xs) : p.first ≤ p.last := by
  induction xs generalizing pos with
  | nil => simp [cursorWalk] at h
  | cons x xs ih =>
    simp only [cursorWalk] at h
    split at h
    · cases h
    · split at h
      · exact ih h
      · rename_i hstop hpos
        rw [not_or, not_le, not_le] at hstop
        rcases mem_cons.mp h with rfl | h
        · exact max_le (le_min (not_le.mp hpos).le hstop.1.le) (le_min (hle x) hstop.2.le)
        · exact ih h

theorem cursorWalk_eq_find? {stop pos : ι} {xs : List α}
    (hsorted : xs.Pairwise fun x y => lo x ≤ lo y) {b : ι} (hpos : pos ≤ b) (hstop : b < stop)
    (x : α) : (∃ p ∈ cursorWalk lo hi stop pos xs, p.first ≤ b ∧ b < p.last ∧ p.source = x) ↔
      xs.find? (fun y => decide (Inside lo hi b y)) = some x := by
  induction xs generalizing pos with
  | nil => simp [cursorWalk]
  | cons y ys ih =>
    obtain ⟨hy, hys⟩ := pairwise_cons.mp hsorted
    -- Nothing in the list starts before its head, so a point before the head is taken by none.
    have hbefore : b < lo y → ∀ z ∈ y :: ys, ¬ Inside lo hi b z := by
      intro hb z hz hin
      rcases mem_cons.mp hz with rfl | hz
      · exact absurd hin.1 (not_le.mpr hb)
      · exact absurd (hin.1.trans_lt hb) (not_lt.mpr (hy z hz))
    by_cases hend : stop ≤ pos ∨ stop ≤ lo y
    · have hlo : b < lo y := hend.elim
        (fun h => absurd (h.trans hpos) (not_le.mpr hstop)) (fun h => hstop.trans_le h)
      have hnone : (y :: ys).find? (fun z => decide (Inside lo hi b z)) = none := by
        rw [find?_eq_none]
        intro z hz
        simpa using hbefore hlo z hz
      simp [cursorWalk, hend, hnone]
    · rw [not_or, not_le, not_le] at hend
      simp only [cursorWalk, not_le.mpr hend.1, not_le.mpr hend.2, or_self, if_false]
      by_cases hbehind : hi y ≤ pos
      · have hnot : ¬ Inside lo hi b y := fun h => absurd (hbehind.trans hpos) (not_le.mpr h.2)
        rw [if_pos hbehind, ih hys hpos, find?_cons_of_neg (by simpa using hnot)]
      · rw [if_neg hbehind]
        rw [not_le] at hbehind
        by_cases hin : Inside lo hi b y
        · -- The head contains the point, and what the rest takes lies past the head's end.
          rw [find?_cons_of_pos (by simpa using hin)]
          constructor
          · rintro ⟨p, hp, hfirst, -, rfl⟩
            rcases mem_cons.mp hp with rfl | hp
            · rfl
            · have hle := (cursorWalk_bounds hp).1
              exact absurd (hle.trans hfirst) (not_le.mpr (lt_min hin.2 hstop))
          · rintro ⟨⟩
            exact ⟨_, mem_cons_self, max_le hpos hin.1, lt_min hin.2 hstop, rfl⟩
        · rw [find?_cons_of_neg (by simpa using hin)]
          have hskip : (∃ p ∈ (⟨max pos (lo y), min (hi y) stop, y⟩ : Stretch ι α) ::
                cursorWalk lo hi stop (min (hi y) stop) ys,
                p.first ≤ b ∧ b < p.last ∧ p.source = x) ↔
              ∃ p ∈ cursorWalk lo hi stop (min (hi y) stop) ys,
                p.first ≤ b ∧ b < p.last ∧ p.source = x := by
            constructor
            · rintro ⟨p, hp, hfirst, hlast, hx⟩
              rcases mem_cons.mp hp with rfl | hp
              · exact absurd ⟨(le_max_right _ _).trans hfirst, hlast.trans_le (min_le_left _ _)⟩ hin
              · exact ⟨p, hp, hfirst, hlast, hx⟩
            · rintro ⟨p, hp, h⟩
              exact ⟨p, mem_cons_of_mem _ hp, h⟩
          rw [hskip]
          by_cases hlo : b < lo y
          · have hnone : ys.find? (fun z => decide (Inside lo hi b z)) = none := by
              rw [find?_eq_none]
              intro z hz
              simpa using hbefore hlo z (mem_cons_of_mem _ hz)
            rw [hnone]
            constructor
            · rintro ⟨p, hp, hfirst, hlast, -⟩
              obtain ⟨-, h2, h3, -, h5⟩ := cursorWalk_bounds hp
              exact absurd ⟨h2.trans hfirst, hlast.trans_le h3⟩
                (hbefore hlo _ (mem_cons_of_mem _ h5))
            · rintro ⟨⟩
          · rw [not_lt] at hlo
            have hhi : hi y ≤ b := not_lt.mp fun h => hin ⟨hlo, h⟩
            exact ih hys ((min_le_left _ _).trans hhi)

theorem cursorWalk_pairwise (stop pos : ι) (xs : List α) :
    (cursorWalk lo hi stop pos xs).Pairwise fun p q => p.last ≤ q.first := by
  induction xs generalizing pos with
  | nil => exact List.Pairwise.nil
  | cons x xs ih =>
    simp only [cursorWalk]
    split
    · exact List.Pairwise.nil
    · split
      · exact ih pos
      · exact List.Pairwise.cons (fun q hq => (cursorWalk_bounds hq).1) (ih _)

end

theorem find?_eq_some_iff_least {α : Type*} {r : α → α → Prop} [Std.Asymm r] {xs : List α}
    (hr : xs.Pairwise r) {p : α → Bool} {x : α} :
    xs.find? p = some x ↔ x ∈ xs ∧ p x = true ∧ ∀ y ∈ xs, p y = true → y = x ∨ r x y := by
  induction xs with
  | nil => simp
  | cons z zs ih =>
    obtain ⟨hz, hzs⟩ := pairwise_cons.mp hr
    by_cases hp : p z = true
    · rw [find?_cons_of_pos hp]
      constructor
      · rintro ⟨⟩
        refine ⟨mem_cons_self, hp, ?_⟩
        intro y hy _
        rcases mem_cons.mp hy with rfl | hy
        · exact .inl rfl
        · exact .inr (hz y hy)
      · rintro ⟨hx, -, hleast⟩
        rcases mem_cons.mp hx with rfl | hx
        · rfl
        · rcases hleast z mem_cons_self hp with rfl | hxz
          · rfl
          · exact absurd hxz (Std.Asymm.asymm _ _ (hz x hx))
    · rw [find?_cons_of_neg hp, ih hzs]
      simp only [mem_cons, forall_eq_or_imp]
      constructor
      · rintro ⟨hx, hpx, hleast⟩
        exact ⟨.inr hx, hpx, fun h => absurd h hp, hleast⟩
      · rintro ⟨hx, hpx, hleast⟩
        have hne : x ≠ z := by
          rintro rfl
          exact hp hpx
        exact ⟨hx.resolve_left hne, hpx, hleast.2⟩

end EtcFS.Core
