import Mathlib.Data.Finset.Card
import Mathlib.Logic.Function.Iterate
import Mathlib.Logic.Relation

/-!
# Paths, when an edge comes or goes and when each point has one edge

Relations that differ in one edge have the same paths, except for those that use it.
-/

namespace EtcFS.Core

open Relation

variable {α : Type*} {R R' : α → α → Prop} {a b x y : α}

theorem path_split (hR : ∀ p q, R p q → R' p q ∨ p = a ∧ q = b) (h : ReflTransGen R x y) :
    ReflTransGen R' x y ∨ ReflTransGen R' x a ∧ ReflTransGen R' b y := by
  induction h with
  | refl => exact .inl .refl
  | tail _ hstep ih =>
    rcases hR _ _ hstep with hstep | ⟨rfl, rfl⟩
    · rcases ih with ih | ⟨ha, hb⟩
      · exact .inl (ih.tail hstep)
      · exact .inr ⟨ha, hb.tail hstep⟩
    · rcases ih with ih | ⟨ha, -⟩
      · exact .inr ⟨ih, .refl⟩
      · exact .inr ⟨ha, .refl⟩

theorem cycle_split (hR : ∀ p q, R p q → R' p q ∨ p = a ∧ q = b) (h : TransGen R x x) :
    TransGen R' x x ∨ ReflTransGen R' b a := by
  obtain ⟨z, hxz, hzx⟩ := TransGen.head'_iff.mp h
  rcases hR x z hxz with hstep | ⟨rfl, rfl⟩
  · rcases path_split hR hzx with hzx | ⟨hza, hbx⟩
    · exact .inl (TransGen.head' hstep hzx)
    · exact .inr (hbx.trans (hza.head hstep))
  · rcases path_split hR hzx with hzx | ⟨-, hbx⟩
    · exact .inr hzx
    · exact .inr hbx

/-- A run of more steps than there is room for has been everywhere it will ever be. -/
theorem exists_iterate_eq {room : Finset α} {f : α → α} {n : Nat}
    (hn : room.card < n) (hroom : ∀ i < n, f^[i] x ∈ room) (k : Nat) :
    ∃ i < n, f^[k] x = f^[i] x := by
  obtain ⟨i, j, hij, hjn, heq⟩ : ∃ i j, i < j ∧ j < n ∧ f^[i] x = f^[j] x := by
    obtain ⟨i, hi, j, hj, hne, heq⟩ := Finset.exists_ne_map_eq_of_card_lt_of_maps_to
      (s := Finset.range n) (t := room) (f := fun i => f^[i] x) (by simpa using hn)
      (fun i hi => hroom i (Finset.mem_range.mp hi))
    rcases Nat.lt_or_gt_of_ne hne with hlt | hgt
    · exact ⟨i, j, hlt, Finset.mem_range.mp hj, heq⟩
    · exact ⟨j, i, hgt, Finset.mem_range.mp hi, heq.symm⟩
  induction k using Nat.strong_induction_on with
  | _ k ih =>
    by_cases hk : k < n
    · exact ⟨k, hk, rfl⟩
    · -- The first repetition takes a later step back by the length of the cycle.
      have hback : f^[k] x = f^[k - j + i] x := by
        rw [Function.iterate_add_apply, heq, ← Function.iterate_add_apply]
        congr 1
        omega
      obtain ⟨m, hm, hmeq⟩ := ih (k - j + i) (by omega)
      exact ⟨m, hm, hback.trans hmeq⟩

end EtcFS.Core
