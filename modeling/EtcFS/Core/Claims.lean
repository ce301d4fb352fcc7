import Mathlib.Data.Set.Lattice
import Mathlib.Data.List.Perm.Basic
import Mathlib.Order.CompletePartialOrder

/-!
# Things that are held, owed and free

What a holder gives up is owed until it is given back, and then it is free. Nothing is in two places
at once.
-/

namespace EtcFS.Core

variable {ι α : Type*}

structure Accounted (free : Set α) (held : ι → Set α) (owed : List (Set α)) : Prop where
  held_apart : ∀ i j, i ≠ j → Disjoint (held i) (held j)
  held_taken : ∀ i, Disjoint (held i) free
  owed_apart : owed.Pairwise Disjoint
  owed_taken : ∀ o ∈ owed, Disjoint o free
  owed_given : ∀ o ∈ owed, ∀ i, Disjoint o (held i)

namespace Accounted

variable {free free' : Set α} {held held' : ι → Set α} {owed owed' : List (Set α)} {o : Set α}

theorem perm (h : Accounted free held owed) (hp : owed.Perm owed') : Accounted free held owed' where
  held_apart := h.held_apart
  held_taken := h.held_taken
  owed_apart := hp.pairwise h.owed_apart fun h => h.symm
  owed_taken := fun o ho => h.owed_taken o (hp.mem_iff.mpr ho)
  owed_given := fun o ho => h.owed_given o (hp.mem_iff.mpr ho)

theorem take (h : Accounted free held owed) (hfree : free' ⊆ free) : Accounted free' held owed where
  held_apart := h.held_apart
  held_taken := fun i => (h.held_taken i).mono_right hfree
  owed_apart := h.owed_apart
  owed_taken := fun o ho => (h.owed_taken o ho).mono_right hfree
  owed_given := h.owed_given

theorem forget (h : Accounted free held (o :: owed)) : Accounted free held owed where
  held_apart := h.held_apart
  held_taken := h.held_taken
  owed_apart := (List.pairwise_cons.mp h.owed_apart).2
  owed_taken := fun x hx => h.owed_taken x (List.mem_cons_of_mem _ hx)
  owed_given := fun x hx => h.owed_given x (List.mem_cons_of_mem _ hx)

theorem giveBack (h : Accounted free held (o :: owed)) (hfree : free' ⊆ free ∪ o) :
    Accounted free' held owed where
  held_apart := h.held_apart
  held_taken := fun i =>
    (Set.disjoint_union_right.mpr ⟨h.held_taken i,
      (h.owed_given o List.mem_cons_self i).symm⟩).mono_right hfree
  owed_apart := (List.pairwise_cons.mp h.owed_apart).2
  owed_taken := fun x hx =>
    (Set.disjoint_union_right.mpr ⟨h.owed_taken x (List.mem_cons_of_mem _ hx),
      ((List.pairwise_cons.mp h.owed_apart).1 x hx).symm⟩).mono_right hfree
  owed_given := fun x hx => h.owed_given x (List.mem_cons_of_mem _ hx)

theorem giveUp (h : Accounted free held owed) {i : ι} (hsub : ∀ j, held' j ⊆ held j)
    (ho : o ⊆ held i) (hkept : Disjoint o (held' i)) : Accounted free held' (o :: owed) where
  held_apart := fun j k hjk => (h.held_apart j k hjk).mono (hsub j) (hsub k)
  held_taken := fun j => (h.held_taken j).mono_left (hsub j)
  owed_apart := List.pairwise_cons.mpr
    ⟨fun x hx => ((h.owed_given x hx i).mono_right ho).symm, h.owed_apart⟩
  owed_taken := by
    intro x hx
    rcases List.mem_cons.mp hx with rfl | hx
    · exact (h.held_taken i).mono_left ho
    · exact h.owed_taken x hx
  owed_given := by
    intro x hx j
    rcases List.mem_cons.mp hx with rfl | hx
    · by_cases hij : i = j
      · exact hij ▸ hkept
      · exact (h.held_apart i j hij).mono ho (hsub j)
    · exact (h.owed_given x hx j).mono_right (hsub j)

end Accounted

theorem flatMap_set_perm {β γ : Type*} (f : β → List γ) {l : List β} {i : Nat} {b : β}
    (h : l[i]? = some b) : ∃ rest, (l.flatMap f).Perm (f b ++ rest) ∧
      ∀ b', ((l.set i b').flatMap f).Perm (f b' ++ rest) := by
  induction l generalizing i with
  | nil => cases h
  | cons x l ih =>
    cases i with
    | zero =>
      cases h
      exact ⟨l.flatMap f, List.Perm.refl _, fun b' => List.Perm.refl _⟩
    | succ i =>
      obtain ⟨rest, hperm, hset⟩ := ih h
      -- The parts of the first member move behind those of the one replaced.
      have hswap : ∀ ys : List γ, (f x ++ (ys ++ rest)).Perm (ys ++ (f x ++ rest)) := fun ys => by
        rw [← List.append_assoc, ← List.append_assoc]
        exact List.perm_append_comm.append_right _
      refine ⟨f x ++ rest, ?_, fun b' => ?_⟩
      · rw [List.flatMap_cons]
        exact (hperm.append_left _).trans (hswap _)
      · rw [List.set_cons_succ, List.flatMap_cons]
        exact ((hset b').append_left _).trans (hswap _)

end EtcFS.Core
