import EtcFS.Namespace.Descent

/-!
# The parent chain of an inode

Where each inode of the chain is named once, the walk over the index follows it, and enough steps
lead everywhere the chain does.
-/

namespace EtcFS.Correctness

open EtcFS.Core Namespace Relation Option List
open Metadata hiding Key Val getInode

/-! ## The walk over an index -/

section

variable {index : Nat → Option Nat} {ancestor steps ino : Nat}

def above (index : Nat → Option Nat) (c : Nat) : Nat := (index c).getD c

theorem reach_of_walkUp_true (h : walkUp index ancestor steps ino = some true) :
    ReflTransGen (fun c p => index c = some p) ino ancestor := by
  induction steps generalizing ino with
  | zero => cases h
  | succ steps ih =>
    rw [walkUp] at h
    split at h
    · cases h
    · next p hp =>
      split at h
      · next he => exact he ▸ .single hp
      · exact .head hp (ih h)

theorem end_of_walkUp_false (h : walkUp index ancestor steps ino = some false) :
    ∃ x, ReflTransGen (fun c p => index c = some p) ino x ∧ index x = none := by
  induction steps generalizing ino with
  | zero => cases h
  | succ steps ih =>
    rw [walkUp] at h
    split at h
    · next hnone => exact ⟨ino, .refl, hnone⟩
    · next p hp =>
      split at h
      · cases h
      · obtain ⟨x, hx, hend⟩ := ih h
        exact ⟨x, .head hp hx, hend⟩

theorem run_of_walkUp_none (h : walkUp index ancestor steps ino = none) :
    ∀ i < steps, index ((above index)^[i] ino) = some ((above index)^[i + 1] ino) ∧
      (above index)^[i + 1] ino ≠ ancestor := by
  induction steps generalizing ino with
  | zero => intro i hi; cases hi
  | succ steps ih =>
    rw [walkUp] at h
    split at h
    · cases h
    · next p hp =>
      have hstep : above index ino = p := by rw [above, hp, getD_some]
      split at h
      · cases h
      · next hne =>
        intro i hi
        cases i with
        | zero => simpa [hstep] using ⟨hp, hne⟩
        | succ i => simpa only [Function.iterate_succ_apply, hstep] using ih h i (by omega)

theorem exists_iterate_of_reach {x : Nat}
    (h : ReflTransGen (fun c p => index c = some p) ino x) : ∃ k, x = (above index)^[k] ino := by
  induction h with
  | refl => exact ⟨0, rfl⟩
  | tail _ hstep ih =>
    obtain ⟨k, rfl⟩ := ih
    refine ⟨k + 1, ?_⟩
    rw [Function.iterate_succ_apply', above, hstep, getD_some]

/-- A walk that runs out of steps is caught in a cycle without the ancestor. -/
theorem cycle_of_walkUp_none {named : Finset Nat} (hnamed : ∀ c p, index c = some p → c ∈ named)
    (hsteps : named.card < steps) (hne : ino ≠ ancestor)
    (h : walkUp index ancestor steps ino = none) {x : Nat}
    (hx : ReflTransGen (fun c p => index c = some p) ino x) :
    x ≠ ancestor ∧ index x ≠ none := by
  have hrun := run_of_walkUp_none h
  obtain ⟨k, rfl⟩ := exists_iterate_of_reach hx
  obtain ⟨i, hi, heq⟩ := exists_iterate_eq hsteps (fun i hi => hnamed _ _ (hrun i hi).1) k
  rw [heq, (hrun i hi).1]
  refine ⟨?_, some_ne_none _⟩
  cases i with
  | zero => exact hne
  | succ i => exact (hrun i (by omega)).2

end

/-! ## The chain of the entries -/

def OnChain (s : Tree) (ino x : Nat) : Prop := ReflTransGen (fun c p => Child s p c) ino x

def NamedOnce (s : Tree) (x : Nat) : Prop :=
  ∀ e ∈ entries s, ∀ e' ∈ entries s, e.ino = x → e'.ino = x → e' = e

section

variable {s : Tree} {ino : Nat}

theorem child_of_parentIndex {c p : Nat} (h : parentIndex (listEntries s) c = some p) :
    Child s p c := by
  obtain ⟨e, he, rfl⟩ := map_eq_some_iff.mp h
  obtain ⟨hmem, hino⟩ := mem_filter.mp (lastEntry_mem he)
  cases of_decide_eq_true hino
  exact ⟨e.name, mem_entries.mp (mem_listEntries.mp hmem)⟩

theorem parentIndex_of_child {c p : Nat} (honce : NamedOnce s c) (h : Child s p c) :
    parentIndex (listEntries s) c = some p := by
  obtain ⟨name, hname⟩ := h
  have he : (⟨p, name, c⟩ : Entry) ∈ entries s := mem_entries.mpr hname
  exact parentIndex_eq he fun e' he' hino => honce _ he e' he' rfl hino

theorem parentIndex_eq_none_iff {x : Nat} (honce : NamedOnce s x) :
    parentIndex (listEntries s) x = none ↔ ∀ p, ¬ Child s p x := by
  constructor
  · intro hnone p hp
    rw [parentIndex_of_child honce hp] at hnone
    cases hnone
  · intro h
    exact eq_none_iff_forall_ne_some.mpr fun p hp => h p (child_of_parentIndex hp)

theorem onChain_iff (honce : ∀ x, OnChain s ino x → NamedOnce s x) {x : Nat} :
    ReflTransGen (fun c p => parentIndex (listEntries s) c = some p) ino x ↔ OnChain s ino x := by
  constructor
  · intro h
    exact ReflTransGen.mono (fun _ _ => child_of_parentIndex) _ _ h
  · intro h
    induction h with
    | refl => exact .refl
    | tail hpath hstep ih => exact ih.tail (parentIndex_of_child (honce _ hpath) hstep)

theorem ino_mem_of_parentIndex {c p : Nat} (h : parentIndex (listEntries s) c = some p) :
    c ∈ ((listEntries s).map Entry.ino).toFinset := by
  obtain ⟨e, he, -⟩ := map_eq_some_iff.mp h
  obtain ⟨hmem, hino⟩ := mem_filter.mp (lastEntry_mem he)
  exact mem_toFinset.mpr (mem_map.mpr ⟨e, hmem, of_decide_eq_true hino⟩)

/-- What each answer of the walk says of the chain. -/
theorem isDescendant_sound (honce : ∀ x, OnChain s ino x → NamedOnce s x) (ancestor : Nat) :
    match isDescendant s ino ancestor with
    | some true => OnChain s ino ancestor
    | some false => ¬ OnChain s ino ancestor ∧ ∃ x, OnChain s ino x ∧ ∀ p, ¬ Child s p x
    | none => ¬ OnChain s ino ancestor ∧ ∀ x, OnChain s ino x → ∃ p, Child s p x := by
  rw [isDescendant]
  split_ifs with hino
  · exact hino ▸ .refl
  · cases hwalk : walkUp (parentIndex (listEntries s)) ancestor
        (((listEntries s).map Entry.ino).dedup.length + 1) ino with
    | none =>
      have hcycle := fun {x} => cycle_of_walkUp_none (x := x)
        (fun _ _ => ino_mem_of_parentIndex) (by rw [List.card_toFinset]; omega) hino hwalk
      refine ⟨fun h => (hcycle ((onChain_iff honce).mpr h)).1 rfl, fun x hx => ?_⟩
      have hsome := (hcycle ((onChain_iff honce).mpr hx)).2
      by_contra hnone
      exact hsome ((parentIndex_eq_none_iff (honce x hx)).mpr (not_exists.mp hnone))
    | some b =>
      cases b with
      | true => exact (onChain_iff honce).mp (reach_of_walkUp_true hwalk)
      | false =>
        constructor
        · intro h
          have hpath := (reflTransGen_iff_eq_or_transGen.mp
            ((onChain_iff honce).mpr h)).resolve_left
            (Ne.symm hino)
          exact not_above_of_walkUp hwalk (transGen_swap.mpr hpath)
        · obtain ⟨x, hx, hend⟩ := end_of_walkUp_false hwalk
          have hx := (onChain_iff honce).mp hx
          exact ⟨x, hx, (parentIndex_eq_none_iff (honce x hx)).mp hend⟩

end

/-- Where each inode of the chain is named at most once, the walk finds an ancestor exactly
if it is on the chain, says no exactly if the chain ends without it, and fails exactly if
the chain goes on forever without it. -/
theorem isDescendant_iff {s : Tree} {ino : Nat} (honce : ∀ x, OnChain s ino x → NamedOnce s x)
    (ancestor : Nat) :
    (isDescendant s ino ancestor = some true ↔ OnChain s ino ancestor) ∧
      (isDescendant s ino ancestor = some false ↔
        ¬ OnChain s ino ancestor ∧ ∃ x, OnChain s ino x ∧ ∀ p, ¬ Child s p x) ∧
      (isDescendant s ino ancestor = none ↔
        ¬ OnChain s ino ancestor ∧ ∀ x, OnChain s ino x → ∃ p, Child s p x) := by
  have hsound := isDescendant_sound honce ancestor
  rcases h : isDescendant s ino ancestor with _ | (_ | _) <;> rw [h] at hsound
  · obtain ⟨hoff, hon⟩ := hsound
    refine ⟨by simpa using hoff, ?_, by simpa using ⟨hoff, hon⟩⟩
    simp only [reduceCtorEq, false_iff, not_and, not_exists]
    intro _ x hx hend
    obtain ⟨p, hp⟩ := hon x hx
    exact hend p hp
  · obtain ⟨hoff, x, hx, hend⟩ := hsound
    refine ⟨by simpa using hoff, by simpa using ⟨hoff, x, hx, hend⟩, ?_⟩
    simp only [reduceCtorEq, false_iff, not_and, not_forall]
    intro _
    exact ⟨x, hx, fun ⟨p, hp⟩ => hend p hp⟩
  · refine ⟨by simpa using hsound, ?_, ?_⟩ <;>
      simp only [some.injEq, reduceCtorEq, Bool.true_eq_false, false_iff, not_and] <;>
      exact fun hoff => absurd hsound hoff

def namedInLoop : Tree :=
  Store.empty.commit [.put (.dirent 6 "a") 5, .put (.dirent 5 "b") 6, .put (.dirent 6 "c") 7]

theorem isDescendant_iff_namedInLoop :
    isDescendant namedInLoop 7 5 = some true ∧ isDescendant namedInLoop 7 1 = none ∧
      ¬ OnChain namedInLoop 7 1 := by
  have honce : ∀ x, OnChain namedInLoop 7 x → NamedOnce namedInLoop x := by
    have hall : ∀ e ∈ entries namedInLoop, ∀ e' ∈ entries namedInLoop, e'.ino = e.ino → e' = e := by
      decide +kernel
    rintro x - e he e' he' rfl hino
    exact hall e he e' he' hino
  have hlost : isDescendant namedInLoop 7 1 = none := by decide +kernel
  exact ⟨by decide +kernel, hlost, ((isDescendant_iff honce 1).2.2.mp hlost).1⟩

end EtcFS.Correctness
