import Mathlib.Data.Finset.Insert
import Mathlib.Logic.Relation

/-!
# Traversals of finite graphs

A traversal with a stack comes to an end, and it has then accounted for each point that can be
reached, once.
-/

namespace EtcFS.Core

open Relation List Option

variable {α β : Type*} [DecidableEq α]

def succs (edges : List (α × α)) (p : α) : List α :=
  (edges.filter fun e => e.1 = p).map Prod.snd

theorem mem_succs {edges : List (α × α)} {p c : α} : c ∈ succs edges p ↔ (p, c) ∈ edges := by
  simp only [succs, List.mem_map, mem_filter, decide_eq_true_eq]
  constructor
  · rintro ⟨e, ⟨hmem, rfl⟩, rfl⟩
    exact hmem
  · exact fun h => ⟨(p, c), ⟨h, rfl⟩, rfl⟩

/-- The top of the stack is the head of the list. -/
def traverse (children : α → List α) (charge : β → α → β) :
    Nat → List α → Finset α → β → Option β
  | _, [], _, b => some b
  | 0, _ :: _, _, _ => none
  | fuel + 1, x :: stack, seen, b =>
    if x ∈ seen then traverse children charge fuel stack seen b
    else traverse children charge fuel ((children x).reverse ++ stack) (insert x seen) (charge b x)

section

variable {edges : List (α × α)} {children : α → List α} {charge : β → α → β} {fuel : Nat}
  {stack : List α} {seen : Finset α} {b b' : β}

theorem countP_unseen {x : α} (hx : x ∉ seen) : edges.countP (fun e => e.1 ∉ seen) =
      (succs edges x).length + edges.countP fun e => e.1 ∉ insert x seen := by
  rw [succs, length_map, ← countP_eq_length_filter]
  induction edges with
  | nil => rfl
  | cons e edges ih =>
    rw [countP_cons, countP_cons, countP_cons, ih]
    by_cases he : e.1 = x
    · simp only [he, hx, Finset.mem_insert_self, not_true_eq_false, not_false_eq_true, decide_true,
        decide_false, if_true, Bool.false_eq_true, if_false]
      omega
    · simp only [he, Finset.mem_insert, false_or, decide_false, Bool.false_eq_true, if_false]
      omega

/-- Each point that is passed over leaves the stack, and each that is accounted for leaves
with its edges, which do not come back. -/
theorem traverse_isSome (hfuel : stack.length + edges.countP (fun e => e.1 ∉ seen) ≤ fuel) :
    (traverse (succs edges) charge fuel stack seen b).isSome = true := by
  induction fuel generalizing stack seen b with
  | zero =>
    cases stack with
    | nil => rfl
    | cons x stack =>
      rw [length_cons] at hfuel
      omega
  | succ fuel ih =>
    cases stack with
    | nil => rfl
    | cons x stack =>
      rw [length_cons] at hfuel
      rw [traverse]
      split_ifs with hx
      · exact ih (by omega)
      · rw [countP_unseen hx] at hfuel
        refine ih ?_
        rw [length_append, length_reverse]
        omega

/-- What a traversal accounts for from here on: new points, reached from the stack, that
together with those seen before are closed under edges. -/
theorem traverse_visits (h : traverse children charge fuel stack seen b = some b') :
    ∃ l : List α, b' = l.foldl charge b ∧ l.Nodup ∧ (∀ x ∈ l, x ∉ seen) ∧
      (∀ x ∈ l, ∃ y ∈ stack, ReflTransGen (fun p c => c ∈ children p) y x) ∧
      (∀ x ∈ stack, x ∈ seen ∨ x ∈ l) ∧ ∀ x ∈ l, ∀ c ∈ children x, c ∈ seen ∨ c ∈ l := by
  induction fuel generalizing stack seen b with
  | zero =>
    cases stack with
    | nil =>
      cases h
      exact ⟨[], rfl, nodup_nil, by simp⟩
    | cons x stack => cases h
  | succ fuel ih =>
    cases stack with
    | nil =>
      cases h
      exact ⟨[], rfl, nodup_nil, by simp⟩
    | cons x stack =>
      rw [traverse] at h
      split_ifs at h with hx
      · obtain ⟨l, hb, hnodup, hnew, hreach, hstack, hclosed⟩ := ih h
        refine ⟨l, hb, hnodup, hnew, fun y hy => ?_, fun y hy => ?_, hclosed⟩
        · obtain ⟨z, hz, hpath⟩ := hreach y hy
          exact ⟨z, mem_cons_of_mem _ hz, hpath⟩
        · rcases mem_cons.mp hy with rfl | hy
          · exact .inl hx
          · exact hstack y hy
      · obtain ⟨l, hb, hnodup, hnew, hreach, hstack, hclosed⟩ := ih h
        have hsplit : ∀ y, y ∈ insert x seen ∨ y ∈ l → y ∈ seen ∨ y ∈ x :: l := by
          intro y hy
          rw [Finset.mem_insert] at hy
          rw [mem_cons]
          tauto
        refine ⟨x :: l, hb, nodup_cons.mpr ⟨fun hmem => ?_, hnodup⟩, ?_, ?_, ?_, ?_⟩
        · exact hnew x hmem (Finset.mem_insert_self x seen)
        · intro y hy
          rcases mem_cons.mp hy with rfl | hy
          · exact hx
          · exact fun hseen => hnew y hy (Finset.mem_insert_of_mem hseen)
        · intro y hy
          rcases mem_cons.mp hy with rfl | hy
          · exact ⟨y, mem_cons_self, .refl⟩
          · obtain ⟨z, hz, hpath⟩ := hreach y hy
            rcases mem_append.mp hz with hz | hz
            · exact ⟨x, mem_cons_self, .head (mem_reverse.mp hz) hpath⟩
            · exact ⟨z, mem_cons_of_mem _ hz, hpath⟩
        · intro y hy
          rcases mem_cons.mp hy with rfl | hy
          · exact .inr mem_cons_self
          · exact hsplit y (hstack y (mem_append_right _ hy))
        · intro y hy c hc
          rcases mem_cons.mp hy with rfl | hy
          · exact hsplit c (hstack c (mem_append_left _ (mem_reverse.mpr hc)))
          · exact hsplit c (hclosed y hy c hc)

/-- A whole traversal accounts for exactly the points that can be reached, each once. -/
theorem traverse_from (charge : β → α → β) (b : β) (root : α) (hfuel : edges.length < fuel) :
    ∃ l : List α, l.Nodup ∧ (∀ x, x ∈ l ↔ ReflTransGen (fun p c => (p, c) ∈ edges) root x) ∧
      traverse (succs edges) charge fuel [root] ∅ b = some (l.foldl charge b) := by
  have hlen : edges.countP (fun e => e.1 ∉ (∅ : Finset α)) ≤ edges.length :=
    countP_le_length
  have hsome : (traverse (succs edges) charge fuel [root] ∅ b).isSome = true := by
    refine traverse_isSome ?_
    rw [length_singleton]
    omega
  obtain ⟨b', hb'⟩ := isSome_iff_exists.mp hsome
  obtain ⟨l, rfl, hnodup, -, hreach, hstack, hclosed⟩ := traverse_visits hb'
  simp only [Finset.notMem_empty, false_or, mem_succs] at hstack hclosed hreach
  refine ⟨l, hnodup, fun x => ⟨fun hx => ?_, fun hx => ?_⟩, hb'⟩
  · obtain ⟨y, hy, hpath⟩ := hreach x hx
    exact mem_singleton.mp hy ▸ hpath
  · induction hx with
    | refl => exact hstack root (mem_singleton_self _)
    | tail _ hedge ih => exact hclosed _ ih _ hedge

end

end EtcFS.Core
