import Mathlib.Data.List.Basic

/-!
# Guarded machines and their runs

A machine gives the next state or nothing when an action is not enabled. A property of a run follows
from what one step preserves.
-/

namespace EtcFS.Core

open List Option

structure Machine (σ α : Type*) where
  /-- The state after an action, when the action is enabled. -/
  step : σ → α → Option σ

namespace Machine

variable {σ α : Type*} (M : Machine σ α)

def exec : σ → List α → Option σ
  | s, [] => some s
  | s, a :: as => (M.step s a).bind fun t => exec t as

@[simp] theorem exec_nil (s : σ) : M.exec s [] = some s := rfl

theorem exec_cons {s t : σ} {a : α} {as : List α} :
    M.exec s (a :: as) = some t ↔ ∃ u, M.step s a = some u ∧ M.exec u as = some t := by
  simp only [exec, bind_eq_some_iff]

def Along (Q : σ → α → σ → Prop) : σ → List α → Prop
  | _, [] => True
  | s, a :: as => ∀ t, M.step s a = some t → Q s a t ∧ Along Q t as

def Meets (C : σ → α → Prop) : σ → List α → Prop
  | _, [] => True
  | s, a :: as => C s a ∧ ∀ t, M.step s a = some t → Meets C t as

instance Along.decidable {Q : σ → α → σ → Prop} [∀ s a t, Decidable (Q s a t)] :
    ∀ s as, Decidable (M.Along Q s as)
  | _, [] => isTrue trivial
  | s, a :: as =>
    match h : M.step s a with
    | none => isTrue fun t ht => by
        rw [h] at ht
        cases ht
    | some t =>
      have := Along.decidable (Q := Q) t as
      decidable_of_iff (Q s a t ∧ M.Along Q t as) <| by
        simp only [Along, h, some.injEq, forall_eq']

def only (p : α → Prop) [DecidablePred p] : Machine σ α where
  step s a := if p a then M.step s a else none

theorem only_step {p : α → Prop} [DecidablePred p] {s t : σ} {a : α} :
    (M.only p).step s a = some t ↔ p a ∧ M.step s a = some t :=
  ite_none_right_eq_some

variable {M}

theorem Meets.exec {I : List α → σ → Prop} {C : σ → α → Prop}
    (hstep : ∀ done s a, I done s → C s a → ∃ t, M.step s a = some t ∧ I (done ++ [a]) t)
    {done : List α} {s : σ} {as : List α} (hs : I done s) (hc : M.Meets C s as) :
    ∃ t, M.exec s as = some t ∧ I (done ++ as) t := by
  induction as generalizing done s with
  | nil => exact ⟨s, rfl, by rwa [append_nil]⟩
  | cons a as ih =>
    obtain ⟨hca, hcs⟩ := hc
    obtain ⟨u, hu, hIu⟩ := hstep done s a hs hca
    obtain ⟨t, ht, hIt⟩ := ih hIu (hcs u hu)
    refine ⟨t, M.exec_cons.mpr ⟨u, hu, ht⟩, ?_⟩
    rwa [append_assoc] at hIt

theorem along_append {Q : σ → α → σ → Prop} {s : σ} {as bs : List α} : M.Along Q s (as ++ bs) ↔
      M.Along Q s as ∧ ∀ t, M.exec s as = some t → M.Along Q t bs := by
  induction as generalizing s with
  | nil => simp [Along]
  | cons a as ih =>
    simp only [cons_append, Along, ih, exec_cons]
    constructor
    · intro h
      refine ⟨fun u hu => ⟨(h u hu).1, (h u hu).2.1⟩, ?_⟩
      rintro t ⟨u, hu, ht⟩
      exact (h u hu).2.2 t ht
    · rintro ⟨h, h'⟩ u hu
      exact ⟨(h u hu).1, (h u hu).2, fun t ht => h' t ⟨u, hu, ht⟩⟩

theorem Along.and {P Q : σ → α → σ → Prop} {s : σ} {as : List α} (hp : M.Along P s as)
    (hq : M.Along Q s as) : M.Along (fun s a t => P s a t ∧ Q s a t) s as := by
  induction as generalizing s with
  | nil => trivial
  | cons a as ih =>
    intro t ht
    obtain ⟨hp, hps⟩ := hp t ht
    obtain ⟨hq, hqs⟩ := hq t ht
    exact ⟨⟨hp, hq⟩, ih hps hqs⟩

theorem along_of_forall {Q : σ → α → σ → Prop} {as : List α} (h : ∀ a ∈ as, ∀ s t, Q s a t)
    (s : σ) : M.Along Q s as := by
  induction as generalizing s with
  | nil => trivial
  | cons a as ih =>
    intro t _
    exact ⟨h a mem_cons_self s t, ih (fun b hb => h b (mem_cons_of_mem a hb)) t⟩

theorem along_true (s : σ) (as : List α) : M.Along (fun _ _ _ => True) s as := by
  induction as generalizing s with
  | nil => trivial
  | cons a as ih => exact fun t _ => ⟨trivial, ih t⟩

theorem Along.of_invariant {I : σ → Prop} {C Q : σ → α → σ → Prop}
    (hstep : ∀ s a t, I s → C s a t → M.step s a = some t → I t ∧ Q s a t)
    {s : σ} {as : List α} (hs : I s) (hc : M.Along C s as) : M.Along Q s as := by
  induction as generalizing s with
  | nil => trivial
  | cons a as ih =>
    intro t ht
    obtain ⟨hca, hcs⟩ := hc t ht
    obtain ⟨hit, hq⟩ := hstep s a t hs hca ht
    exact ⟨hq, ih hit hcs⟩

theorem Along.invariant {I : σ → Prop} {C : σ → α → σ → Prop}
    (hstep : ∀ s a t, I s → C s a t → M.step s a = some t → I t)
    {s t : σ} {as : List α} (hs : I s) (hc : M.Along C s as) (h : M.exec s as = some t) :
    I t := by
  induction as generalizing s with
  | nil =>
    obtain rfl : s = t := some.inj h
    exact hs
  | cons a as ih =>
    obtain ⟨u, hu, ht⟩ := M.exec_cons.mp h
    obtain ⟨hca, hcs⟩ := hc u hu
    exact ih (hstep s a u hs hca hu) hcs ht

theorem along_iff {I : σ → Prop} {C Q : σ → α → σ → Prop}
    (hkeep : ∀ s a t, I s → C s a t → M.step s a = some t → I t)
    (hiff : ∀ s a t, I s → M.step s a = some t → (Q s a t ↔ C s a t))
    {s : σ} (hs : I s) (as : List α) : M.Along Q s as ↔ M.Along C s as := by
  induction as generalizing s with
  | nil => exact Iff.rfl
  | cons a as ih =>
    constructor
    · intro h t ht
      obtain ⟨hq, hqs⟩ := h t ht
      have hc := (hiff s a t hs ht).mp hq
      exact ⟨hc, (ih (hkeep s a t hs hc ht)).mp hqs⟩
    · intro h t ht
      obtain ⟨hc, hcs⟩ := h t ht
      exact ⟨(hiff s a t hs ht).mpr hc, (ih (hkeep s a t hs hc ht)).mpr hcs⟩

end Machine

end EtcFS.Core
