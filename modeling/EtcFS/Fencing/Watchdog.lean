import EtcFS.Core.Transition

/-!
# The self-fencing watchdog

A node that hears nothing of its lease fences itself at the first tick that is more than two lease
times after the last keepalive.
-/

namespace EtcFS.Fencing

open EtcFS.Core Option

/-- The membership's view of its lease and the watchdog's ticker, on the node's own clock. -/
structure Watchdog where
  alive : Bool
  lastAlive : Option Nat
  now : Nat
  nextTick : Nat
  fencedAt : Option Nat
  deriving DecidableEq, Repr

inductive WatchdogAct where
  /-- A registration, or a keepalive that is answered. -/
  | updateAlive
  /-- The heartbeat loop gives up, or the lease is revoked. -/
  | setDead
  | wait (d : Nat)
  | tick

namespace Watchdog

def isAlive (leaseTTL : Nat) (w : Watchdog) : Bool :=
  w.alive && w.lastAlive.any fun last => w.now - last ≤ leaseTTL

def selfFenceWindow (leaseTTL : Nat) : Nat := 2 * leaseTTL

/-- The body of `Run`'s loop: whether to trigger. -/
def fences (leaseTTL : Nat) (w : Watchdog) : Bool :=
  !w.isAlive leaseTTL && w.lastAlive.all fun last => w.now - last > selfFenceWindow leaseTTL

def run (leaseTTL : Nat) : Machine Watchdog WatchdogAct where
  step w
    | .updateAlive => some { w with alive := true, lastAlive := some w.now }
    | .setDead => some { w with alive := false }
    | .wait d =>
      if w.fencedAt = none ∧ w.nextTick < w.now + d then none else some { w with now := w.now + d }
    | .tick =>
      if w.fencedAt = none ∧ w.now = w.nextTick then
        some { w with
          nextTick := w.nextTick + leaseTTL
          fencedAt := if w.fences leaseTTL then some w.now else none }
      else none

def new (leaseTTL : Nat) : Watchdog := ⟨false, none, 0, leaseTTL, none⟩

/-- How long the node may go on without a keepalive. -/
def limit (leaseTTL : Nat) (w : Watchdog) : Nat :=
  w.lastAlive.elim leaseTTL fun last => last + 3 * leaseTTL

structure Ticking (leaseTTL : Nat) (w : Watchdog) : Prop where
  past : ∀ last ∈ w.lastAlive, last ≤ w.now
  due : w.fencedAt = none → w.now ≤ w.nextTick
  soon : w.fencedAt = none → w.nextTick ≤ w.now + leaseTTL
  bound : w.fencedAt = none → w.nextTick ≤ w.limit leaseTTL

variable {leaseTTL : Nat} {w w' : Watchdog}

theorem Ticking.tick (h : Ticking leaseTTL w) (hnow : w.now = w.nextTick) :
    Ticking leaseTTL { w with
      nextTick := w.nextTick + leaseTTL
      fencedAt := if w.fences leaseTTL then some w.now else none } := by
  refine ⟨h.past, fun _ => Nat.le_add_right_of_le (Nat.le_of_eq hnow), fun _ => ?_, fun hfree => ?_⟩
  · exact hnow ▸ Nat.le_refl _
  · have hcalm : w.fences leaseTTL = false := by simpa using hfree
    cases hlast : w.lastAlive with
    | none => simp [fences, isAlive, hlast] at hcalm
    | some last =>
      have hpast := h.past last hlast
      simp only [fences, isAlive, hlast, limit, selfFenceWindow, any_some, all_some,
        elim_some] at hcalm ⊢
      simp at hcalm
      omega

theorem ticking_of_step (h : Ticking leaseTTL w) {act : WatchdogAct}
    (hstep : (run leaseTTL).step w act = some w') : Ticking leaseTTL w' := by
  cases act with
  | updateAlive =>
    cases hstep
    refine ⟨?_, h.due, h.soon, fun hf => ?_⟩
    · rintro _ ⟨⟩
      exact Nat.le_refl _
    · have hsoon := h.soon hf
      simp only [limit, elim_some]
      omega
  | setDead =>
    cases hstep
    exact ⟨h.past, h.due, h.soon, h.bound⟩
  | wait d =>
    obtain ⟨hfits, heq⟩ := ite_none_left_eq_some.mp hstep
    cases heq
    refine ⟨fun last hlast => Nat.le_add_right_of_le (h.past last hlast), fun hf => ?_,
      fun hf => ?_, h.bound⟩
    · exact Nat.le_of_not_lt fun hlt => hfits ⟨hf, hlt⟩
    · exact Nat.le_trans (h.soon hf) (Nat.add_le_add_right (Nat.le_add_right _ _) _)
  | tick =>
    obtain ⟨⟨-, hnow⟩, heq⟩ := ite_none_right_eq_some.mp hstep
    cases heq
    exact h.tick hnow

/-- In every run a node that has not fenced itself is within three lease times of its last
keepalive, or within one of its start if it never had any, and a node that fences itself has had
none for more than two. -/
theorem along_fences (leaseTTL : Nat) (acts : List WatchdogAct) :
    (run leaseTTL).Along (fun w _ w' => (w'.fencedAt = none → w'.now ≤ w'.limit leaseTTL) ∧
      (w.fencedAt = none → w'.fencedAt ≠ none → ∀ last ∈ w.lastAlive,
        last + selfFenceWindow leaseTTL < w'.now)) (new leaseTTL) acts := by
  refine Machine.Along.of_invariant (I := Ticking leaseTTL) ?_ ?_ (Machine.along_true _ _)
  · intro w act w' h _ hstep
    have h' := ticking_of_step h hstep
    refine ⟨h', fun hf => Nat.le_trans (h'.due hf) (h'.bound hf),
      fun hf hf' last hlast => ?_⟩
    cases act with
    | updateAlive | setDead =>
      cases hstep
      exact absurd hf hf'
    | wait d =>
      obtain ⟨-, heq⟩ := ite_none_left_eq_some.mp hstep
      cases heq
      exact absurd hf hf'
    | tick =>
      obtain ⟨-, heq⟩ := ite_none_right_eq_some.mp hstep
      cases heq
      have hfences : w.fences leaseTTL = true := by simpa using hf'
      have hlast : w.lastAlive = some last := hlast
      simp only [fences, hlast, all_some, Bool.and_eq_true] at hfences
      have hlong : w.now - last > selfFenceWindow leaseTTL := of_decide_eq_true hfences.2
      exact (Nat.add_comm _ _).symm ▸ Nat.add_lt_of_lt_sub hlong
  · exact ⟨by simp [new], by simp [new], by simp [new], by simp [new, limit]⟩

end Watchdog

end EtcFS.Fencing
