import EtcFS.Core.Transition

/-!
# Resumable prefix watches

`runWatch` hands every event to a callback, and opens the watch again when the channel ends, from
the revision after the last response's.
-/

namespace EtcFS.Ipc

open EtcFS.Core List

inductive WatchCall where
  | opened (position : Nat)
  | event (position : Nat)
  | gap
  deriving DecidableEq

structure PrefixWatch where
  revision : Nat
  log : List Nat
  resume : Nat
  channel : Option Nat
  trace : List WatchCall

inductive PrefixWatchStep where
  | commit (events : Nat)
  | establish
  | response (events header : Nat)
  | close
  | cancel (compacted : Bool)

namespace PrefixWatch

variable (s : PrefixWatch)

def openedAt : Nat :=
  if s.resume = 0 then s.log.length else s.log.countP fun rev => decide (rev < s.resume)

def Carries (next events header : Nat) : Prop :=
  next + events ≤ s.log.length ∧ header ≤ s.revision ∧
    ∀ rev ∈ s.log.take (next + events), rev ≤ header
  deriving Decidable

end PrefixWatch

def runWatch : Machine PrefixWatch PrefixWatchStep where
  step s
    | .commit events =>
      some { s with
        revision := s.revision + 1
        log := s.log ++ replicate events (s.revision + 1) }
    | .establish =>
      if s.channel = none then
        some { s with channel := some s.openedAt, trace := s.trace ++ [.opened s.openedAt] }
      else none
    | .response events header => do
      let next ← s.channel
      if s.Carries next events header then
        some { s with
          resume := header + 1
          channel := some (next + events)
          trace := s.trace ++ (range' next events).map .event }
      else none
    | .close => s.channel.map fun _ => { s with channel := none }
    | .cancel compacted => s.channel.map fun _ =>
        if compacted then { s with channel := none, resume := 0, trace := s.trace ++ [.gap] }
        else { s with channel := none }

def WatchCall.eventAt : WatchCall → Option Nat
  | .event position => some position
  | .opened _ | .gap => none

def WatchCall.openedFrom : WatchCall → Option Nat
  | .opened position => some position
  | .event _ | .gap => none

def delivered (trace : List WatchCall) : List Nat := trace.filterMap WatchCall.eventAt

def started (trace : List WatchCall) : Option Nat := trace.findSome? WatchCall.openedFrom

@[simp] theorem delivered_append (a b : List WatchCall) :
    delivered (a ++ b) = delivered a ++ delivered b := filterMap_append

theorem started_append (a b : List WatchCall) :
    started (a ++ b) = (started a).or (started b) := findSome?_append

@[simp] theorem delivered_opened (position : Nat) : delivered [.opened position] = [] := rfl

@[simp] theorem delivered_gap : delivered [.gap] = [] := rfl

@[simp] theorem started_opened (position : Nat) : started [.opened position] = some position := rfl

@[simp] theorem started_gap : started [.gap] = none := rfl

@[simp] theorem delivered_events (next events : Nat) :
    delivered ((range' next events).map .event) = range' next events := by
  rw [delivered, filterMap_map]
  exact filterMap_some

@[simp] theorem started_events (next events : Nat) :
    started ((range' next events).map .event) = none := by
  refine findSome?_eq_none_iff.mpr fun call hcall => ?_
  obtain ⟨i, -, rfl⟩ := mem_map.mp hcall
  rfl

end EtcFS.Ipc
