import EtcFS.Core.Transition
import EtcFS.Arena.Pool

/-!
# A daemon shuts down

After a signal the heartbeat loop, the main goroutine and the handlers of open connections go on.
Nothing waits for the handlers.
-/

namespace EtcFS.Fencing

open EtcFS.Core Metadata Arena Option

inductive Heartbeat where
  /-- In its select, with the context done and the keepalive stream closing. -/
  | selecting
  /-- In `grantAndRegister`, with a context that is done. -/
  | registering
  | stopped
  deriving DecidableEq, Repr

inductive LeaveStage where
  /-- `RunSocket` still accepts connections. -/
  | accepting
  | flushTimes
  | releaseLocks
  | closeSession
  /-- `ReleaseArena`, its listing. -/
  | listArenas
  /-- `ReleaseArena`, the next record of its loop. -/
  | release (a : ArenaID) (rest : List ArenaID)
  | markDeparted
  | revokeLease
  | returning
  | exited
  deriving DecidableEq, Repr

inductive Conn where
  | closed
  /-- The handler waits for a request. -/
  | waiting
  /-- A request is served. It has allocated blocks in some arenas. -/
  | serving (held : List ArenaID)
  deriving DecidableEq, Repr

def Conn.held : Conn → Option (List ArenaID)
  | .serving held => some held
  | .closed | .waiting => none

def LeaveStage.releasing : LeaveStage → Bool
  | .listArenas | .release _ _ => true
  | .accepting | .flushTimes | .releaseLocks | .closeSession | .markDeparted | .revokeLease
  | .returning | .exited => false

structure Shutdown where
  node : NodeID
  /-- The membership key, with the lease it is bound to. -/
  member : Option Nat
  departed : Bool
  /-- The arena keys and the allocator of the node. -/
  arenas : Arenas
  leaseID : Option Nat
  loop : Heartbeat
  main : LeaveStage
  conns : Nat → Conn
  /-- The arenas that buffered writes name. -/
  buffered : List ArenaID
  /-- The arenas `Leave` has given back. -/
  returned : List ArenaID

inductive ConnAct where
  | connect (c : Nat)
  | request (c : Nat)
  /-- The handler allocates a block. -/
  | allocate (c : Nat) (a : ArenaID)
  /-- The handler writes a block it has allocated. -/
  | write (c : Nat) (a : ArenaID)
  /-- The handler publishes its blocks and what it splits of other extents, and answers. -/
  | publish (c : Nat) (split : List ArenaID) (reply : Reply)
  /-- The handler leaves these to the write buffer, and answers. -/
  | buffer (c : Nat) (split : List ArenaID)
  /-- The handler answers without a change. -/
  | answer (c : Nat)
  /-- The handler starts `AcquireArena`. -/
  | acquire (c : Nat)
  /-- The next request of that `AcquireArena`. -/
  | arena (c : Nat) (reply : Reply)
  | hangUp (c : Nat)
  deriving DecidableEq, Repr

inductive ShutdownAct where
  /-- The loop takes the branch of the context, and revokes its lease. -/
  | done (reply : Reply)
  /-- The loop takes the branch of the closed stream, and registers again. -/
  | streamClosed
  /-- The `Grant` of that registration. -/
  | grant (reply : Reply)
  /-- The lease runs out. -/
  | expire
  | main (reply : Reply)
  | conn (act : ConnAct)
  /-- An interval flush, a recall or an fsync publishes what is buffered. -/
  | flush (reply : Reply)
  deriving DecidableEq, Repr

namespace Shutdown

def revoke (s : Shutdown) (reply : Reply) : Shutdown :=
  { s with
    member := if reply ≠ .unsent ∧ s.leaseID ≠ none ∧ s.member = s.leaseID then none else s.member
    leaseID := none }

def releases : List ArenaID → LeaveStage
  | [] => .markDeparted
  | a :: rest => .release a rest

def markDeparted (s : Shutdown) (reply : Reply) : Shutdown :=
  if reply ≠ .unsent ∧ s.member ≠ none then { s with member := none, departed := true } else s

def releaseArena (s : Shutdown) (a : ArenaID) (reply : Reply) : Shutdown :=
  if reply ≠ .unsent ∧ (s.node, a) ∈ s.arenas.pool.records then
    { s with arenas := s.arenas.release s.node a, returned := a :: s.returned }
  else s

def leave (s : Shutdown) (reply : Reply) : Shutdown :=
  match s.main with
  | .accepting => { s with main := .flushTimes }
  | .flushTimes => { s with main := .releaseLocks }
  -- what is buffered is flushed or discarded
  | .releaseLocks => { s with main := .closeSession, buffered := [] }
  | .closeSession => { s with main := .listArenas }
  | .listArenas =>
    { s with
      main := if reply = .answered then releases (s.arenas.pool.scanned s.node) else .revokeLease }
  | .release a rest =>
    { s.releaseArena a reply with
      main := if reply = .answered then releases rest else .revokeLease }
  | .markDeparted => { s.markDeparted reply with main := .revokeLease }
  | .revokeLease => { s.revoke reply with main := .returning }
  | .returning => { s with main := .exited, conns := fun _ => .closed, loop := .stopped }
  | .exited => s

def setConn (s : Shutdown) (c : Nat) (x : Conn) : Shutdown :=
  { s with conns := Function.update s.conns c x }

def handle (s : Shutdown) : ConnAct → Option Shutdown
  | .connect c =>
    if s.main = .accepting ∧ s.conns c = .closed then some (s.setConn c .waiting) else none
  | .request c => if s.conns c = .waiting then some (s.setConn c (.serving [])) else none
  | .allocate c a =>
    (s.conns c).held.bind fun held =>
      if a ∈ s.arenas.listed s.node then some (s.setConn c (.serving (a :: held))) else none
  | .write c a => (s.conns c).held.bind fun held => if a ∈ held then some s else none
  | .publish c _ _ | .answer c => (s.conns c).held.map fun _ => s.setConn c .waiting
  | .buffer c split =>
    (s.conns c).held.map fun held =>
      { s.setConn c .waiting with buffered := s.buffered ++ held ++ split }
  | .acquire c =>
    (s.conns c).held.bind fun _ =>
      if s.arenas.ops c = none then
        some { s with arenas := s.arenas.goto c s.node (some .listing) }
      else none
  | .arena c reply =>
    (s.conns c).held.bind fun _ =>
      (s.arenas.ops c).map fun x => { s with arenas := s.arenas.call c x.1 true reply x.2 }
  | .hangUp c => if s.conns c = .waiting then some (s.setConn c .closed) else none

def uses (s : Shutdown) : ShutdownAct → List ArenaID
  | .conn (.allocate _ a) | .conn (.write _ a) => [a]
  | .conn (.publish c split _) => (s.conns c).held.getD [] ++ split
  | .flush _ => s.buffered
  | .main _ => if s.main = .releaseLocks then s.buffered else []
  | .conn _ | .done _ | .streamClosed | .grant _ | .expire => []

end Shutdown

def shutdown : Machine Shutdown ShutdownAct where
  step s
    | .done reply =>
      if s.loop = .selecting then some { s.revoke reply with loop := .stopped } else none
    | .streamClosed =>
      if s.loop = .selecting then some { s with loop := .registering } else none
    -- a call under a context that is done is never answered
    | .grant reply =>
      if s.loop = .registering ∧ reply ≠ .answered then some { s with loop := .stopped } else none
    | .expire => if s.member ≠ none then some { s with member := none } else none
    | .main reply => if s.main ≠ .exited then some (s.leave reply) else none
    | .flush reply =>
      if s.main ≠ .exited then
        some { s with buffered := if reply = .answered then [] else s.buffered }
      else none
    | .conn act => s.handle act

namespace Shutdown

variable {s t : Shutdown} {act : ConnAct}

theorem handle_eq (h : s.handle act = some t) : ∃ conns arenas buffered,
    t = { s with conns := conns, arenas := arenas, buffered := buffered } := by
  cases act with
  | connect c | request c | hangUp c =>
    obtain ⟨-, ht⟩ := ite_none_right_eq_some.mp h
    exact ⟨_, _, _, (some.inj ht).symm⟩
  | allocate c a | write c a | acquire c =>
    obtain ⟨held, -, ht⟩ := bind_eq_some_iff.mp h
    obtain ⟨-, ht⟩ := ite_none_right_eq_some.mp ht
    exact ⟨_, _, _, (some.inj ht).symm⟩
  | publish c split reply | answer c | buffer c split =>
    obtain ⟨held, -, ht⟩ := map_eq_some_iff.mp h
    exact ⟨_, _, _, ht.symm⟩
  | arena c reply =>
    obtain ⟨held, -, ht⟩ := bind_eq_some_iff.mp h
    obtain ⟨x, -, ht⟩ := map_eq_some_iff.mp ht
    exact ⟨_, _, _, ht.symm⟩

theorem handle_eq_none (hmain : s.main ≠ .accepting) (hconns : ∀ c, s.conns c = .closed) :
    s.handle act = none := by
  cases act with
  | connect c => exact if_neg fun h => hmain h.1
  | request c | hangUp c =>
    refine if_neg fun h => ?_
    rw [hconns c] at h
    cases h
  | allocate c a | write c a | acquire c | publish c split reply | answer c | buffer c split
  | arena c reply =>
    simp only [handle, hconns c, Conn.held, bind_none, map_none]

theorem main_leave_ne (s : Shutdown) (reply : Reply) : (s.leave reply).main ≠ .accepting := by
  have hreleases : ∀ as, releases as ≠ .accepting := by
    intro as
    cases as <;> exact LeaveStage.noConfusion
  unfold leave
  split
  case h_5 | h_6 =>
    dsimp only
    split
    · exact hreleases _
    · exact LeaveStage.noConfusion
  case h_10 hmain =>
    rw [hmain]
    exact LeaveStage.noConfusion
  all_goals exact LeaveStage.noConfusion

end Shutdown

def Shutdown.begin (n : NodeID) (lease : Nat) (departed : Bool) (arenas : Arenas)
    (conns : Nat → Conn) (buffered : List ArenaID) : Shutdown where
  node := n
  member := some lease
  departed := departed
  arenas := arenas
  leaseID := some lease
  loop := .selecting
  main := .accepting
  conns := conns
  buffered := buffered
  returned := []

end EtcFS.Fencing
