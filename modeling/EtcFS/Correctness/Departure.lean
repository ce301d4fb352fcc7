import EtcFS.Fencing.Shutdown

/-!
# Orderly departures

A daemon gives its arenas back and then leaves a departure marker. The lease may be revoked before,
and handlers may go on.
-/

namespace EtcFS.Correctness

open EtcFS.Core Metadata Arena Fencing Option List

variable {s t : Shutdown} {act : ShutdownAct}

def MarkedDeparture (s : Shutdown) (act : ShutdownAct) (t : Shutdown) : Prop :=
  (s.member ≠ none → t.member = none → s.main = .markDeparted ∧ ∃ reply, act = .main reply) ∧
    (t.member = none → t.departed = true)

def MarksFirst (s : Shutdown) : ShutdownAct → Prop
  | .expire => False
  | .done _ => s.member = none
  | .main reply =>
    (s.main.releasing = true → reply = .answered) ∧ (s.main = .markDeparted → reply ≠ .unsent)
  | .streamClosed | .grant _ | .conn _ | .flush _ => True

instance (s : Shutdown) : ∀ act, Decidable (MarksFirst s act)
  | .expire => isFalse id
  | .done _ => inferInstanceAs (Decidable (s.member = none))
  | .main reply => inferInstanceAs (Decidable
      ((s.main.releasing = true → reply = .answered) ∧ (s.main = .markDeparted → reply ≠ .unsent)))
  | .streamClosed | .grant _ | .conn _ | .flush _ => isTrue trivial

structure Marked (s : Shutdown) : Prop where
  departed : s.member = none → s.departed = true
  revoking : s.main = .revokeLease → s.member = none

namespace Marked

theorem of_same (hs : Marked s) (hmember : t.member = s.member)
    (hdeparted : t.departed = s.departed) (hmain : t.main = .revokeLease → s.main = .revokeLease) :
    Marked t ∧ MarkedDeparture s act t := by
  have hmarked : t.member = none → t.departed = true := by
    rw [hmember, hdeparted]
    exact hs.departed
  refine ⟨⟨hmarked, fun h => ?_⟩, fun hs ht => ?_, hmarked⟩
  · rw [hmember]
    exact hs.revoking (hmain h)
  · exact absurd (hmember.symm.trans ht) hs

theorem of_revoke (hs : Marked s) (hgone : s.member = none) {reply : Reply}
    (hmember : t.member = (s.revoke reply).member) (hdeparted : t.departed = s.departed)
    (hmain : t.main = .revokeLease → s.main = .revokeLease) :
    Marked t ∧ MarkedDeparture s act t := by
  refine hs.of_same ?_ hdeparted hmain
  rw [hmember, Shutdown.revoke]
  split
  · exact hgone.symm
  · rfl

theorem leave_step (hs : Marked s) {reply : Reply} (hc : MarksFirst s (.main reply)) :
    Marked (s.leave reply) ∧ MarkedDeparture s (.main reply) (s.leave reply) := by
  have hreleases : ∀ as, Shutdown.releases as ≠ .revokeLease := by
    intro as
    cases as <;> exact LeaveStage.noConfusion
  obtain ⟨hanswered, hsent⟩ := hc
  unfold Shutdown.leave
  split
  case h_5 hmain =>
    have hreply := hanswered (by rw [hmain]; rfl)
    exact hs.of_same rfl rfl fun h => absurd h (by simpa only [if_pos hreply] using hreleases _)
  case h_6 a rest hmain =>
    have hreply := hanswered (by rw [hmain]; rfl)
    have hkeys : (s.releaseArena a reply).member = s.member ∧
        (s.releaseArena a reply).departed = s.departed := by
      rw [Shutdown.releaseArena]
      split
      · exact ⟨rfl, rfl⟩
      · exact ⟨rfl, rfl⟩
    exact hs.of_same hkeys.1 hkeys.2 fun h =>
      absurd h (by simpa only [if_pos hreply] using hreleases _)
  case h_7 hmain =>
    have hgone : (s.markDeparted reply).member = none ∧ (s.markDeparted reply).departed = true := by
      rw [Shutdown.markDeparted]
      split
      · exact ⟨rfl, rfl⟩
      case isFalse hno =>
        have hnone : s.member = none := by
          by_contra hsome
          exact hno ⟨hsent hmain, hsome⟩
        exact ⟨hnone, hs.departed hnone⟩
    exact ⟨⟨fun _ => hgone.2, fun _ => hgone.1⟩, fun _ _ => ⟨hmain, reply, rfl⟩, fun _ => hgone.2⟩
  case h_8 hmain => exact hs.of_revoke (hs.revoking hmain) rfl rfl LeaveStage.noConfusion
  case h_10 => exact hs.of_same rfl rfl id
  all_goals exact hs.of_same rfl rfl LeaveStage.noConfusion

theorem step (hs : Marked s) (hc : MarksFirst s act) (h : shutdown.step s act = some t) :
    Marked t ∧ MarkedDeparture s act t := by
  cases act with
  | expire => exact hc.elim
  | done reply =>
    obtain ⟨-, rfl⟩ := ite_some_none_eq_some.mp h
    exact hs.of_revoke hc rfl rfl id
  | main reply =>
    obtain ⟨-, rfl⟩ := ite_some_none_eq_some.mp h
    exact hs.leave_step hc
  | streamClosed | grant reply | flush reply =>
    obtain ⟨-, rfl⟩ := ite_some_none_eq_some.mp h
    exact hs.of_same rfl rfl id
  | conn act =>
    obtain ⟨conns, arenas, buffered, rfl⟩ := Shutdown.handle_eq h
    exact hs.of_same rfl rfl id

end Marked

/-- In every run in which the marker comes first, a node that leaves with a live lease
loses its membership key to the marker. -/
theorem departure_marked {n : NodeID} {lease : Nat} {departed : Bool} {arenas : Arenas}
    {conns : Nat → Conn} {buffered : List ArenaID} {acts : List ShutdownAct}
    (hc : shutdown.Along (fun s a _ => MarksFirst s a)
      (.begin n lease departed arenas conns buffered) acts) :
    shutdown.Along MarkedDeparture (.begin n lease departed arenas conns buffered) acts := by
  refine Machine.Along.of_invariant (I := Marked) ?_ ⟨?_, ?_⟩ hc
  · intro s act t hs hc h
    exact hs.step hc h
  · intro h
    cases h
  · intro h
    cases h

def leavingNode : Shutdown :=
  .begin "n1" 7 false ⟨⟨[("n1", 0)], [], some 1⟩, fun _ => [0], fun _ => none⟩
    (fun c => if c = 0 then .waiting else .closed) []

/-- The keepalive stream is seen closed first, and the marker is written. -/
theorem departure_marked_streamClosed :
    shutdown.Along MarkedDeparture leavingNode
      (.streamClosed :: .grant .unsent :: replicate 9 (.main .answered)) :=
  departure_marked (by decide +kernel)

/-- The loop sees its context done first and revokes the lease. `MarkDeparted` comes
too late. -/
theorem loop_revokes_first :
    (shutdown.exec leavingNode [.done .answered]).map (fun s => (s.member, s.departed)) =
      some (none, false) ∧
    (shutdown.exec leavingNode (.done .answered :: replicate 9 (.main .answered))).map
      (fun s => (s.main, s.member, s.departed)) = some (.exited, none, false) := by
  decide +kernel

def KeepsOffReturned (s : Shutdown) (act : ShutdownAct) : Prop := ∀ a ∈ s.uses act, a ∉ s.returned
  deriving Decidable

def ReturnsWhenQuiet (s : Shutdown) (act : ShutdownAct) : Prop :=
  ∀ reply a rest, act = .main reply → s.main = .release a rest →
    (∀ c, s.conns c = .closed) ∧ s.buffered = []

structure Quiet (s : Shutdown) : Prop where
  main : s.main ≠ .accepting
  conns : ∀ c, s.conns c = .closed
  buffered : s.buffered = []

namespace Quiet

theorem leave (hs : Quiet s) (reply : Reply) : Quiet (s.leave reply) := by
  refine ⟨s.main_leave_ne reply, fun c => ?_, ?_⟩
  · unfold Shutdown.leave Shutdown.releaseArena Shutdown.markDeparted
    split
    case h_6 | h_7 => split <;> exact hs.conns c
    case h_9 => rfl
    all_goals exact hs.conns c
  · unfold Shutdown.leave Shutdown.releaseArena Shutdown.markDeparted
    split
    case h_6 | h_7 => split <;> exact hs.buffered
    case h_3 => rfl
    all_goals exact hs.buffered

theorem step (hs : Quiet s) (h : shutdown.step s act = some t) : Quiet t ∧ s.uses act = [] := by
  cases act with
  | conn act =>
    have hnone : s.handle act = none := Shutdown.handle_eq_none hs.main hs.conns
    rw [show shutdown.step s (.conn act) = none from hnone] at h
    cases h
  | main reply =>
    obtain ⟨-, rfl⟩ := ite_some_none_eq_some.mp h
    refine ⟨hs.leave reply, ?_⟩
    simp only [Shutdown.uses, hs.buffered, ite_self]
  | flush reply =>
    obtain ⟨-, rfl⟩ := ite_some_none_eq_some.mp h
    refine ⟨⟨hs.main, hs.conns, ?_⟩, hs.buffered⟩
    simp only [hs.buffered, ite_self]
  | done reply | streamClosed | grant reply | expire =>
    obtain ⟨-, rfl⟩ := ite_some_none_eq_some.mp h
    exact ⟨⟨hs.main, hs.conns, hs.buffered⟩, rfl⟩

end Quiet

theorem returned_of_step (h : shutdown.step s act = some t) :
    t.returned = s.returned ∨ ∃ reply a rest, act = .main reply ∧ s.main = .release a rest := by
  cases act with
  | main reply =>
    obtain ⟨-, rfl⟩ := ite_some_none_eq_some.mp h
    unfold Shutdown.leave
    split
    case h_6 a rest hmain => exact .inr ⟨reply, a, rest, rfl, hmain⟩
    case h_7 =>
      left
      unfold Shutdown.markDeparted
      split <;> rfl
    all_goals exact .inl rfl
  | conn act =>
    obtain ⟨conns, arenas, buffered, rfl⟩ := Shutdown.handle_eq h
    exact .inl rfl
  | done reply | streamClosed | grant reply | expire | flush reply =>
    obtain ⟨-, rfl⟩ := ite_some_none_eq_some.mp h
    exact .inl rfl

/-- In every run in which arenas are given back only by a quiet process, no step uses
an arena that has been given back. -/
theorem returned_arenas_unused {n : NodeID} {lease : Nat} {departed : Bool} {arenas : Arenas}
    {conns : Nat → Conn} {buffered : List ArenaID} {acts : List ShutdownAct}
    (hc : shutdown.Along (fun s a _ => ReturnsWhenQuiet s a)
      (.begin n lease departed arenas conns buffered) acts) :
    shutdown.Along (fun s a _ => KeepsOffReturned s a)
      (.begin n lease departed arenas conns buffered) acts := by
  refine Machine.Along.of_invariant (I := fun s => s.returned = [] ∨ Quiet s) ?_ (.inl rfl) hc
  intro s act t hs hc h
  rcases hs with hempty | hquiet
  · refine ⟨?_, fun a _ => by simp [hempty]⟩
    rcases returned_of_step h with hsame | ⟨reply, a, rest, rfl, hmain⟩
    · exact .inl (hsame.trans hempty)
    · obtain ⟨hconns, hbuffered⟩ := hc reply a rest rfl hmain
      have hquiet : Quiet s := ⟨by rw [hmain]; exact LeaveStage.noConfusion, hconns, hbuffered⟩
      exact .inr (hquiet.step h).1
  · obtain ⟨ht, huses⟩ := hquiet.step h
    exact ⟨.inr ht, fun a ha => by simp [huses] at ha⟩

theorem Quiet.along_returnsWhenQuiet (hs : Quiet s) (acts : List ShutdownAct) :
    shutdown.Along (fun s a _ => ReturnsWhenQuiet s a) s acts := by
  refine Machine.Along.of_invariant (I := Quiet) ?_ hs (Machine.along_true s acts)
  intro s act t hs _ h
  exact ⟨(hs.step h).1, fun _ _ _ _ _ => ⟨hs.conns, hs.buffered⟩⟩

/-- The client hangs up before the arena is given back. -/
theorem returned_arenas_unused_hungUp :
    shutdown.Along (fun s a _ => KeepsOffReturned s a) leavingNode
      (.main .answered :: .conn (.hangUp 0) :: replicate 8 (.main .answered)) := by
  refine returned_arenas_unused ?_
  intro s hs
  cases hs
  constructor
  · intro reply a rest _ hmain
    cases hmain
  intro s hs
  cases hs
  constructor
  · intro reply a rest hact
    cases hact
  refine Quiet.along_returnsWhenQuiet ⟨LeaveStage.noConfusion, fun c => ?_, rfl⟩ _
  by_cases hc : c = 0 <;> simp [Shutdown.leave, Shutdown.begin, Shutdown.setConn, hc]

def lateRequest : List ShutdownAct :=
  replicate 6 (.main .answered) ++
    [.conn (.request 0), .conn (.allocate 0 0), .conn (.write 0 0),
      .conn (.publish 0 [] .answered)]

/-- It allocates from the arena, writes to it and publishes an extent in it. -/
theorem late_request_uses_returned :
    (shutdown.exec leavingNode lateRequest).map
      (fun s => (s.main, s.returned, s.arenas.pool.free)) = some (.markDeparted, [0], [0]) ∧
    ¬shutdown.Along (fun s a _ => KeepsOffReturned s a) leavingNode lateRequest := by
  decide +kernel

end EtcFS.Correctness
