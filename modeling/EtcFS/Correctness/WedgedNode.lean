import EtcFS.Fencing.Cluster

/-!
# A registered node is not shut out

A registered process is behind its generation exactly if a registration comes after a bump it did
not see, or a bump after the registration.
-/

namespace EtcFS.Correctness

open EtcFS.Core Metadata Arena Fencing Option

def Registered (x : NodeState) : Prop :=
  x.daemon.stage ≠ .down ∧ x.keys.member = some x.daemon.process

def GenerationCurrent (x : NodeState) : Prop :=
  Registered x → x.keys.gen = some x.daemon.startGen

def BumpedBetweenProcesses (x : NodeState) : NodeAct → Prop
  | .beat reply =>
    x.daemon.beat = .put → reply ≠ .unsent → x.keys.gen = some x.daemon.startGen
  | .fence r reply => (x.runs r).bumps x.keys = true → reply ≠ .unsent → ¬Registered x
  | _ => True

structure StartedInOrder (x : NodeState) : Prop where
  earlier : ∀ p, x.keys.member = some p → p ≤ x.daemon.process
  beating : x.daemon.beat ≠ .off → x.daemon.stage = .serving
  serving : Registered x → x.daemon.stage = .serving
  current : GenerationCurrent x

namespace StartedInOrder

variable {x : NodeState}

theorem init : StartedInOrder .init where
  earlier := by
    intro p hp
    cases hp
  beating h := absurd rfl h
  serving h := absurd rfl h.1
  current h := absurd rfl h.1

theorem member_ne (hx : StartedInOrder x) (hdown : x.daemon.stage ≠ .down)
    (hserving : x.daemon.stage ≠ .serving) : x.keys.member ≠ some x.daemon.process :=
  fun hm => hserving (hx.serving ⟨hdown, hm⟩)

variable {y : NodeState} {owned : List ArenaID}

theorem of_not_serving (hx : StartedInOrder x) (hdown : x.daemon.stage ≠ .down)
    (hserving : x.daemon.stage ≠ .serving)
    (hmember : y.keys.member = x.keys.member) (hprocess : y.daemon.process = x.daemon.process)
    (hbeat : y.daemon.beat ≠ .off → y.daemon.stage = .serving) : StartedInOrder y := by
  have hne := hx.member_ne hdown hserving
  have hnot : ¬Registered y := by
    rintro ⟨-, hm⟩
    rw [hmember, hprocess] at hm
    exact hne hm
  refine ⟨fun p hp => ?_, hbeat, fun h => absurd h hnot, fun h => absurd h hnot⟩
  rw [hmember] at hp
  rw [hprocess]
  exact hx.earlier p hp

theorem of_same_process (hx : StartedInOrder x)
    (hmember : y.keys.member = x.keys.member ∨ y.keys.member = none)
    (hgen : Registered x → y.keys.gen = x.keys.gen) (hprocess : y.daemon.process = x.daemon.process)
    (hstage : y.daemon.stage = x.daemon.stage) (hstart : y.daemon.startGen = x.daemon.startGen)
    (hbeat : y.daemon.beat ≠ .off → x.daemon.stage = .serving) : StartedInOrder y := by
  have hreg : Registered y → Registered x := by
    rintro ⟨hdown, hm⟩
    rw [hstage] at hdown
    rcases hmember with hsame | hnone
    · rw [hsame, hprocess] at hm
      exact ⟨hdown, hm⟩
    · rw [hnone] at hm
      cases hm
  refine ⟨fun p hp => ?_, fun hb => ?_, fun h => ?_, fun h => ?_⟩
  · rw [hprocess]
    rcases hmember with hsame | hnone
    · rw [hsame] at hp
      exact hx.earlier p hp
    · rw [hnone] at hp
      cases hp
  · rw [hstage]
    exact hbeat hb
  · rw [hstage]
    exact hx.serving (hreg h)
  · rw [hgen (hreg h), hstart]
    exact hx.current (hreg h)

theorem register (hx : StartedInOrder x) {reply : Reply}
    (hon : x.daemon.beat ≠ .off ∧ x.daemon.beat ≠ .beating)
    (hput : x.daemon.beat = .put → reply ≠ .unsent → x.keys.gen = some x.daemon.startGen) :
    StartedInOrder (x.register reply) := by
  have hserving := hx.beating hon.1
  cases hbeat : x.daemon.beat with
  | put =>
    by_cases happlied : reply = .unsent
    · refine hx.of_same_process (.inl ?_) (fun _ => ?_) ?_ ?_ ?_ fun _ => hserving <;>
        simp [NodeState.register, hbeat, happlied]
    · have hgen := hput hbeat happlied
      have hkeys : (x.register reply).keys = { x.keys with member := some x.daemon.process } := by
        simp [NodeState.register, hbeat, happlied]
      have hdaemon : (x.register reply).daemon =
          { x.daemon with beat := if reply = .answered then .dropIntent else .off } := by
        simp [NodeState.register, hbeat]
      refine ⟨fun p hp => ?_, fun _ => ?_, fun _ => ?_, fun _ => ?_⟩
      · rw [hkeys] at hp
        rw [hdaemon, ← some.inj hp]
      · rw [hdaemon]
        exact hserving
      · rw [hdaemon]
        exact hserving
      · rw [hkeys, hdaemon]
        exact hgen
  | dropIntent | dropMark | dropDeparted =>
    by_cases happlied : reply = .unsent <;>
      refine hx.of_same_process (.inl ?_) (fun _ => ?_) ?_ ?_ ?_ fun _ => hserving <;>
      simp [NodeState.register, hbeat, happlied]
  | off => exact absurd hbeat hon.1
  | beating => exact absurd hbeat hon.2

theorem fence (hx : StartedInOrder x) {fencer : Bool} {revision r : Nat} {reply : Reply}
    (hbump : (x.runs r).bumps x.keys = true → reply ≠ .unsent → ¬Registered x) :
    StartedInOrder (x.fence fencer revision owned r reply) := by
  obtain ⟨access, hdaemon⟩ := x.daemon_fence fencer revision owned r reply
  have hkeys : (x.fenceKeys revision r reply).member = x.keys.member ∧
      (Registered x → (x.fenceKeys revision r reply).gen = x.keys.gen) := by
    rcases x.fenceKeys_cases revision r reply with hsame | ⟨hreply, hwrites⟩
    · rw [hsame]
      exact ⟨rfl, fun _ => rfl⟩
    · generalize x.fenceKeys revision r reply = k at hwrites
      cases hwrites with
      | intent | dropMark | mark | claim | unclaim => exact ⟨rfl, fun _ => rfl⟩
      | bump hb => exact ⟨rfl, fun hreg => absurd hreg (hbump hb hreply)⟩
  refine hx.of_same_process (.inl hkeys.1) hkeys.2 ?_ ?_ ?_ ?_ <;> rw [hdaemon]
  exact hx.beating

theorem step (hx : StartedInOrder x) {fencer : Bool} {revision : Nat}
    {a : NodeAct} (hc : BumpedBetweenProcesses x a)
    (h : x.step fencer revision owned a = some y) : StartedInOrder y := by
  cases a with
  | start =>
    obtain ⟨-, rfl⟩ := ite_some_none_eq_some.mp h
    have hnot : x.keys.member ≠ some (x.daemon.process + 1) :=
      fun hm => Nat.not_succ_le_self _ (hx.earlier _ hm)
    refine ⟨fun p hp => ?_, fun hb => absurd rfl hb, fun hr => absurd hr.2 hnot,
      fun hr => absurd hr.2 hnot⟩
    exact Nat.le_succ_of_le (hx.earlier p hp)
  | ensure reply =>
    obtain ⟨hstage, rfl⟩ := ite_some_none_eq_some.mp h
    obtain ⟨g, d, heq, hprocess, hbeat⟩ := x.ensure_eq reply
    rw [heq]
    refine hx.of_not_serving (by simp [hstage]) (by simp [hstage]) rfl hprocess fun hb => ?_
    rw [hbeat] at hb
    simp [hx.beating hb] at hstage
  | readGeneration reply =>
    obtain ⟨hstage, rfl⟩ := ite_some_none_eq_some.mp h
    have hoff : x.daemon.beat = .off := by
      by_contra hb
      simp [hx.beating hb] at hstage
    refine hx.of_not_serving (by simp [hstage]) (by simp [hstage]) rfl ?_ fun hb => ?_
    · dsimp only
      split <;> rfl
    · split at hb <;> exact absurd hoff hb
  | adopt reply =>
    obtain ⟨hstage, rfl⟩ := ite_some_none_eq_some.mp h
    exact hx.of_not_serving (by simp [hstage]) (by simp [hstage]) rfl rfl fun _ => rfl
  | attach =>
    obtain ⟨-, rfl⟩ := ite_some_none_eq_some.mp h
    exact hx.of_same_process (.inl rfl) (fun _ => rfl) rfl rfl rfl hx.beating
  | beat reply =>
    obtain ⟨hon, rfl⟩ := ite_some_none_eq_some.mp h
    exact hx.register hon hc
  | rejoin =>
    obtain ⟨hbeat, rfl⟩ := ite_some_none_eq_some.mp h
    refine hx.of_same_process (.inl rfl) (fun _ => rfl) rfl rfl rfl fun _ => ?_
    exact hx.beating (by simp [hbeat])
  | crash =>
    obtain ⟨-, rfl⟩ := ite_some_none_eq_some.mp h
    exact ⟨hx.earlier, fun hb => absurd rfl hb, fun hr => absurd rfl hr.1,
      fun hr => absurd rfl hr.1⟩
  | expire =>
    obtain ⟨-, rfl⟩ := ite_some_none_eq_some.mp h
    exact hx.of_same_process (.inr rfl) (fun _ => rfl) rfl rfl rfl hx.beating
  | announce reply =>
    obtain ⟨-, hy⟩ := ite_none_right_eq_some.mp h
    split at hy
    · cases hy
      exact hx.of_same_process (.inr rfl) (fun _ => rfl) rfl rfl rfl hx.beating
    · cases hy
      exact hx
  | notice r | sweep r =>
    obtain ⟨-, rfl⟩ := ite_some_none_eq_some.mp h
    exact hx.of_same_process (.inl rfl) (fun _ => rfl) rfl rfl rfl hx.beating
  | fence r reply =>
    obtain ⟨-, rfl⟩ := ite_some_none_eq_some.mp h
    exact hx.fence hc
  | loseController r =>
    cases h
    exact hx.of_same_process (.inl rfl) (fun _ => rfl) rfl rfl rfl hx.beating
  | expireClaim =>
    cases h
    exact hx.of_same_process (.inl rfl) (fun _ => rfl) rfl rfl rfl hx.beating

theorem condition_of_current (hx : StartedInOrder x) {fencer : Bool} {revision : Nat} {a : NodeAct}
    (h : x.step fencer revision owned a = some y) (hy : GenerationCurrent y) :
    BumpedBetweenProcesses x a := by
  cases a with
  | beat reply =>
    intro hbeat happlied
    obtain ⟨hon, rfl⟩ := ite_some_none_eq_some.mp h
    have hserving := hx.beating hon.1
    simpa [GenerationCurrent, Registered, NodeState.register, hbeat, happlied, hserving] using hy
  | fence r reply =>
    intro hb happlied hreg
    obtain ⟨-, rfl⟩ := ite_some_none_eq_some.mp h
    obtain ⟨access, hdaemon⟩ := x.daemon_fence fencer revision owned r reply
    have hkeys : (x.fence fencer revision owned r reply).keys =
        { x.keys with gen := some ((x.runs r).gen + 1) } := NodeState.fenceKeys_of_bumps hb happlied
    have hnow := hx.current hreg
    have hthen : some ((x.runs r).gen + 1) = some x.daemon.startGen := by
      have := hy (by rw [Registered, hkeys, hdaemon]; exact hreg)
      rwa [hkeys, hdaemon] at this
    unfold FenceRun.bumps at hb
    split at hb
    · rw [of_decide_eq_true hb] at hnow
      simp only [some.injEq] at hnow hthen
      omega
    · rw [of_decide_eq_true hb] at hnow
      cases hnow
    · cases hb
  | start | ensure | readGeneration | adopt | attach | rejoin | crash | expire | announce
  | notice | sweep | loseController | expireClaim => trivial

end StartedInOrder

/-- In a run of a fresh cluster every registered process is current exactly if no
process registers behind its generation and no generation is bumped under a
registered process. -/
theorem generationCurrent_iff (fencer : Bool) (p : Pool) (acts : List ClusterAct) :
    (cluster fencer).Along (fun _ _ t => ∀ n, GenerationCurrent (t.nodes n)) (Cluster.init p) acts ↔
      (cluster fencer).Along (fun s a _ => EachNode BumpedBetweenProcesses s a) (Cluster.init p)
        acts := by
  refine along_nodes_iff (I := StartedInOrder) ?_ ?_ ?_ ?_ acts
  · intro x revision owned a y hx hc h
    exact hx.step hc h
  · intro x hx
    exact hx.current
  · intro x revision owned a y hx h hy
    exact hx.condition_of_current h hy
  · intro n
    exact StartedInOrder.init

def restartUnderFence : List ClusterAct :=
  joinCluster "n1" ++ [.node "n1" .crash, .node "n1" .expire, .node "n1" (.notice 0)] ++
    fenceCalls "n1" 0 7 ++ restartNode "n1" ++
    [.node "n1" (.beat .answered), .node "n1" (.beat .answered)] ++ fenceCalls "n1" 0 2

/-- The restarted process is registered under generation zero and the generation is one. -/
theorem restart_under_fence_wedges :
    ((cluster true).exec (Cluster.init ⟨[], [], none⟩) restartUnderFence).map
      (fun s => ((s.nodes "n1").daemon.stage, (s.nodes "n1").daemon.process,
        (s.nodes "n1").keys.member, (s.nodes "n1").daemon.startGen, (s.nodes "n1").keys.gen)) =
      some (.serving, 2, some 2, 0, some 1) := by
  decide +kernel

end EtcFS.Correctness
