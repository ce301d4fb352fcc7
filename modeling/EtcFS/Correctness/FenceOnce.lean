import EtcFS.Fencing.Cluster

/-!
# A departure is fenced once

A departure is fenced once in a run where no claim is won after the bump and none is lost by an
attempt that still goes on.
-/

namespace EtcFS.Correctness

open EtcFS.Core Metadata Arena Fencing Option

inductive FencePhase where
  | outside
  | before
  | after
  deriving DecidableEq

def FencePhase.of : FenceStage → FencePhase
  | .recheck | .capture | .check .severing | .check .bumping | .sever | .getGeneration | .bump
  | .bumpMissing => .before
  | .check .releasing | .listArenas | .release _ _ | .mark | .clear => .after
  | .idle | .listIntents | .listKnown | .listFenced | .readMembership | .dropIntent | .dropMark
  | .hasDeparted | .ownsArenas | .recordIntent | .claim | .unclaim => .outside

def phase (x : NodeState) (r : Nat) : FencePhase := FencePhase.of (x.runs r).stage

def AtMostOneFence (x : NodeState) : Prop :=
  x.keys.member = none → x.since.bumps ≤ 1 ∧ x.since.completed ≤ 1

def ClaimsInTime (x : NodeState) : NodeAct → Prop
  | .fence r reply =>
    (x.runs r).stage = .claim → reply = .answered → x.keys.claim = none → x.since.bumps = 0
  | .expireClaim => ∀ r, x.keys.claim = some r → phase x r = .outside
  | _ => True

instance (x : NodeState) : ∀ a, Decidable (ClaimsInTime x a)
  | .fence r reply => inferInstanceAs (Decidable
      ((x.runs r).stage = .claim → reply = .answered → x.keys.claim = none → x.since.bumps = 0))
  | .expireClaim =>
    match h : x.keys.claim with
    | none => isTrue fun r hr => by
        rw [h] at hr
        cases hr
    | some r => decidable_of_iff (phase x r = .outside) <| by
        simp only [ClaimsInTime, h, some.injEq, forall_eq']
  | .start | .ensure _ | .readGeneration _ | .adopt _ | .attach | .beat _ | .rejoin | .crash
  | .expire | .announce _ | .notice _ | .sweep _ | .loseController _ => isTrue trivial

section

variable {run : FenceRun} {fencer : Bool} {k : NodeKeys} {owned : List ArenaID}
  {departure : Nat} {told : Bool}

theorem FencePhase.of_releases (as : List ArenaID) :
    FencePhase.of (FenceRun.releases as) = .after := by
  cases as <;> rfl

theorem FencePhase.of_afterBump : FencePhase.of (FenceRun.afterBump fencer) = .after := by
  cases fencer <;> rfl

theorem phase_next :
    (FencePhase.of (run.next fencer k owned departure told).stage = .before →
      run.bumps k = false ∧ (FencePhase.of run.stage = .before ∨
        run.stage = .claim ∧ told = true ∧ k.claim = none)) ∧
    (FencePhase.of (run.next fencer k owned departure told).stage = .after →
      run.stage ≠ .clear ∧ (FencePhase.of run.stage = .after ∨
        FencePhase.of run.stage = .before ∧ run.bumps k = true ∧ told = true)) := by
  obtain ⟨stage, _⟩ := run
  cases stage with
  | check c =>
    cases c <;> simp only [FenceRun.next, FenceRun.stageAfter, FencePhase.of, FenceRun.bumps] <;>
      grind
  | _ =>
    simp only [FenceRun.next, FenceRun.stageAfter, apply_ite FencePhase.of,
      FencePhase.of_releases, FencePhase.of_afterBump]
    simp only [FencePhase.of, FenceRun.bumps]
    grind

theorem before_of_bumps (h : run.bumps k = true) : FencePhase.of run.stage = .before := by
  unfold FenceRun.bumps at h
  split at h
  case h_1 hstage => rw [hstage]; rfl
  case h_2 hstage => rw [hstage]; rfl
  case h_3 => cases h

end

structure FencedOnce (x : NodeState) : Prop where
  holder : ∀ r, phase x r ≠ .outside → x.keys.claim = some r
  before : ∀ r, phase x r = .before → x.since.bumps = 0
  once : x.since.bumps ≤ 1
  completed : x.since.completed ≤ x.since.bumps
  won : ∀ r, phase x r ≠ .outside → (x.runs r).departure ≤ x.since.count
  unfinished : ∀ r, phase x r ≠ .outside → (x.runs r).departure = x.since.count →
    x.since.completed = 0
  after : ∀ r, phase x r = .after → (x.runs r).departure = x.since.count → x.since.bumps = 1

namespace FencedOnce

variable {x : NodeState}

theorem init : FencedOnce .init where
  holder r h := absurd rfl h
  before r h := rfl
  once := Nat.zero_le _
  completed := Nat.le_refl _
  won r h := absurd rfl h
  unfinished r h := absurd rfl h
  after r h := by cases h

theorem atMostOneFence (hx : FencedOnce x) : AtMostOneFence x :=
  fun _ => ⟨hx.once, hx.completed.trans hx.once⟩

theorem of_quiet (hx : FencedOnce x) {y : NodeState}
    (hclaim : ∀ r, phase y r ≠ .outside → y.keys.claim = x.keys.claim) (hsince : y.since = x.since)
    (hruns : ∀ r, phase y r ≠ .outside → y.runs r = x.runs r) :
    FencedOnce y := by
  have hphase : ∀ r, phase y r ≠ .outside → phase x r = phase y r := by
    intro r hr
    rw [phase, phase, hruns r hr]
  have hne : ∀ r, phase y r ≠ .outside → phase x r ≠ .outside := by
    intro r hr
    rw [hphase r hr]
    exact hr
  refine ⟨fun r hr => ?_, fun r hr => ?_, hsince ▸ hx.once, hsince ▸ hx.completed, fun r hr => ?_,
    fun r hr hd => ?_, fun r hr hd => ?_⟩
  · rw [hclaim r hr]
    exact hx.holder r (hne r hr)
  · rw [hsince]
    exact hx.before r ((hphase r (by simp [hr])).trans hr)
  · rw [hsince, hruns r hr]
    exact hx.won r (hne r hr)
  · rw [hsince] at hd ⊢
    rw [hruns r hr] at hd
    exact hx.unfinished r (hne r hr) hd
  · have hr' : phase y r ≠ .outside := by simp [hr]
    rw [hsince] at hd ⊢
    rw [hruns r hr'] at hd
    exact hx.after r ((hphase r hr').trans hr) hd

theorem depart (hx : FencedOnce x) (announced : Bool) : FencedOnce (x.depart announced) where
  holder := hx.holder
  before _ _ := rfl
  once := Nat.zero_le _
  completed := Nat.le_refl _
  won r hr := Nat.le_succ_of_le (hx.won r hr)
  unfinished _ _ _ := rfl
  after r hr hd := by
    have hle := hx.won r (by rw [show phase x r = .after from hr]; simp)
    simp only [NodeState.depart] at hd
    omega

variable {fencer : Bool} {revision : Nat} {owned : List ArenaID} {r : Nat} {reply : Reply}

theorem claim_fenceKeys : (x.fenceKeys revision r reply).claim = x.keys.claim ∨
    (x.runs r).stage = .claim ∧ x.keys.claim = none ∧
      (x.fenceKeys revision r reply).claim = some r ∨
    (x.runs r).stage = .unclaim ∧ x.keys.claim = some r ∧
      (x.fenceKeys revision r reply).claim = none := by
  rcases x.fenceKeys_cases revision r reply with hsame | ⟨-, hwrites⟩
  · rw [hsame]
    exact .inl rfl
  · generalize x.fenceKeys revision r reply = k at hwrites
    cases hwrites with
    | claim hstage hfree => exact .inr (.inl ⟨hstage, hfree, rfl⟩)
    | unclaim hstage hheld => exact .inr (.inr ⟨hstage, hheld, rfl⟩)
    | intent | dropMark | mark | bump => exact .inl rfl

theorem eq_of_holder (hx : FencedOnce x) (hr : phase x r ≠ .outside) {r' : Nat}
    (hr' : phase x r' ≠ .outside) : r' = r := by
  have h := (hx.holder r' hr').symm.trans (hx.holder r hr)
  exact some.inj h

theorem bumps_fence : (x.fence fencer revision owned r reply).since.bumps =
    if (x.runs r).bumps x.keys = true ∧ reply ≠ .unsent then x.since.bumps + 1
    else x.since.bumps := rfl

theorem completed_fence : (x.fence fencer revision owned r reply).since.completed =
    if (x.runs r).stage = .clear ∧ (x.runs r).departure = x.since.count then
      x.since.completed + 1
    else x.since.completed := rfl

theorem runs_fence_of_ne {r' : Nat} (h : r' ≠ r) :
    (x.fence fencer revision owned r reply).runs r' = x.runs r' := by
  simp [NodeState.fence, h]

theorem runs_fence_self : (x.fence fencer revision owned r reply).runs r =
    (x.runs r).next fencer x.keys owned x.since.count (reply = .answered) := by
  simp [NodeState.fence]

theorem fence_of_holder (hx : FencedOnce x) (hr : phase x r ≠ .outside) :
    FencedOnce (x.fence fencer revision owned r reply) := by
  have hstage : (x.runs r).stage ≠ .claim := by
    intro hstage
    exact hr (by rw [phase, hstage]; rfl)
  have hclaim : (x.fenceKeys revision r reply).claim = some r := by
    rcases claim_fenceKeys (x := x) (r := r) with hsame | ⟨hclaim, -⟩ | ⟨hunclaim, -⟩
    · exact hsame.trans (hx.holder r hr)
    · exact absurd hclaim hstage
    · exact absurd (by rw [phase, hunclaim]; rfl) hr
  have hself : ∀ r', phase (x.fence fencer revision owned r reply) r' ≠ .outside → r' = r := by
    intro r' hr'
    by_contra hne
    rw [phase, runs_fence_of_ne hne] at hr'
    exact hne (hx.eq_of_holder hr hr')
  have hdeparture : ((x.fence fencer revision owned r reply).runs r).departure =
      (x.runs r).departure := by
    rw [runs_fence_self, FenceRun.next]
    exact if_neg hstage
  have hnobump : (x.runs r).bumps x.keys = false →
      (x.fence fencer revision owned r reply).since.bumps = x.since.bumps := by
    intro hb
    rw [bumps_fence, if_neg]
    simp [hb]
  refine ⟨fun r' hr' => ?_, fun r' hr' => ?_, ?_, ?_, fun r' hr' => ?_, fun r' hr' hd => ?_,
    fun r' hr' hd => ?_⟩
  · rw [hself r' hr']
    exact hclaim
  · obtain rfl := hself r' (by simp [hr'])
    rw [phase, runs_fence_self] at hr'
    obtain ⟨hb, hbefore | ⟨hc, -⟩⟩ := phase_next.1 hr'
    · rw [hnobump hb]
      exact hx.before r' hbefore
    · exact absurd hc hstage
  · rw [bumps_fence]
    split
    case isTrue hb => rw [hx.before r (before_of_bumps hb.1)]
    case isFalse => exact hx.once
  · rw [completed_fence]
    split
    case isTrue hc =>
      -- the fence ends in the departure it was claimed for, which it has bumped
      have hafter : phase x r = .after := by rw [phase, hc.1]; rfl
      have hb : (x.runs r).bumps x.keys = false := by
        rw [FenceRun.bumps, hc.1]
      rw [hnobump hb, hx.unfinished r hr hc.2, hx.after r hafter hc.2]
    case isFalse =>
      refine hx.completed.trans ?_
      rw [bumps_fence]
      split <;> omega
  · obtain rfl := hself r' hr'
    rw [hdeparture]
    exact hx.won r' hr
  · obtain rfl := hself r' hr'
    rw [hdeparture] at hd
    have hclear : (x.runs r').stage ≠ .clear := by
      intro hclear
      rw [phase, runs_fence_self, FenceRun.next, FenceRun.stageAfter, hclear] at hr'
      exact hr' rfl
    rw [completed_fence, if_neg fun h => hclear h.1]
    exact hx.unfinished r' hr hd
  · obtain rfl := hself r' (by simp [hr'])
    rw [hdeparture] at hd
    rw [phase, runs_fence_self] at hr'
    obtain ⟨-, hafter | ⟨hbefore, hb, htold⟩⟩ := phase_next.2 hr'
    · have hb : (x.runs r').bumps x.keys = false := by
        rw [Bool.eq_false_iff]
        intro hb
        rw [before_of_bumps hb] at hafter
        cases hafter
      rw [hnobump hb]
      exact hx.after r' hafter hd
    · rw [bumps_fence, if_pos ⟨hb, by simp [of_decide_eq_true htold]⟩, hx.before r' hbefore]

theorem since_fence_of_outside (hr : phase x r = .outside) :
    (x.fence fencer revision owned r reply).since = x.since := by
  have hb : (x.runs r).bumps x.keys = false := by
    rw [Bool.eq_false_iff]
    intro hb
    rw [phase, before_of_bumps hb] at hr
    cases hr
  have hclear : (x.runs r).stage ≠ .clear := by
    intro hclear
    rw [phase, hclear] at hr
    cases hr
  simp [NodeState.fence, NodeState.fenceSince, hb, hclear]

theorem phase_fence_cases (hr : phase x r = .outside) {r' : Nat}
    (hr' : phase (x.fence fencer revision owned r reply) r' ≠ .outside) :
    (r' ≠ r ∧ phase x r' ≠ .outside) ∨ (r' = r ∧ (x.runs r).stage = .claim ∧
      reply = .answered ∧ x.keys.claim = none ∧
      phase (x.fence fencer revision owned r reply) r' = .before) := by
  by_cases hne : r' = r
  · subst hne
    right
    cases hphase : phase (x.fence fencer revision owned r' reply) r' with
    | outside => exact absurd hphase hr'
    | before =>
      rw [phase, runs_fence_self] at hphase
      obtain ⟨-, hbefore | ⟨hc, htold, hfree⟩⟩ := phase_next.1 hphase
      · rw [phase, hbefore] at hr
        cases hr
      · exact ⟨rfl, hc, of_decide_eq_true htold, hfree, rfl⟩
    | after =>
      rw [phase, runs_fence_self] at hphase
      obtain ⟨-, hafter | ⟨hbefore, -⟩⟩ := phase_next.2 hphase
      · rw [phase, hafter] at hr
        cases hr
      · rw [phase, hbefore] at hr
        cases hr
  · left
    rw [phase, runs_fence_of_ne hne] at hr'
    exact ⟨hne, hr'⟩

theorem fence_of_won (hx : FencedOnce x) (hr : phase x r = .outside)
    (hstage : (x.runs r).stage = .claim) (hreply : reply = .answered)
    (hfree : x.keys.claim = none) (hzero : x.since.bumps = 0) :
    FencedOnce (x.fence fencer revision owned r reply) := by
  have hsince : (x.fence fencer revision owned r reply).since = x.since :=
    since_fence_of_outside hr
  have hclaim : (x.fenceKeys revision r reply).claim = some r := by
    simp [NodeState.fenceKeys, FenceRun.write, hstage, hfree, hreply, Reply.deliver]
  have hself : ∀ r', phase (x.fence fencer revision owned r reply) r' ≠ .outside →
      r' = r ∧ phase (x.fence fencer revision owned r reply) r' = .before := by
    intro r' hr'
    rcases phase_fence_cases hr hr' with ⟨-, hold⟩ | ⟨he, -, -, -, hbefore⟩
    · have hheld := hx.holder r' hold
      rw [hfree] at hheld
      cases hheld
    · exact ⟨he, hbefore⟩
  have hnone : x.since.completed = 0 := Nat.le_zero.mp (hzero ▸ hx.completed)
  refine ⟨fun r' hr' => ?_, fun _ _ => ?_, ?_, ?_, fun r' hr' => ?_, fun _ _ _ => ?_,
    fun r' hr' _ => ?_⟩
  · rw [(hself r' hr').1]
    exact hclaim
  · rw [hsince]
    exact hzero
  · rw [hsince]
    exact hx.once
  · rw [hsince]
    exact hx.completed
  · obtain ⟨rfl, -⟩ := hself r' hr'
    rw [hsince, runs_fence_self, FenceRun.next]
    simp only [hstage, if_true, Nat.le_refl]
  · rw [hsince]
    exact hnone
  · have hbefore := (hself r' (by simp [hr'])).2
    rw [hr'] at hbefore
    cases hbefore

theorem fence_of_outside (hx : FencedOnce x) (hr : phase x r = .outside)
    (hwin : (x.runs r).stage = .claim → reply = .answered → x.keys.claim = none →
      x.since.bumps = 0) : FencedOnce (x.fence fencer revision owned r reply) := by
  by_cases hwon : (x.runs r).stage = .claim ∧ reply = .answered ∧ x.keys.claim = none
  · obtain ⟨hstage, hreply, hfree⟩ := hwon
    exact hx.fence_of_won hr hstage hreply hfree (hwin hstage hreply hfree)
  · have hold : ∀ r', phase (x.fence fencer revision owned r reply) r' ≠ .outside →
        r' ≠ r ∧ phase x r' ≠ .outside := by
      intro r' hr'
      rcases phase_fence_cases hr hr' with hold | ⟨-, hstage, hreply, hfree, -⟩
      · exact hold
      · exact absurd ⟨hstage, hreply, hfree⟩ hwon
    refine hx.of_quiet (fun r' hr' => ?_) (since_fence_of_outside hr)
      fun r' hr' => runs_fence_of_ne (hold r' hr').1
    obtain ⟨hne, hheld⟩ := hold r' hr'
    rcases claim_fenceKeys (x := x) (r := r) with hsame | ⟨-, hfree, -⟩ | ⟨-, hown, -⟩
    · exact hsame
    · rw [hx.holder r' hheld] at hfree
      cases hfree
    · exact absurd (some.inj ((hx.holder r' hheld).symm.trans hown)) hne

theorem step (hx : FencedOnce x) {a : NodeAct} {y : NodeState} (hc : ClaimsInTime x a)
    (h : x.step fencer revision owned a = some y) : FencedOnce y := by
  cases a with
  | start | adopt | attach | rejoin | crash | readGeneration =>
    obtain ⟨-, rfl⟩ := ite_some_none_eq_some.mp h
    exact hx.of_quiet (fun _ _ => rfl) rfl fun _ _ => rfl
  | ensure reply =>
    obtain ⟨-, rfl⟩ := ite_some_none_eq_some.mp h
    obtain ⟨g, d, heq, -⟩ := x.ensure_eq reply
    rw [heq]
    exact hx.of_quiet (fun _ _ => rfl) rfl fun _ _ => rfl
  | beat reply =>
    obtain ⟨-, rfl⟩ := ite_some_none_eq_some.mp h
    obtain ⟨hsince, hruns, hclaim, -⟩ := x.register_frame reply
    exact hx.of_quiet (fun _ _ => hclaim) hsince fun r _ => congrFun hruns r
  | expire =>
    obtain ⟨-, rfl⟩ := ite_some_none_eq_some.mp h
    exact hx.depart false
  | announce reply =>
    obtain ⟨-, hy⟩ := ite_none_right_eq_some.mp h
    split at hy
    · cases hy
      exact hx.depart true
    · cases hy
      exact hx
  | notice r | sweep r =>
    obtain ⟨-, rfl⟩ := ite_some_none_eq_some.mp h
    refine hx.of_quiet (fun _ _ => rfl) rfl fun r' hr' => ?_
    by_cases hne : r' = r
    · simp [phase, NodeState.begin, hne, FencePhase.of] at hr'
    · simp [NodeState.begin, hne]
  | fence r reply =>
    obtain ⟨-, rfl⟩ := ite_some_none_eq_some.mp h
    by_cases hr : phase x r = .outside
    · exact hx.fence_of_outside hr hc
    · exact hx.fence_of_holder hr
  | loseController r =>
    cases h
    refine hx.of_quiet (fun _ _ => rfl) rfl fun r' hr' => ?_
    by_cases hne : r' = r
    · simp [phase, hne, FencePhase.of] at hr'
    · simp [hne]
  | expireClaim =>
    cases h
    have hidle : ∀ r, phase x r = .outside := by
      intro r
      by_contra hr
      exact hr (hc r (hx.holder r hr))
    exact hx.of_quiet (fun r hr => absurd (hidle r) hr) rfl fun _ _ => rfl

end FencedOnce

/-- In every run in which claims are won and kept in time, each departure is bumped
once at most and fenced to the end once at most while the node stays away. -/
theorem departures_fenced_once {fencer : Bool} {p : Pool} {acts : List ClusterAct}
    (hc : (cluster fencer).Along (fun s a _ => EachNode ClaimsInTime s a) (Cluster.init p) acts) :
    (cluster fencer).Along (fun _ _ t => ∀ n, AtMostOneFence (t.nodes n)) (Cluster.init p)
      acts := by
  refine along_nodes (I := FencedOnce) ?_ ?_ ?_ hc
  · intro x revision owned a y hx hc h
    exact hx.step hc h
  · intro x hx
    exact hx.atMostOneFence
  · intro n
    exact FencedOnce.init

/-- A node leaves, and one controller fences it. -/
theorem departures_fenced_once_alone :
    (cluster true).Along (fun _ _ t => ∀ n, AtMostOneFence (t.nodes n))
      (Cluster.init ⟨[], [], none⟩)
      (joinCluster "n1" ++ [.node "n1" .crash, .node "n1" .expire, .node "n1" (.notice 0)] ++
        fenceCalls "n1" 0 14) :=
  departures_fenced_once (by decide +kernel)

def lateController : List ClusterAct :=
  joinCluster "n1" ++
    [.node "n1" .crash, .node "n1" .expire, .node "n1" (.notice 0), .node "n1" (.notice 1)] ++
    fenceCalls "n1" 0 14 ++ fenceCalls "n1" 1 14

/-- The departure is bumped twice and two fences are completed. -/
theorem late_controller_fences_again :
    ((cluster true).exec (Cluster.init ⟨[], [], none⟩) lateController).map
      (fun s => ((s.nodes "n1").keys.member, (s.nodes "n1").keys.gen, (s.nodes "n1").since)) =
      some (none, some 2, ⟨1, false, 2, 2⟩) := by
  decide +kernel

end EtcFS.Correctness
