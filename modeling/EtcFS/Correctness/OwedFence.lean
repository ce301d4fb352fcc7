import EtcFS.Fencing.Cluster

/-!
# A departure is not mistaken for a fenced one

A fence marks the node and drops the intent without comparing what it began with, so the mark may
stand for a departure that came later.
-/

namespace EtcFS.Correctness

open EtcFS.Core Metadata Arena Fencing Option List

/-- A sweep that is answered at every call, on keys that nothing else changes. -/
def swept (k : NodeKeys) (owned : List ArenaID) : Nat → FenceRun
  | 0 => { FenceRun.init with fromSweep := true, stage := .listIntents }
  | calls + 1 => (swept k owned calls).next true k owned 0 true

/-- An absent node that was neither announced nor bumped since it left has an intent or no mark,
and the sweep comes to its fence. -/
def StillOwed (x : NodeState) : Prop :=
  x.keys.member = none → x.since.announced = false → x.since.bumps = 0 →
    (x.keys.intent.isSome ∨ x.keys.done = none) ∧
      (0 < x.since.count → ∀ owned, ∃ calls, (swept x.keys owned calls).stage = .claim)

/-- A membership key that expires leaves no mark of the fence before, no marker of the departure
before, and no fence that is past its bump. -/
def LeavesUnmarked (x : NodeState) : NodeAct → Prop
  | .expire => x.keys.done = none ∧ x.keys.departed = false ∧ ∀ r, (x.runs r).pastBump = false
  | _ => True

theorem swept_claims {k : NodeKeys} (hmember : k.member = none) (hgen : k.gen ≠ none)
    (h : k.intent.isSome = true ∨ k.done = none ∧ k.departed = false) (owned : List ArenaID) :
    ∃ calls, (swept k owned calls).stage = .claim := by
  cases hintent : k.intent with
  | some i =>
    exact ⟨4, by simp [swept, FenceRun.next, FenceRun.stageAfter, FenceRun.init, *]⟩
  | none =>
    have hsome : k.gen.isSome = true := isSome_iff_ne_none.mpr hgen
    simp only [hintent, isSome_none, Bool.false_eq_true, false_or] at h
    exact ⟨6, by simp [swept, FenceRun.next, FenceRun.stageAfter, FenceRun.init, *]⟩

/-- A node without a generation key has not got as far as `grantAndRegister`. -/
def Known (x : NodeState) : Prop :=
  x.keys.gen = none → x.since.count = 0 ∧ x.keys.member = none ∧ x.daemon.beat = .off ∧
    (x.daemon.stage = .down ∨ x.daemon.stage = .opened)

namespace Known

variable {x : NodeState}

theorem fence (hx : Known x) (fencer : Bool) (revision : Nat) (owned : List ArenaID) (r : Nat)
    (reply : Reply) : Known (x.fence fencer revision owned r reply) := by
  intro hgen
  have hkept : x.keys.gen = none := by
    rcases x.fenceKeys_cases revision r reply with hsame | ⟨-, hwrites⟩
    · rwa [← hsame]
    · simp only [NodeState.fence] at hgen
      generalize x.fenceKeys revision r reply = k at hgen hwrites
      cases hwrites with
      | bump => cases hgen
      | intent | dropMark | mark | claim | unclaim => exact hgen
  obtain ⟨access, hdaemon⟩ := x.daemon_fence fencer revision owned r reply
  rw [hdaemon]
  simp only [NodeState.fence, (x.fenceKeys_frame revision r reply).1]
  exact hx hkept

theorem step (hx : Known x) {fencer : Bool} {revision : Nat} {owned : List ArenaID}
    {a : NodeAct} {y : NodeState} (h : x.step fencer revision owned a = some y) : Known y := by
  cases a with
  | fence r reply =>
    obtain ⟨-, rfl⟩ := ite_some_none_eq_some.mp h
    exact hx.fence fencer revision owned r reply
  | ensure reply =>
    obtain ⟨-, rfl⟩ := ite_some_none_eq_some.mp h
    intro hgen
    cases reply <;> cases hg : x.keys.gen <;>
      simp_all [Known, NodeState.ensure, Reply.deliver]
  | beat reply =>
    obtain ⟨⟨hoff, -⟩, rfl⟩ := ite_some_none_eq_some.mp h
    intro hgen
    refine absurd (hx ?_).2.2.1 hoff
    rwa [← (x.register_frame reply).2.2.2.1]
  | announce reply =>
    obtain ⟨-, hy⟩ := ite_none_right_eq_some.mp h
    split at hy
    case isTrue hin =>
      cases hy
      intro hgen
      exact absurd (hx hgen).2.1 hin.1
    case isFalse =>
      cases hy
      exact hx
  | _ =>
    simp only [NodeState.step, some.injEq, ite_some_none_eq_some] at h
    intro hgen
    grind [Known, NodeState.depart, NodeState.begin]

end Known

def Unmarked (x : NodeState) : Prop :=
  x.keys.member = none → x.since.announced = false → x.since.bumps = 0 →
    x.keys.done = none ∧ x.keys.departed = false ∧ ∀ r, (x.runs r).pastBump = false

namespace Unmarked

variable {x : NodeState}

theorem init : Unmarked .init := fun _ _ _ => ⟨rfl, rfl, fun _ => rfl⟩

theorem stillOwed (hx : Unmarked x) (hknown : Known x) : StillOwed x := by
  intro hm ha hb
  obtain ⟨hdone, hdeparted, -⟩ := hx hm ha hb
  refine ⟨.inr hdone, fun hcount => swept_claims hm ?_ (.inr ⟨hdone, hdeparted⟩)⟩
  intro hgen
  exact hcount.ne' (hknown hgen).1

theorem of_quiet (hx : Unmarked x) {y : NodeState}
    (hmember : y.keys.member = none → x.keys.member = none) (hsince : y.since = x.since)
    (hdone : x.keys.done = none → y.keys.done = none)
    (hdeparted : x.keys.departed = false → y.keys.departed = false)
    (hruns : ∀ r, (y.runs r).pastBump = true → (x.runs r).pastBump = true) :
    Unmarked y := by
  intro hm ha hb
  rw [hsince] at ha hb
  obtain ⟨hd, hmarker, hr⟩ := hx (hmember hm) ha hb
  refine ⟨hdone hd, hdeparted hmarker, fun r => ?_⟩
  rw [Bool.eq_false_iff]
  intro hp
  have hpast := hruns r hp
  rw [hr r] at hpast
  cases hpast

theorem register (hx : Unmarked x) (reply : Reply) : Unmarked (x.register reply) := by
  obtain ⟨hsince, hruns, -, -, hmember, hdone, hdeparted⟩ := x.register_frame reply
  exact hx.of_quiet hmember hsince hdone hdeparted fun r hp => by rwa [hruns] at hp

theorem fence (hx : Unmarked x) (fencer : Bool) (revision : Nat) (owned : List ArenaID) (r : Nat)
    (reply : Reply) : Unmarked (x.fence fencer revision owned r reply) := by
  intro hm ha hb
  have hbump : ¬((x.runs r).bumps x.keys = true ∧ reply ≠ .unsent) ∧ x.since.bumps = 0 := by
    simp only [NodeState.fence, NodeState.fenceSince] at hb
    split at hb
    case isTrue => exact absurd hb (Nat.succ_ne_zero _)
    case isFalse hno => exact ⟨hno, hb⟩
  obtain ⟨hdone, hdeparted, hruns⟩ := hx ((x.fenceKeys_frame revision r reply).1 ▸ hm) ha hbump.2
  refine ⟨?_, ?_, fun r' => ?_⟩
  · rcases x.fenceKeys_cases revision r reply with hsame | ⟨-, hwrites⟩
    · simp only [NodeState.fence]
      rw [hsame]
      exact hdone
    · simp only [NodeState.fence]
      generalize x.fenceKeys revision r reply = k at hwrites
      cases hwrites with
      | mark hstage =>
        have hpast := hruns r
        simp [FenceRun.pastBump, hstage] at hpast
      | dropMark => rfl
      | intent | claim | unclaim | bump => exact hdone
  · simp only [NodeState.fence, (x.fenceKeys_frame revision r reply).2]
    exact hdeparted
  · by_cases hr : r' = r
    · subst hr
      simp only [NodeState.fence, Function.update_self]
      rw [Bool.eq_false_iff]
      intro hpast
      rcases FenceRun.pastBump_next hpast with hpast | ⟨hb, htold⟩
      · rw [hruns r'] at hpast
        cases hpast
      · refine hbump.1 ⟨hb, ?_⟩
        rw [of_decide_eq_true htold]
        exact fun h => by cases h
    · simp only [NodeState.fence, Function.update_of_ne hr]
      exact hruns r'

theorem step (hx : Unmarked x) {fencer : Bool} {revision : Nat} {owned : List ArenaID}
    {a : NodeAct} {y : NodeState} (hc : LeavesUnmarked x a)
    (h : x.step fencer revision owned a = some y) : Unmarked y := by
  cases a with
  | start | adopt | attach | rejoin | crash | readGeneration =>
    obtain ⟨-, rfl⟩ := ite_some_none_eq_some.mp h
    exact hx
  | ensure reply =>
    obtain ⟨-, rfl⟩ := ite_some_none_eq_some.mp h
    obtain ⟨g, d, heq, -⟩ := x.ensure_eq reply
    rw [heq]
    exact hx
  | beat reply =>
    obtain ⟨-, rfl⟩ := ite_some_none_eq_some.mp h
    exact hx.register reply
  | expire =>
    obtain ⟨-, rfl⟩ := ite_some_none_eq_some.mp h
    exact fun _ _ _ => hc
  | announce reply =>
    obtain ⟨-, hy⟩ := ite_none_right_eq_some.mp h
    split at hy
    · cases hy
      intro _ ha
      cases ha
    · cases hy
      exact hx
  | notice r | sweep r =>
    obtain ⟨-, rfl⟩ := ite_some_none_eq_some.mp h
    refine hx.of_quiet id rfl id id fun r' hp => ?_
    by_cases hr : r' = r
    · simp [NodeState.begin, hr, FenceRun.pastBump] at hp
    · simpa [NodeState.begin, hr] using hp
  | fence r reply =>
    obtain ⟨-, rfl⟩ := ite_some_none_eq_some.mp h
    exact hx.fence fencer revision owned r reply
  | loseController r =>
    cases h
    refine hx.of_quiet id rfl id id fun r' hp => ?_
    by_cases hr : r' = r
    · simp [hr, FenceRun.pastBump] at hp
    · simpa [hr] using hp
  | expireClaim =>
    cases h
    exact hx

end Unmarked

/-- In every run in which no node leaves with a mark or an earlier marker standing or a fence past
its bump, every departure that was not bumped is still owed, and a sweep comes to its fence. -/
theorem departures_stillOwed {fencer : Bool} {p : Pool} {acts : List ClusterAct}
    (hc : (cluster fencer).Along (fun s a _ => EachNode LeavesUnmarked s a) (Cluster.init p) acts) :
    (cluster fencer).Along (fun _ _ t => ∀ n, StillOwed (t.nodes n)) (Cluster.init p) acts := by
  refine along_nodes (I := fun x => Unmarked x ∧ Known x) ?_ ?_ ?_ hc
  · intro x revision owned a y hx hc h
    exact ⟨hx.1.step hc h, hx.2.step h⟩
  · intro x hx
    exact hx.1.stillOwed hx.2
  · intro n
    exact ⟨Unmarked.init, fun _ => ⟨rfl, rfl, rfl, .inl rfl⟩⟩

/-- A node joins and its lease expires. -/
theorem departures_stillOwed_first :
    (cluster true).Along (fun _ _ t => ∀ n, StillOwed (t.nodes n)) (Cluster.init ⟨[], [], none⟩)
      (joinCluster "n1" ++ [.node "n1" .expire]) := by
  apply departures_stillOwed
  rw [Machine.along_append]
  refine ⟨Machine.along_of_forall ?_ _, fun s hs t _ => ⟨?_, trivial⟩⟩
  · intro act hact s t n a ha
    subst ha
    simp only [joinCluster, mem_cons, ClusterAct.node.injEq, not_mem_nil,
      or_false] at hact
    rcases hact with ⟨-, rfl⟩ | ⟨-, rfl⟩ | ⟨-, rfl⟩ | ⟨-, rfl⟩ | ⟨-, rfl⟩ | ⟨-, rfl⟩ | ⟨-, rfl⟩ |
      ⟨-, rfl⟩ <;> trivial
  · intro n a ha
    obtain ⟨rfl, rfl⟩ := ClusterAct.node.inj ha
    have hnode : ((cluster true).exec (Cluster.init ⟨[], [], none⟩) (joinCluster "n1")).map
        (fun s => ((s.nodes "n1").keys.done, (s.nodes "n1").keys.departed, (s.nodes "n1").runs)) =
        some (none, false, fun _ => FenceRun.init) := rfl
    rw [hs] at hnode
    obtain ⟨hdone, hrest⟩ := Prod.mk.inj (some.inj hnode)
    obtain ⟨hdeparted, hruns⟩ := Prod.mk.inj hrest
    exact ⟨hdone, hdeparted, fun r => by rw [hruns]; rfl⟩

def leaveTwiceUnderFence : List ClusterAct :=
  joinCluster "n1" ++ [.node "n1" .crash, .node "n1" .expire, .node "n1" (.notice 0)] ++
    fenceCalls "n1" 0 9 ++ restartNode "n1" ++
    replicate 4 (.node "n1" (.beat .answered)) ++
    [.node "n1" .crash, .node "n1" .expire, .node "n1" (.notice 1)] ++ fenceCalls "n1" 1 3 ++
    fenceCalls "n1" 0 4

/-- The second departure has neither been bumped nor announced, and it is marked as fenced. -/
theorem second_departure_marked :
    ((cluster true).exec (Cluster.init ⟨[], [], none⟩) leaveTwiceUnderFence).map
      (fun s => ((s.nodes "n1").keys.member, (s.nodes "n1").since, (s.nodes "n1").keys.intent,
        (s.nodes "n1").keys.done)) =
      some (none, ⟨2, false, 0, 0⟩, none, some 1) := by
  decide +kernel

end EtcFS.Correctness
