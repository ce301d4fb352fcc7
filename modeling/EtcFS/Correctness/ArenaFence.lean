import EtcFS.Fencing.Cluster
import EtcFS.Correctness.EmptyArenas

/-!
# Arenas under fences

The allocators stay apart in a run where no arena is given back while a process of its node still
has it in hand, and no restarting node's scan covers another's records.
-/

namespace EtcFS.Correctness

open EtcFS.Core Metadata Arena Fencing Option Function List

def ArenasExclusive (s : Cluster) : Prop :=
  ∀ n a, (s.nodes n).daemon.stage ≠ .down → (s.nodes n).daemon.access = true →
    a ∈ s.arenas.listed n →
    a ∉ s.arenas.pool.free ∧ (∀ m, m ≠ n → (m, a) ∉ s.arenas.pool.records) ∧
      ∀ m, m ≠ n → (s.nodes m).daemon.stage ≠ .down → a ∉ s.arenas.listed m

def ReleasesUnused (s : Cluster) (act : ClusterAct) : Prop :=
  ∀ n a b, act = .node n a → (s.nodes n).releasing a = some b → ∀ h, ¬s.arenas.Keeps h n b

/-- Where a node adopts what its scan finds, no id with a record goes on after the node's with a
`/`. -/
def AdoptsOwn (s : Cluster) : ClusterAct → Prop
  | .node n (.adopt .answered) => ∀ r ∈ s.arenas.pool.records, ¬ n.toList ++ ['/'] <+: r.1.toList
  | _ => True

instance (s : Cluster) (act : ClusterAct) : Decidable (AdoptsOwn s act) := by
  unfold AdoptsOwn
  split <;> infer_instance

def Acquires (o : Option ArenaOp) : Prop := o.all isAcquisition = true

theorem acquires_candidates (as : List ArenaID) : Acquires (some (ArenaOp.candidates as)) := by
  cases as <;> rfl

theorem call_frame (s : Arenas) (i : Nat) (n : NodeID) (unfenced : Bool) (reply : Reply)
    (o : ArenaOp) : ∃ (as : List ArenaID) (o' : Option ArenaOp),
      (s.call i n unfenced reply o).listed = Function.update s.listed n as ∧
      (s.call i n unfenced reply o).ops = Function.update s.ops i (o'.map (n, ·)) ∧
      (isAcquisition o = true → Acquires o') := by
  have hsame : s.listed = Function.update s.listed n (s.listed n) :=
    (update_eq_self n s.listed).symm
  cases o with
  | listing =>
    refine ⟨_, _, hsame, rfl, fun _ => ?_⟩
    split
    · exact acquires_candidates _
    · rfl
  | claiming a rest =>
    rw [Arenas.call]
    split
    · exact ⟨_, _, hsame, rfl, fun _ => rfl⟩
    · exact ⟨_, _, hsame, rfl, fun _ => acquires_candidates rest⟩
    · exact ⟨_, _, hsame, rfl, fun _ => rfl⟩
  | reading => exact ⟨_, _, hsame, rfl, fun _ => by split <;> rfl⟩
  | reserving stored =>
    rw [Arenas.call]
    split
    · exact ⟨_, _, hsame, rfl, fun _ => rfl⟩
    · exact ⟨_, _, hsame, rfl, fun _ => by split <;> rfl⟩
    · exact ⟨_, none, hsame, rfl, fun _ => rfl⟩
  | recording a reused =>
    rw [Arenas.call]
    split
    · split
      · exact ⟨_, _, hsame, rfl, fun _ => rfl⟩
      · exact ⟨_, none, rfl, rfl, fun _ => rfl⟩
    · exact ⟨_, none, hsame, rfl, fun _ => rfl⟩
  | marking a =>
    rw [Arenas.call]
    split
    · exact ⟨_, none, rfl, rfl, fun _ => rfl⟩
    · exact ⟨_, none, hsame, rfl, fun _ => rfl⟩
  | releasing a rest =>
    rw [Arenas.call]
    split
    · exact ⟨_, _, hsame, rfl, (absurd · Bool.false_ne_true)⟩
    · exact ⟨_, _, rfl, rfl, (absurd · Bool.false_ne_true)⟩
    · exact ⟨_, none, rfl, rfl, (absurd · Bool.false_ne_true)⟩

theorem serving_of_step {fencer : Bool} {revision : Nat} {owned : List ArenaID}
    {x y : NodeState} {a : NodeAct} (h : x.step fencer revision owned a = some y)
    (hne : a ≠ .crash) (hx : x.daemon.stage = .serving) : y.daemon.stage = .serving := by
  cases a with
  | crash => exact absurd rfl hne
  | start =>
    obtain ⟨hdown, -⟩ := ite_none_right_eq_some.mp h
    rw [hx] at hdown
    cases hdown
  | ensure reply | readGeneration reply | adopt reply =>
    obtain ⟨hstage, -⟩ := ite_none_right_eq_some.mp h
    rw [hx] at hstage
    cases hstage
  | attach | rejoin | expire | notice | sweep =>
    obtain ⟨-, rfl⟩ := ite_some_none_eq_some.mp h
    exact hx
  | beat reply =>
    obtain ⟨-, rfl⟩ := ite_some_none_eq_some.mp h
    rw [NodeState.register]
    split <;> exact hx
  | announce reply =>
    obtain ⟨-, hy⟩ := ite_none_right_eq_some.mp h
    split at hy
    · cases hy
      exact hx
    · cases hy
      exact hx
  | fence r reply =>
    obtain ⟨-, rfl⟩ := ite_some_none_eq_some.mp h
    obtain ⟨access, hd⟩ := x.daemon_fence fencer revision owned r reply
    rw [hd]
    exact hx
  | loseController r | expireClaim =>
    cases h
    exact hx

structure ArenasServed (s : Cluster) : Prop where
  sound : s.arenas.Sound
  listed : ∀ n, (s.nodes n).daemon.stage ≠ .serving → s.arenas.listed n = []
  serving : ∀ i n o, s.arenas.ops i = some (n, o) → (s.nodes n).daemon.stage = .serving
  acquiring : ∀ i n o, s.arenas.ops i = some (n, o) → isAcquisition o = true

namespace ArenasServed

variable {s t : Cluster}

theorem exclusive (hs : ArenasServed s) : ArenasExclusive s := by
  intro n a _ _ ha
  obtain ⟨hrec, hfree, hlisted⟩ := listsApart_of_sound hs.sound n a ha
  refine ⟨hfree, fun m hm hrec' => hm ?_, fun m hm _ => hlisted m hm⟩
  exact hs.sound.pool.unique m n a hrec' hrec

theorem init {p : Pool} (hp : p.Valid) : ArenasServed (Cluster.init p) where
  sound := .of_listed hp fun _ => nil_sublist _
  listed _ _ := rfl
  serving i n o ho := by cases ho
  acquiring i n o ho := by cases ho

variable {n : NodeID}

theorem idle (hs : ArenasServed s) (hn : (s.nodes n).daemon.stage ≠ .serving)
    (h : Handler) (b : ArenaID) : ¬s.arenas.Keeps h n b := by
  intro hk
  cases h with
  | node m =>
    obtain ⟨rfl, hb⟩ := hk
    rw [hs.listed m hn] at hb
    cases hb
  | op i =>
    obtain ⟨o, ho, -⟩ := hk
    exact hn (hs.serving i n o ho)

theorem of_quiet (hs : ArenasServed s) (hsound : t.arenas.Sound)
    (hlisted : t.arenas.listed = s.arenas.listed) (hops : t.arenas.ops = s.arenas.ops)
    (hserving : ∀ n, (s.nodes n).daemon.stage = .serving → (t.nodes n).daemon.stage = .serving) :
    ArenasServed t where
  sound := hsound
  listed n hn := by
    rw [hlisted]
    exact hs.listed n fun hold => hn (hserving n hold)
  serving i n o ho := by
    rw [hops] at ho
    exact hserving n (hs.serving i n o ho)
  acquiring i n o ho := by
    rw [hops] at ho
    exact hs.acquiring i n o ho

theorem of_operation (hs : ArenasServed s) {i : Nat} {as : List ArenaID}
    {o : Option ArenaOp} (hsound : t.arenas.Sound) (hnodes : t.nodes = s.nodes)
    (hn : (s.nodes n).daemon.stage = .serving)
    (hlisted : t.arenas.listed = Function.update s.arenas.listed n as)
    (hops : t.arenas.ops = Function.update s.arenas.ops i (o.map (n, ·)))
    (hacq : Acquires o) : ArenasServed t := by
  have hold : ∀ j m x, t.arenas.ops j = some (m, x) →
      (m = n ∧ x ∈ o) ∨ s.arenas.ops j = some (m, x) := by
    intro j m x hx
    rw [hops] at hx
    by_cases hj : j = i
    · left
      subst hj
      rw [update_self] at hx
      obtain ⟨y, hy, hyx⟩ := map_eq_some_iff.mp hx
      obtain ⟨rfl, rfl⟩ := Prod.mk.inj hyx
      exact ⟨rfl, hy⟩
    · right
      rwa [update_of_ne hj] at hx
  refine ⟨hsound, fun m hm => ?_, fun j m x hx => ?_, fun j m x hx => ?_⟩
  · rw [hnodes] at hm
    have hne : m ≠ n := fun h => hm (h ▸ hn)
    rw [hlisted, update_of_ne hne]
    exact hs.listed m hm
  · rw [hnodes]
    rcases hold j m x hx with ⟨rfl, -⟩ | hx
    · exact hn
    · exact hs.serving j m x hx
  · rcases hold j m x hx with ⟨-, hx⟩ | hx
    · exact (Option.all_eq_true ..).mp hacq x hx
    · exact hs.acquiring j m x hx

theorem of_crash (hs : ArenasServed s) {y : NodeState} {revision : Nat} :
    ArenasServed ⟨revision, Function.update s.nodes n y, s.arenas.drop n⟩ := by
  have hops : ∀ i m o, (s.arenas.drop n).ops i = some (m, o) →
      m ≠ n ∧ s.arenas.ops i = some (m, o) := by
    intro i m o ho
    obtain ⟨hold, hne⟩ := filter_eq_some_iff.mp ho
    exact ⟨of_decide_eq_true hne, hold⟩
  refine ⟨hs.sound.drop n, fun m hm => ?_, fun i m o ho => ?_, fun i m o ho => ?_⟩
  · by_cases hmn : m = n
    · simp [Arenas.drop, hmn]
    · simp only [update_of_ne hmn] at hm
      simp only [Arenas.drop, update_of_ne hmn]
      exact hs.listed m hm
  · obtain ⟨hmn, ho⟩ := hops i m o ho
    simp only [update_of_ne hmn]
    exact hs.serving i m o ho
  · exact hs.acquiring i m o (hops i m o ho).2

theorem of_adopt (hs : ArenasServed s) {y : NodeState} {revision : Nat}
    (hn : (s.nodes n).daemon.stage ≠ .serving) (hy : y.daemon.stage = .serving)
    (hown : AdoptsOwn s (.node n (.adopt .answered))) :
    ArenasServed ⟨revision, Function.update s.nodes n y, s.arenas.adopt n⟩ := by
  have hserving : ∀ m, (s.nodes m).daemon.stage = .serving →
      (Function.update s.nodes n y m).daemon.stage = .serving := by
    intro m hm
    by_cases hmn : m = n
    · rw [hmn, update_self]
      exact hy
    · rw [update_of_ne hmn]
      exact hm
  refine ⟨hs.sound.adopt (hs.idle hn) hown, fun m hm => ?_, fun i m o ho => ?_, hs.acquiring⟩
  · have hmn : m ≠ n := by
      rintro rfl
      simp only [update_self] at hm
      exact hm hy
    simp only [Arenas.adopt, update_of_ne hmn]
    exact hs.listed m fun hold => hm (hserving m hold)
  · exact hserving m (hs.serving i m o ho)

theorem node_step (hs : ArenasServed s) {fencer : Bool} {a : NodeAct}
    (hc : ReleasesUnused s (.node n a)) (hown : AdoptsOwn s (.node n a))
    (h : (cluster fencer).step s (.node n a) = some t) :
    ArenasServed t := by
  obtain ⟨y, hy, rfl⟩ := map_eq_some_iff.mp h
  have hserving : a ≠ .crash → ∀ m, (s.nodes m).daemon.stage = .serving →
      (Function.update s.nodes n y m).daemon.stage = .serving := by
    intro hne m hm
    by_cases hmn : m = n
    · subst hmn
      rw [update_self]
      exact serving_of_step hy hne hm
    · rw [update_of_ne hmn]
      exact hm
  unfold Cluster.arenasAfter
  split
  case h_1 act _ _ b hb =>
    have hne : act ≠ .crash := by
      rintro rfl
      cases hb
    exact hs.of_quiet (hs.sound.release (hc n act b rfl hb)) rfl rfl (hserving hne)
  case h_2 => exact hs.of_crash
  case h_3 =>
    obtain ⟨hstage, rfl⟩ := ite_some_none_eq_some.mp hy
    refine hs.of_adopt ?_ rfl hown
    rw [hstage]
    exact DaemonStage.noConfusion
  case h_4 hcrash _ _ =>
    exact hs.of_quiet hs.sound rfl rfl (hserving hcrash)

theorem step (hs : ArenasServed s) {fencer : Bool} {act : ClusterAct} (hc : ReleasesUnused s act)
    (hown : AdoptsOwn s act) (h : (cluster fencer).step s act = some t) : ArenasServed t := by
  cases act with
  | node n a => exact hs.node_step hc hown h
  | acquire i n =>
    obtain ⟨⟨-, hn⟩, rfl⟩ := ite_some_none_eq_some.mp h
    exact hs.of_operation (hs.sound.goto_idle rfl) rfl hn
      (update_eq_self n s.arenas.listed).symm rfl rfl
  | arena i reply =>
    obtain ⟨⟨n, o⟩, hi, rfl⟩ := map_eq_some_iff.mp h
    have hacq := hs.acquiring i n o hi
    obtain ⟨as, o', hlisted, hops, hacq'⟩ :=
      call_frame s.arenas i n (s.nodes n).unfenced reply o
    refine hs.of_operation (hs.sound.call hi _ ?_) rfl (hs.serving i n o hi) hlisted hops
      (hacq' hacq)
    rintro a rest rfl
    cases hacq
  | abandon i =>
    obtain ⟨⟨n, o⟩, hi, rfl⟩ := map_eq_some_iff.mp h
    exact hs.of_operation (hs.sound.goto_idle rfl) rfl (hs.serving i n o hi)
      (update_eq_self n s.arenas.listed).symm rfl rfl

end ArenasServed

theorem along_releasesUnused {fencer : Bool} {p : Pool} (hp : p.Valid) {acts : List ClusterAct}
    (hc : (cluster fencer).Along (fun s a _ => EachNode
      (fun x b => x.releasing b = none ∨ x.daemon.stage ≠ .serving) s a ∧ AdoptsOwn s a)
      (Cluster.init p) acts) :
    (cluster fencer).Along (fun s a _ => ReleasesUnused s a ∧ AdoptsOwn s a)
      (Cluster.init p) acts := by
  refine Machine.Along.of_invariant (I := ArenasServed) ?_ (.init hp) hc
  intro s act t hs hc h
  have hunused : ReleasesUnused s act := by
    intro n a b hact hb handler
    rcases hc.1 n a hact with hnone | hn
    · rw [hnone] at hb
      cases hb
    · exact hs.idle hn handler b
  exact ⟨hs.step hunused hc.2 h, hunused, hc.2⟩

/-- In every run in which no arena is given back while a process of its node has it in hand and no
node adopts under another's id, the allocators of running daemons stay apart from the pool and
from each other. -/
theorem arenas_exclusive_of_unused {fencer : Bool} {p : Pool} (hp : p.Valid)
    {acts : List ClusterAct}
    (hc : (cluster fencer).Along (fun s a _ => ReleasesUnused s a ∧ AdoptsOwn s a)
      (Cluster.init p) acts) :
    (cluster fencer).Along (fun _ _ t => ArenasExclusive t) (Cluster.init p) acts := by
  refine Machine.Along.of_invariant (I := ArenasServed) ?_ (.init hp) hc
  intro s act t hs hc h
  have ht := hs.step hc.1 hc.2 h
  exact ⟨ht, ht.exclusive⟩

def acquireFresh (i : Nat) (n : NodeID) : List ClusterAct :=
  .acquire i n :: replicate 4 (.arena i .answered)

theorem emptyPool_valid : Pool.Valid ⟨[], [], none⟩ where
  nodup := nodup_nil
  unique := by simp
  apart := by simp
  drawn := by simp

/-- A node leaves with an arena, and a fence gives the arena back. -/
theorem arenas_exclusive_of_unused_fenced :
    (cluster true).Along (fun _ _ t => ArenasExclusive t) (Cluster.init ⟨[], [], none⟩)
      (joinCluster "n1" ++ acquireFresh 0 "n1" ++
        [.node "n1" .crash, .node "n1" .expire, .node "n1" (.notice 0)] ++
        fenceCalls "n1" 0 15) :=
  arenas_exclusive_of_unused emptyPool_valid
    (along_releasesUnused emptyPool_valid (by decide +kernel))

def restartUnderRelease : List ClusterAct :=
  joinCluster "n1" ++ acquireFresh 0 "n1" ++
    [.node "n1" .crash, .node "n1" .expire, .node "n1" (.notice 0)] ++ fenceCalls "n1" 0 11 ++
    restartNode "n1" ++ fenceCalls "n1" 0 1

def claimReleased : List ClusterAct :=
  joinCluster "n2" ++ .acquire 0 "n2" :: replicate 4 (.arena 0 .answered)

/-- The restarted daemon runs with access to the device and lists an arena of the
free pool, and then one of another node's. -/
theorem restart_under_release_shares :
    ((cluster true).exec (Cluster.init ⟨[], [], none⟩) restartUnderRelease).map
        (fun s => ((s.nodes "n1").daemon.stage, (s.nodes "n1").daemon.access,
          s.arenas.listed "n1", s.arenas.pool)) =
      some (.serving, true, [0], ⟨[], [0], some 1⟩) ∧
    ((cluster true).exec (Cluster.init ⟨[], [], none⟩)
        (restartUnderRelease ++ claimReleased)).map
        (fun s => (s.arenas.listed "n1", s.arenas.listed "n2", s.arenas.pool)) =
      some ([0], [0], ⟨[("n2", 0)], [], some 1⟩) := by
  decide +kernel

end EtcFS.Correctness
