import EtcFS.Core.Transition
import EtcFS.Fencing.Protocol

/-!
# The cluster

The nodes, each with its control keys, its daemon and the attempts to fence it, over one pool of
arenas.
-/

namespace EtcFS.Fencing

open EtcFS.Core Metadata Arena Option

structure Cluster where
  revision : Nat
  nodes : NodeID → NodeState
  arenas : Arenas

inductive ClusterAct where
  | node (n : NodeID) (act : NodeAct)
  /-- `AcquireArena` starts. -/
  | acquire (i : Nat) (n : NodeID)
  /-- The next request of an `AcquireArena`. -/
  | arena (i : Nat) (reply : Reply)
  | abandon (i : Nat)

def NodeState.unfenced (x : NodeState) : Bool := x.keys.gen = some x.daemon.startGen

def NodeState.releasing (x : NodeState) : NodeAct → Option ArenaID
  | .fence r reply =>
    match (x.runs r).stage with
    | .release a _ => if reply = .unsent then none else some a
    | _ => none
  | _ => none

namespace Cluster

def arenasAfter (s : Cluster) (n : NodeID) (act : NodeAct) : Arenas :=
  match (s.nodes n).releasing act, act with
  | some a, _ => s.arenas.release n a
  | none, .crash => s.arenas.drop n
  | none, .adopt .answered => s.arenas.adopt n
  | none, _ => s.arenas

def init (p : Pool) : Cluster := ⟨0, fun _ => .init, ⟨p, fun _ => [], fun _ => none⟩⟩

end Cluster

def cluster (fencer : Bool) : Machine Cluster ClusterAct where
  step s
    | .node n act =>
      ((s.nodes n).step fencer s.revision (s.arenas.pool.scanned n) act).map fun y =>
        ⟨s.revision + 1, Function.update s.nodes n y, s.arenasAfter n act⟩
    | .acquire i n =>
      if s.arenas.ops i = none ∧ (s.nodes n).daemon.stage = .serving then
        some { s with arenas := s.arenas.goto i n (some .listing) }
      else none
    | .arena i reply =>
      (s.arenas.ops i).map fun x =>
        { s with
          revision := s.revision + 1
          arenas := s.arenas.call i x.1 (s.nodes x.1).unfenced reply x.2 }
    | .abandon i =>
      (s.arenas.ops i).map fun x => { s with arenas := s.arenas.goto i x.1 none }

variable {fencer : Bool} {s t : Cluster}

theorem node_step {act : ClusterAct} (h : (cluster fencer).step s act = some t) (n : NodeID) :
    t.nodes n = s.nodes n ∨ ∃ a, act = .node n a ∧
      (s.nodes n).step fencer s.revision (s.arenas.pool.scanned n) a = some (t.nodes n) := by
  cases act with
  | node m a =>
    obtain ⟨y, hy, rfl⟩ := map_eq_some_iff.mp h
    by_cases hn : n = m
    · subst hn
      right
      refine ⟨a, rfl, ?_⟩
      simpa using hy
    · left
      simp [hn]
  | acquire i m =>
    obtain ⟨-, rfl⟩ := ite_some_none_eq_some.mp h
    exact .inl rfl
  | arena i reply | abandon i =>
    obtain ⟨x, -, rfl⟩ := map_eq_some_iff.mp h
    exact .inl rfl

def EachNode (C : NodeState → NodeAct → Prop) (s : Cluster) (act : ClusterAct) : Prop :=
  ∀ n a, act = .node n a → C (s.nodes n) a

instance (C : NodeState → NodeAct → Prop) [∀ x a, Decidable (C x a)] (s : Cluster) :
    ∀ act, Decidable (EachNode C s act)
  | .node n a => decidable_of_iff (C (s.nodes n) a) <| by
      constructor
      · intro h m b hb
        obtain ⟨rfl, rfl⟩ := ClusterAct.node.inj hb
        exact h
      · intro h
        exact h n a rfl
  | .acquire _ _ | .arena _ _ | .abandon _ => isTrue fun n a h => by cases h

variable {I : NodeState → Prop} {C : NodeState → NodeAct → Prop}

theorem nodes_of_step
    (hstep : ∀ x revision owned a y, I x → C x a → x.step fencer revision owned a = some y → I y)
    {act : ClusterAct} (hs : ∀ n, I (s.nodes n)) (hc : EachNode C s act)
    (h : (cluster fencer).step s act = some t) (n : NodeID) : I (t.nodes n) := by
  rcases node_step h n with heq | ⟨a, rfl, ha⟩
  · rw [heq]
    exact hs n
  · exact hstep _ _ _ a _ (hs n) (hc n a rfl) ha

theorem along_nodes {Q : NodeState → Prop}
    (hstep : ∀ x revision owned a y, I x → C x a → x.step fencer revision owned a = some y → I y)
    (himp : ∀ x, I x → Q x) (hs : ∀ n, I (s.nodes n)) {acts : List ClusterAct}
    (hc : (cluster fencer).Along (fun s a _ => EachNode C s a) s acts) :
    (cluster fencer).Along (fun _ _ t => ∀ n, Q (t.nodes n)) s acts := by
  refine Machine.Along.of_invariant (I := fun s => ∀ n, I (s.nodes n)) ?_ hs hc
  intro s act t hs hc h
  have ht := nodes_of_step hstep hs hc h
  exact ⟨ht, fun n => himp _ (ht n)⟩

theorem along_nodes_iff {Q : NodeState → Prop}
    (hstep : ∀ x revision owned a y, I x → C x a → x.step fencer revision owned a = some y → I y)
    (himp : ∀ x, I x → Q x)
    (hconv : ∀ x revision owned a y, I x → x.step fencer revision owned a = some y → Q y → C x a)
    (hs : ∀ n, I (s.nodes n)) (acts : List ClusterAct) :
    (cluster fencer).Along (fun _ _ t => ∀ n, Q (t.nodes n)) s acts ↔
      (cluster fencer).Along (fun s a _ => EachNode C s a) s acts := by
  refine Machine.along_iff (I := fun s => ∀ n, I (s.nodes n)) ?_ ?_ hs acts
  · intro s act t hs hc h
    exact nodes_of_step hstep hs hc h
  · intro s act t hs h
    constructor
    · intro hq n a ha
      subst ha
      obtain ⟨y, hy, rfl⟩ := map_eq_some_iff.mp h
      refine hconv _ _ _ a y (hs n) hy ?_
      simpa using hq n
    · intro hc n
      exact himp _ (nodes_of_step hstep hs hc h n)

def joinCluster (n : NodeID) : List ClusterAct :=
  [.node n .start, .node n (.ensure .answered), .node n (.adopt .answered), .node n .attach,
    .node n (.beat .answered), .node n (.beat .answered), .node n (.beat .answered),
    .node n (.beat .answered)]

def restartNode (n : NodeID) : List ClusterAct :=
  [.node n .start, .node n (.ensure .answered), .node n (.readGeneration .answered),
    .node n (.adopt .answered), .node n .attach]

def fenceCalls (n : NodeID) (r calls : Nat) : List ClusterAct :=
  List.replicate calls (.node n (.fence r .answered))

end EtcFS.Fencing
