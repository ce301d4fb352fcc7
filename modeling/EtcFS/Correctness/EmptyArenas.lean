import EtcFS.Core.Transition
import EtcFS.Arena.Pool

/-!
# Arenas taken and given back

The allocators stay apart in exactly the runs in which every release that was applied is also heard
of.
-/

namespace EtcFS.Correctness

open EtcFS.Core Metadata Arena Option

inductive ArenaAct where
  | acquire (i : Nat) (n : NodeID)
  | detach (i : Nat) (n : NodeID) (isEmpty : ArenaID → Bool)
  | call (i : Nat) (reply : Reply)
  | abandon (i : Nat)

def isAcquisition : ArenaOp → Bool
  | .releasing _ _ => false
  | .listing | .claiming _ _ | .reading | .reserving _ | .recording _ _ | .marking _ => true

def arenaNodes : Machine Arenas ArenaAct where
  step s
    | .acquire i n => if s.ops i = none then some (s.goto i n (some .listing)) else none
    | .detach i n isEmpty => if s.ops i = none then some (s.detach i n isEmpty) else none
    | .call i reply => (s.ops i).map fun x => s.call i x.1 true reply x.2
    | .abandon i => ((s.ops i).filter fun x => isAcquisition x.2).map fun x => s.goto i x.1 none

def ListsApart (s : Arenas) : Prop :=
  ∀ n a, a ∈ s.listed n →
    (n, a) ∈ s.pool.records ∧ a ∉ s.pool.free ∧ ∀ m, m ≠ n → a ∉ s.listed m

def ReleaseHeard (s : Arenas) (act : ArenaAct) : Prop :=
  ∀ i n a rest, act = .call i .lost → s.ops i = some (n, .releasing a rest) →
    (n, a) ∉ s.pool.records

theorem listsApart_of_sound {s : Arenas} (hs : s.Sound) : ListsApart s := by
  intro n a ha
  have hrec := hs.keeps (h := .node n) ⟨rfl, ha⟩
  refine ⟨hrec, hs.pool.apart n a hrec, fun m hm ha' => hm ?_⟩
  exact hs.pool.unique m n a (hs.keeps (h := .node m) ⟨rfl, ha'⟩) hrec

theorem sound_of_heard {s t : Arenas} {act : ArenaAct} (hs : s.Sound) (hc : ReleaseHeard s act)
    (h : arenaNodes.step s act = some t) : t.Sound := by
  cases act with
  | acquire i n =>
    obtain ⟨-, rfl⟩ := ite_some_none_eq_some.mp h
    exact hs.goto_idle rfl
  | detach i n isEmpty =>
    obtain ⟨-, rfl⟩ := ite_some_none_eq_some.mp h
    exact hs.detach isEmpty
  | call i reply =>
    obtain ⟨⟨n, o⟩, hi, rfl⟩ := map_eq_some_iff.mp h
    refine hs.call hi true fun a rest ho hlost => ?_
    subst ho hlost
    exact hc i n a rest rfl hi
  | abandon i =>
    obtain ⟨⟨n, o⟩, -, rfl⟩ := map_eq_some_iff.mp h
    exact hs.goto_idle rfl

theorem not_listsApart_of_lost {s t : Arenas} {i : Nat} {n : NodeID} {a : ArenaID}
    {rest : List ArenaID} (hi : s.ops i = some (n, .releasing a rest))
    (hrec : (n, a) ∈ s.pool.records) (h : arenaNodes.step s (.call i .lost) = some t) :
    ¬ListsApart t := by
  obtain ⟨x, hx, rfl⟩ := map_eq_some_iff.mp h
  obtain rfl := some.inj (hi.symm.trans hx)
  have hrelease : s.pool.releaseArenaID n a = some { s.pool with
        records := s.pool.records.filter (· ≠ (n, a))
        free := a :: s.pool.free.filter (· ≠ a) } := if_pos hrec
  intro hapart
  have hlisted := hapart n a (by
    simp [Arenas.call, hrelease, Reply.deliver, Arenas.attach, Arenas.goto])
  simp [Arenas.call, hrelease, Reply.deliver, Arenas.attach, Arenas.goto] at hlisted

/-- From any state the nodes restart in, the lists stay apart in a run exactly if no
release that is applied has its reply lost. -/
theorem listsApart_iff_heard {p : Pool} (hp : p.Valid) (acts : List ArenaAct) :
    arenaNodes.Along (fun _ _ t => ListsApart t) (Arenas.boot p) acts ↔
      arenaNodes.Along (fun s act _ => ReleaseHeard s act) (Arenas.boot p) acts := by
  refine Machine.along_iff (I := Arenas.Sound) ?_ ?_ (.boot hp) acts
  · intro s act t hs hc h
    exact sound_of_heard hs hc h
  · intro s act t hs h
    constructor
    · intro hapart i n a rest ha hi hrec
      subst ha
      exact not_listsApart_of_lost hi hrec h hapart
    · intro hc
      exact listsApart_of_sound (sound_of_heard hs hc h)

def oneArena : Pool := ⟨[("n1", 0)], [], some 1⟩

def lostRelease : List ArenaAct :=
  [.detach 0 "n1" fun _ => true, .call 0 .lost, .acquire 1 "n2", .call 1 .answered,
    .call 1 .answered, .call 1 .answered, .call 1 .answered]

theorem oneArena_valid : oneArena.Valid where
  nodup := by decide
  unique := by simp [oneArena]
  apart := by simp [oneArena]
  drawn := by simp [oneArena]

theorem listsApart_iff_heard_answered :
    arenaNodes.Along (fun _ _ t => ListsApart t) (Arenas.boot oneArena)
      [.detach 0 "n1" fun _ => true, .call 0 .answered] := by
  refine (listsApart_iff_heard oneArena_valid _).mpr fun s _ => ⟨?_, fun t _ => ⟨?_, trivial⟩⟩
  · intro i n a rest h
    cases h
  · intro i n a rest h
    cases h

/-- Both nodes allocate from one arena. -/
theorem lost_release_lists_twice :
    (arenaNodes.exec (Arenas.boot oneArena) lostRelease).map
      (fun s => (s.listed "n1", s.listed "n2", s.pool.records)) =
        some ([0], [0], [("n2", 0)]) := by
  decide +kernel

end EtcFS.Correctness
