import EtcFS.Core.Submission
import EtcFS.Metadata.Extent
import EtcFS.Metadata.Keys

/-!
# The arena pool

An arena is owned by a record in etcd, in the free pool, or has never been issued. Nodes take arenas
and give empty ones back.
-/

namespace EtcFS.Arena

open EtcFS.Core Metadata List Option Function

abbrev ArenaID := Nat

instance instLawfulBEqRecord : LawfulBEq (NodeID × ArenaID) := inferInstance

structure Pool where
  records : List (NodeID × ArenaID)
  free : List ArenaID
  counter : Option Nat
  deriving DecidableEq, Repr

namespace Pool

def ofNode (p : Pool) (n : NodeID) : List ArenaID :=
  (p.records.filter (·.1 = n)).map Prod.snd

/-- The scan of `arena:<node>/`, which covers every id that goes on after this one with a `/`. -/
def scanned (p : Pool) (n : NodeID) : List ArenaID :=
  (p.records.filter fun r => arenaNodePrefix n <+: arenaOwnerKey r.1 r.2).map Prod.snd

def releaseArenaID (p : Pool) (n : NodeID) (a : ArenaID) : Option Pool :=
  if (n, a) ∈ p.records then
    some { p with
      records := p.records.filter (· ≠ (n, a))
      free := a :: p.free.filter (· ≠ a) }
  else none

def claimFreeArena (p : Pool) (a : ArenaID) : Option Pool :=
  if a ∈ p.free then some { p with free := p.free.filter (· ≠ a) } else none

def reserveCounter (p : Pool) (stored : Option Nat) : Option Pool :=
  if p.counter = stored then some { p with counter := some (stored.getD 0 + 1) } else none

def recordOwnership (p : Pool) (n : NodeID) (a : ArenaID) : Option Pool :=
  if (n, a) ∈ p.records then none else some { p with records := (n, a) :: p.records }

end Pool

inductive ArenaOp where
  /-- List the free pool. -/
  | listing
  /-- Claim the first candidate. -/
  | claiming (a : ArenaID) (rest : List ArenaID)
  /-- Read the counter. -/
  | reading
  /-- Draw an id from the counter, as it was read. -/
  | reserving (stored : Option Nat)
  /-- Record the ownership of an arena, which may have been used before. -/
  | recording (a : ArenaID) (reused : Bool)
  /-- Read the live extents of an arena that was used before. -/
  | marking (a : ArenaID)
  /-- Give back the first of the arenas detached as empty. -/
  | releasing (a : ArenaID) (rest : List ArenaID)
  deriving DecidableEq, Repr

def ArenaOp.keeps : ArenaOp → List ArenaID
  | .marking a => [a]
  | .releasing a rest => a :: rest
  | .listing | .claiming _ _ | .reading | .reserving _ | .recording _ _ => []

def ArenaOp.draws : ArenaOp → Option ArenaID
  | .recording a _ => some a
  | .listing | .claiming _ _ | .reading | .reserving _ | .marking _ | .releasing _ _ => none

def ArenaOp.candidates : List ArenaID → ArenaOp
  | [] => .reading
  | a :: rest => .claiming a rest

def ArenaOp.detached : List ArenaID → Option ArenaOp
  | [] => none
  | a :: rest => some (.releasing a rest)

structure Arenas where
  pool : Pool
  listed : NodeID → List ArenaID
  ops : Nat → Option (NodeID × ArenaOp)

namespace Arenas

def goto (s : Arenas) (i : Nat) (n : NodeID) (o : Option ArenaOp) : Arenas :=
  { s with ops := Function.update s.ops i (o.map (n, ·)) }

def attach (s : Arenas) (n : NodeID) (a : ArenaID) : Arenas :=
  { s with listed := Function.update s.listed n (s.listed n ++ [a]) }

def call (s : Arenas) (i : Nat) (n : NodeID) (unfenced : Bool) (reply : Reply) :
    ArenaOp → Arenas
  | .listing =>
    s.goto i n (if reply = .answered then ArenaOp.candidates s.pool.free else some .reading)
  | .claiming a rest =>
    match reply.deliver (s.pool.claimFreeArena a) s.pool with
    | (.committed, pool) => { s with pool := pool }.goto i n (some (.recording a true))
    | (.rejected, pool) => { s with pool := pool }.goto i n (ArenaOp.candidates rest)
    | (.failed, pool) => { s with pool := pool }.goto i n (some .reading)
  | .reading => s.goto i n (if reply = .answered then some (.reserving s.pool.counter) else none)
  | .reserving stored =>
    match reply.deliver (if unfenced then s.pool.reserveCounter stored else none) s.pool with
    | (.committed, pool) =>
      { s with pool := pool }.goto i n (some (.recording (stored.getD 0) false))
    | (.rejected, pool) =>
      { s with pool := pool }.goto i n (if unfenced then some .reading else none)
    | (.failed, pool) => { s with pool := pool }.goto i n none
  | .recording a reused =>
    match reply.deliver (if unfenced then s.pool.recordOwnership n a else none) s.pool with
    | (.committed, pool) =>
      if reused then { s with pool := pool }.goto i n (some (.marking a))
      else ({ s with pool := pool }.attach n a).goto i n none
    | (_, pool) => { s with pool := pool }.goto i n none
  | .marking a => if reply = .answered then (s.attach n a).goto i n none else s.goto i n none
  | .releasing a rest =>
    match reply.deliver (s.pool.releaseArenaID n a) s.pool with
    | (.committed, pool) => { s with pool := pool }.goto i n (ArenaOp.detached rest)
    | (.rejected, pool) =>
      ({ s with pool := pool }.attach n a).goto i n (ArenaOp.detached rest)
    -- an error ends the pass, and what is still detached stays so
    | (.failed, pool) => ({ s with pool := pool }.attach n a).goto i n none

def detach (s : Arenas) (i : Nat) (n : NodeID) (isEmpty : ArenaID → Bool) : Arenas :=
  { s with
    listed := Function.update s.listed n ((s.listed n).filter (!isEmpty ·)) }.goto i n
      (ArenaOp.detached ((s.listed n).filter isEmpty))

def drop (s : Arenas) (n : NodeID) : Arenas :=
  { s with
    listed := Function.update s.listed n []
    ops := fun i => (s.ops i).filter (·.1 ≠ n) }

def adopt (s : Arenas) (n : NodeID) : Arenas :=
  { s with listed := Function.update s.listed n (s.pool.scanned n) }

def release (s : Arenas) (n : NodeID) (a : ArenaID) : Arenas :=
  { s with pool := (s.pool.releaseArenaID n a).getD s.pool }

def boot (p : Pool) : Arenas := ⟨p, p.ofNode, fun _ => none⟩

end Arenas

structure Pool.Valid (p : Pool) : Prop where
  nodup : p.records.Nodup
  unique : ∀ n m a, (n, a) ∈ p.records → (m, a) ∈ p.records → n = m
  apart : ∀ n a, (n, a) ∈ p.records → a ∉ p.free
  drawn : ∀ a, (a ∈ p.free ∨ ∃ n, (n, a) ∈ p.records) → a < p.counter.getD 0

structure Pool.Drawn (p : Pool) (a : ArenaID) : Prop where
  unowned : ∀ n, (n, a) ∉ p.records
  unfree : a ∉ p.free
  drawn : a < p.counter.getD 0

inductive Handler where
  | node (n : NodeID)
  | op (i : Nat)
  deriving DecidableEq

namespace Arenas

def Keeps (s : Arenas) : Handler → NodeID → ArenaID → Prop
  | .node m, n, a => m = n ∧ a ∈ s.listed n
  | .op i, n, a => ∃ o, s.ops i = some (n, o) ∧ a ∈ o.keeps

end Arenas

/-- An arena in hand: kept for a node, or drawn and not recorded yet. -/
abbrev Claim := Option NodeID × ArenaID

def ArenaOp.claims (n : NodeID) (o : ArenaOp) : List Claim :=
  o.keeps.map (some n, ·) ++ o.draws.toList.map (none, ·)

def ArenaOp.claimed (n : NodeID) (o : Option ArenaOp) : List Claim := (o.map (claims n)).getD []

def Arenas.stock (s : Arenas) : Handler → List Claim
  | .node n => (s.listed n).map (some n, ·)
  | .op i => ((s.ops i).map fun x => x.2.claims x.1).getD []

def Pool.Backs (p : Pool) : Claim → Prop
  | (some n, a) => (n, a) ∈ p.records
  | (none, a) => p.Drawn a

/-- Every claim is backed by the pool, and no arena is in two hands. -/
structure Pool.Stocked (p : Pool) (stock : Handler → List Claim) : Prop where
  pool : p.Valid
  backed : ∀ h, ∀ c ∈ stock h, p.Backs c
  unique : ∀ h h', ∀ c ∈ stock h, ∀ c' ∈ stock h', c.2 = c'.2 → h = h'
  nodup : ∀ h, ((stock h).map Prod.snd).Nodup

def Arenas.Sound (s : Arenas) : Prop := s.pool.Stocked s.stock

structure Pool.AgreesOff (a : ArenaID) (p q : Pool) : Prop where
  records : ∀ n b, b ≠ a → ((n, b) ∈ p.records ↔ (n, b) ∈ q.records)
  free : ∀ b, b ≠ a → (b ∈ p.free ↔ b ∈ q.free)
  counter : q.counter.getD 0 ≤ p.counter.getD 0

namespace Pool

variable {p q : Pool} {n : NodeID} {a : ArenaID}

theorem AgreesOff.refl (a : ArenaID) (p : Pool) : AgreesOff a p p where
  records _ _ _ := Iff.rfl
  free _ _ := Iff.rfl
  counter := Nat.le_refl _

theorem mem_ofNode : a ∈ p.ofNode n ↔ (n, a) ∈ p.records := by
  simp only [ofNode, List.mem_map, mem_filter, decide_eq_true_eq]
  constructor
  · rintro ⟨⟨m, b⟩, ⟨hm, rfl⟩, rfl⟩
    exact hm
  · intro h
    exact ⟨(n, a), ⟨h, rfl⟩, rfl⟩

theorem scanned_eq_ofNode (h : ∀ r ∈ p.records, ¬ n.toList ++ ['/'] <+: r.1.toList) :
    p.scanned n = p.ofNode n := by
  refine congrArg (map Prod.snd) (filter_congr fun r hr => decide_eq_decide.mpr ?_)
  rw [arenaNodePrefix, arenaOwnerKey, nodePrefix_iff, or_iff_left (h r hr), eq_comm]

theorem mem_free_release {b : ArenaID} {free : List ArenaID} :
    b ∈ a :: free.filter (· ≠ a) ↔ b = a ∨ b ∈ free := by
  by_cases hb : b = a <;> simp [hb]

namespace Valid

theorem ofNode_nodup (hp : p.Valid) (n : NodeID) : (p.ofNode n).Nodup := by
  refine List.Nodup.map_on ?_ (hp.nodup.filter _)
  rintro ⟨m, a⟩ hm ⟨m', a'⟩ hm' rfl
  simp only [mem_filter, decide_eq_true_eq] at hm hm'
  rw [hm.2, hm'.2]

theorem claimFreeArena (hp : p.Valid) (h : p.claimFreeArena a = some q) :
    q.Valid ∧ q.AgreesOff a p ∧ q.Drawn a := by
  obtain ⟨ha, rfl⟩ := ite_some_none_eq_some.mp h
  have hunowned : ∀ n, (n, a) ∉ p.records := fun n hn => hp.apart n a hn ha
  refine ⟨⟨hp.nodup, hp.unique, fun n b hn hb => ?_, fun b hb => ?_⟩, ⟨?_, ?_, Nat.le_refl _⟩, ?_⟩
  · exact hp.apart n b hn (mem_of_mem_filter hb)
  · exact hp.drawn b (hb.imp mem_of_mem_filter id)
  · exact fun _ _ _ => Iff.rfl
  · intro b hb
    simp [hb]
  · exact ⟨hunowned, by simp, hp.drawn a (.inl ha)⟩

theorem reserveCounter {stored : Option Nat} (hp : p.Valid) (h : p.reserveCounter stored = some q) :
    q.Valid ∧ q.AgreesOff (stored.getD 0) p ∧ q.Drawn (stored.getD 0) := by
  obtain ⟨hc, rfl⟩ := ite_some_none_eq_some.mp h
  have hnew : ∀ b, (b ∈ p.free ∨ ∃ n, (n, b) ∈ p.records) → b < stored.getD 0 := by
    intro b hb
    rw [← hc]
    exact hp.drawn b hb
  refine ⟨⟨hp.nodup, hp.unique, hp.apart, fun b hb => ?_⟩, ⟨?_, ?_, ?_⟩, ⟨fun n hn => ?_, ?_, ?_⟩⟩
  · exact Nat.lt_succ_of_lt (hnew b hb)
  · exact fun _ _ _ => Iff.rfl
  · exact fun _ _ => Iff.rfl
  · rw [hc]
    exact Nat.le_succ _
  · exact Nat.lt_irrefl _ (hnew _ (.inr ⟨n, hn⟩))
  · exact fun hf => Nat.lt_irrefl _ (hnew _ (.inl hf))
  · exact Nat.lt_succ_self _

theorem recordOwnership (hp : p.Valid) (ha : p.Drawn a) (h : p.recordOwnership n a = some q) :
    q.Valid ∧ q.AgreesOff a p ∧ (n, a) ∈ q.records := by
  obtain ⟨hn, hq⟩ := ite_none_left_eq_some.mp h
  cases hq
  have hmem : ∀ m b, (m, b) ∈ (n, a) :: p.records ↔ m = n ∧ b = a ∨ (m, b) ∈ p.records := by
    intro m b
    rw [mem_cons, Prod.mk.injEq]
  refine ⟨⟨nodup_cons.mpr ⟨hn, hp.nodup⟩, ?_, ?_, ?_⟩, ⟨?_, ?_, Nat.le_refl _⟩, ?_⟩
  · intro m m' b hm hm'
    rcases (hmem m b).mp hm with ⟨rfl, rfl⟩ | hold
    · rcases (hmem m' b).mp hm' with ⟨rfl, -⟩ | hold'
      · rfl
      · exact absurd hold' (ha.unowned m')
    · rcases (hmem m' b).mp hm' with ⟨rfl, rfl⟩ | hold'
      · exact absurd hold (ha.unowned m)
      · exact hp.unique m m' b hold hold'
  · intro m b hm
    rcases (hmem m b).mp hm with ⟨rfl, rfl⟩ | hm
    · exact ha.unfree
    · exact hp.apart m b hm
  · rintro b (hf | ⟨m, hm⟩)
    · exact hp.drawn b (.inl hf)
    · rcases (hmem m b).mp hm with ⟨rfl, rfl⟩ | hm
      · exact ha.drawn
      · exact hp.drawn b (.inr ⟨m, hm⟩)
  · intro m b hb
    rw [hmem]
    exact or_iff_right fun hmb => hb hmb.2
  · exact fun _ _ => Iff.rfl
  · exact mem_cons_self

theorem releaseArenaID (hp : p.Valid) (h : p.releaseArenaID n a = some q) :
    q.Valid ∧ q.AgreesOff a p := by
  obtain ⟨hn, rfl⟩ := ite_some_none_eq_some.mp h
  have hmem : ∀ m b, (m, b) ∈ p.records.filter (· ≠ (n, a)) ↔
      (m, b) ∈ p.records ∧ ¬(m = n ∧ b = a) := by
    intro m b
    rw [mem_filter, decide_eq_true_eq, Ne, Prod.mk.injEq]
  refine ⟨⟨hp.nodup.filter _, ?_, ?_, ?_⟩, ⟨?_, ?_, Nat.le_refl _⟩⟩
  · intro m m' b hm hm'
    exact hp.unique m m' b ((hmem m b).mp hm).1 ((hmem m' b).mp hm').1
  · intro m b hm hb
    obtain ⟨hold, hne⟩ := (hmem m b).mp hm
    rcases mem_free_release.mp hb with rfl | hb
    · exact hne ⟨hp.unique m n b hold hn, rfl⟩
    · exact hp.apart m b hold hb
  · rintro b (hb | ⟨m, hm⟩)
    · rcases mem_free_release.mp hb with rfl | hb
      · exact hp.drawn b (.inr ⟨n, hn⟩)
      · exact hp.drawn b (.inl hb)
    · exact hp.drawn b (.inr ⟨m, ((hmem m b).mp hm).1⟩)
  · intro m b hb
    rw [hmem]
    exact and_iff_left fun hmb => hb hmb.2
  · intro b hb
    rw [mem_free_release]
    exact or_iff_right hb

end Valid

end Pool

namespace Pool

variable {p q : Pool} {stock stock' : Handler → List Claim} {a : ArenaID} {c : Claim}

theorem AgreesOff.backs (h : q.AgreesOff a p) (hc : c.2 ≠ a) (hb : p.Backs c) : q.Backs c := by
  obtain ⟨n | n, b⟩ := c
  · refine ⟨fun n hn => hb.unowned n ((h.records n b hc).mp hn), fun hf => ?_, ?_⟩
    · exact hb.unfree ((h.free b hc).mp hf)
    · exact hb.drawn.trans_le h.counter
  · exact (h.records n b hc).mpr hb

theorem Valid.of_backs (hp : p.Valid) (hb : p.Backs c) : c.2 ∉ p.free ∧ c.2 < p.counter.getD 0 := by
  obtain ⟨n | n, b⟩ := c
  · exact ⟨hb.unfree, hb.drawn⟩
  · exact ⟨hp.apart n b hb, hp.drawn b (.inr ⟨n, hb⟩)⟩

namespace Stocked

theorem mono (hs : p.Stocked stock) (hle : ∀ h, (stock' h).Sublist (stock h)) :
    p.Stocked stock' where
  pool := hs.pool
  backed h c hc := hs.backed h c ((hle h).subset hc)
  unique h h' c hc c' hc' := hs.unique h h' c ((hle h).subset hc) c' ((hle h').subset hc')
  nodup h := ((hle h).map Prod.snd).nodup (hs.nodup h)

variable {h : Handler} {cs : List Claim}

/-- One handler's claims are replaced. The arenas of `A` are in nobody else's hand. -/
theorem replace (hs : p.Stocked stock) (A : ArenaID → Prop) (hq : q.Valid)
    (hoff : ∀ c, ¬ A c.2 → p.Backs c → q.Backs c)
    (hown : ∀ g, ∀ c ∈ stock g, A c.2 → g = h)
    (hcs : ∀ c ∈ cs, c ∈ stock h ∧ ¬ A c.2 ∨ A c.2 ∧ q.Backs c)
    (hnodup : (cs.map Prod.snd).Nodup) : q.Stocked (Function.update stock h cs) := by
  have hcases : ∀ g, ∀ c ∈ Function.update stock h cs g,
      c ∈ stock g ∧ ¬ A c.2 ∨ g = h ∧ A c.2 ∧ q.Backs c := by
    intro g c hc
    by_cases hg : g = h
    · subst hg
      rw [update_self] at hc
      exact (hcs c hc).imp_right fun hnew => ⟨rfl, hnew⟩
    · rw [update_of_ne hg] at hc
      exact .inl ⟨hc, fun hA => hg (hown g c hc hA)⟩
  refine ⟨hq, fun g c hc => ?_, fun g g' c hc c' hc' heq => ?_, fun g => ?_⟩
  · rcases hcases g c hc with ⟨hold, hA⟩ | ⟨-, -, hb⟩
    · exact hoff c hA (hs.backed g c hold)
    · exact hb
  · rcases hcases g c hc with ⟨hold, hA⟩ | ⟨rfl, hA, -⟩ <;>
      rcases hcases g' c' hc' with ⟨hold', hA'⟩ | ⟨rfl, hA', -⟩
    · exact hs.unique g g' c hold c' hold' heq
    · exact absurd (heq ▸ hA') hA
    · exact absurd (heq ▸ hA) hA'
    · rfl
  · by_cases hg : g = h
    · rw [hg, update_self]
      exact hnodup
    · rw [update_of_ne hg]
      exact hs.nodup g

end Stocked

end Pool

namespace ArenaOp

variable {n : NodeID}

theorem claimed_candidates (as : List ArenaID) : claimed n (some (candidates as)) = [] := by
  cases as <;> rfl

theorem claimed_detached (as : List ArenaID) : claimed n (detached as) = as.map (some n, ·) := by
  cases as with
  | nil => rfl
  | cons a rest => exact append_nil _

end ArenaOp

namespace Arenas

variable {s : Arenas} {i : Nat} {n : NodeID} {a : ArenaID} {o : Option ArenaOp} {h : Handler}

theorem keeps_iff : s.Keeps h n a ↔ (some n, a) ∈ s.stock h := by
  cases h with
  | node m =>
    simp only [Keeps, stock, List.mem_map, Prod.mk.injEq, some.injEq]
    constructor
    · rintro ⟨rfl, ha⟩
      exact ⟨a, ha, rfl, rfl⟩
    · rintro ⟨b, hb, rfl, rfl⟩
      exact ⟨rfl, hb⟩
  | op i =>
    simp only [Keeps, stock]
    rcases s.ops i with - | ⟨m, o⟩
    · simp
    · simp [ArenaOp.claims, eq_comm, and_comm]

theorem stock_goto :
    (s.goto i n o).stock = Function.update s.stock (.op i) (ArenaOp.claimed n o) := by
  funext h
  cases h with
  | node m => rfl
  | op j =>
    by_cases hj : j = i
    · subst hj
      cases o <;> simp [stock, goto, ArenaOp.claimed]
    · simp [stock, goto, hj]

theorem stock_listed (as : List ArenaID) :
    ({ s with listed := Function.update s.listed n as } : Arenas).stock =
      Function.update s.stock (.node n) (as.map (some n, ·)) := by
  funext h
  cases h with
  | op j => rfl
  | node m =>
    by_cases hm : m = n
    · subst hm
      simp [stock]
    · simp [stock, hm]

namespace Sound

variable {o' : Option ArenaOp} {q : Pool} {reply : Reply}

theorem keeps (hs : s.Sound) (hk : s.Keeps h n a) : (n, a) ∈ s.pool.records :=
  hs.backed h (some n, a) (keeps_iff.mp hk)

theorem of_listed {p : Pool} (hp : p.Valid) {listed : NodeID → List ArenaID}
    (hl : ∀ n, (listed n).Sublist (p.ofNode n)) : (⟨p, listed, fun _ => none⟩ : Arenas).Sound := by
  have hcases : ∀ h, ∀ c ∈ (⟨p, listed, fun _ => none⟩ : Arenas).stock h,
      ∃ n, h = .node n ∧ c.1 = some n ∧ (n, c.2) ∈ p.records := by
    rintro (n | i) c hc
    · obtain ⟨a, ha, rfl⟩ := List.mem_map.mp hc
      exact ⟨n, rfl, rfl, Pool.mem_ofNode.mp ((hl n).subset ha)⟩
    · cases hc
  refine ⟨hp, fun h c hc => ?_, fun h h' c hc c' hc' heq => ?_, fun h => ?_⟩
  · obtain ⟨n, -, hc, hrec⟩ := hcases h c hc
    obtain ⟨m, a⟩ := c
    cases hc
    exact hrec
  · obtain ⟨n, rfl, -, hn⟩ := hcases h c hc
    obtain ⟨n', rfl, -, hn'⟩ := hcases h' c' hc'
    rw [hp.unique n n' c.2 hn (heq ▸ hn')]
  · cases h with
    | op i => exact nodup_nil
    | node n =>
      rw [stock, List.map_map]
      exact (List.map_id _).symm ▸ (hl n).nodup (hp.ofNode_nodup n)

theorem boot {p : Pool} (hp : p.Valid) : (Arenas.boot p).Sound :=
  of_listed hp fun n => Sublist.refl (p.ofNode n)

theorem goto_idle (hs : s.Sound) (ho : ArenaOp.claimed n o' = []) : (s.goto i n o').Sound := by
  rw [Sound, stock_goto, ho]
  refine Pool.Stocked.mono hs fun h => ?_
  by_cases hh : h = .op i
  · simp [hh]
  · simp [hh]

theorem goto (hs : s.Sound) (hq : q.Valid) (hoff : q.AgreesOff a s.pool)
    (hown : ∀ h, ∀ c ∈ s.stock h, c.2 = a → h = .op i)
    (ho : ∀ c ∈ ArenaOp.claimed n o', c ∈ s.stock (.op i) ∧ c.2 ≠ a ∨ c.2 = a ∧ q.Backs c)
    (hnodup : ((ArenaOp.claimed n o').map Prod.snd).Nodup) :
    ({ s with pool := q }.goto i n o').Sound := by
  rw [Sound, stock_goto]
  exact Pool.Stocked.replace hs (· = a) hq (fun _ => hoff.backs) hown ho hnodup

theorem goto_empty (hs : s.Sound) (hq : q.Valid) (hoff : q.AgreesOff a s.pool)
    (hown : ∀ h, ∀ c ∈ s.stock h, c.2 = a → h = .op i) (ho : ArenaOp.claimed n o' = []) :
    ({ s with pool := q }.goto i n o').Sound := by
  refine hs.goto hq hoff hown ?_ ?_ <;> rw [ho]
  · exact fun c hc => nomatch hc
  · exact nodup_nil

theorem goto_one {c : Claim} (hs : s.Sound) (hq : q.Valid) (hoff : q.AgreesOff c.2 s.pool)
    (hown : ∀ h, ∀ c' ∈ s.stock h, c'.2 = c.2 → h = .op i) (ho : ArenaOp.claimed n o' = [c])
    (hc : q.Backs c) : ({ s with pool := q }.goto i n o').Sound := by
  refine hs.goto hq hoff hown ?_ ?_ <;> rw [ho]
  · rintro c' hc'
    obtain rfl := mem_singleton.mp hc'
    exact .inr ⟨rfl, hc⟩
  · exact nodup_singleton _

theorem attach (hs : s.Sound) (hrec : (n, a) ∈ s.pool.records)
    (hidle : ∀ h, ∀ c ∈ s.stock h, c.2 ≠ a) : (s.attach n a).Sound := by
  rw [Sound, Arenas.attach, stock_listed, map_append]
  refine Pool.Stocked.replace hs (· = a) hs.pool (fun _ _ => id)
    (fun h c hc ha => absurd ha (hidle h c hc)) (fun c hc => ?_) ?_
  · rcases mem_append.mp hc with hc | hc
    · exact .inl ⟨hc, hidle (.node n) c hc⟩
    · obtain rfl := mem_singleton.mp hc
      exact .inr ⟨rfl, hrec⟩
  · rw [map_append, nodup_append_comm]
    refine nodup_cons.mpr ⟨fun ha => ?_, hs.nodup (.node n)⟩
    obtain ⟨c, hc, rfl⟩ := List.mem_map.mp ha
    exact hidle (.node n) c hc rfl

/-- An arena that an operation had in hand alone is in nobody's hand after it. -/
theorem idle_goto (hown : ∀ h, ∀ c ∈ s.stock h, c.2 = a → h = .op i)
    (ho : ∀ c ∈ ArenaOp.claimed n o', c.2 ≠ a) (h : Handler) :
    ∀ c ∈ (s.goto i n o').stock h, c.2 ≠ a := by
  intro c hc
  rw [stock_goto] at hc
  by_cases hh : h = .op i
  · rw [hh, update_self] at hc
    exact ho c hc
  · rw [update_of_ne hh] at hc
    exact fun ha => hh (hown h c hc ha)

theorem idle_end (hown : ∀ h, ∀ c ∈ s.stock h, c.2 = a → h = .op i) (h : Handler) :
    ∀ c ∈ (s.goto i n none).stock h, c.2 ≠ a :=
  idle_goto hown (fun _ => (absurd · not_mem_nil)) h

theorem own_of_claims {o : ArenaOp} (hs : s.Sound) (hi : s.ops i = some (n, o)) {c : Claim}
    (hc : c ∈ o.claims n) : c ∈ s.stock (.op i) ∧
      ∀ h, ∀ c' ∈ s.stock h, c'.2 = c.2 → h = .op i := by
  have hmem : c ∈ s.stock (.op i) := by
    simp only [stock, hi]
    exact hc
  exact ⟨hmem, fun h c' hc' heq => hs.unique h (.op i) c' hc' c hmem heq⟩

theorem call_claiming {rest : List ArenaID} (hs : s.Sound) (unfenced : Bool) :
    (s.call i n unfenced reply (.claiming a rest)).Sound := by
  simp only [Arenas.call]
  rcases reply.deliver_eq (s.pool.claimFreeArena a) s.pool with h | h | ⟨q, hq, hout⟩
  · rw [h]
    exact hs.goto_idle (ArenaOp.claimed_candidates rest)
  · rw [h]
    exact hs.goto_idle rfl
  · obtain ⟨hvalid, hoff, hdrawn⟩ := hs.pool.claimFreeArena hq
    have hfree : a ∈ s.pool.free := (ite_none_right_eq_some.mp hq).1
    have hown : ∀ h, ∀ c ∈ s.stock h, c.2 = a → h = .op i := by
      rintro h c hc rfl
      exact absurd hfree (hs.pool.of_backs (hs.backed h c hc)).1
    rcases hout with ⟨-, h⟩ | ⟨-, h⟩ <;> rw [h]
    · exact hs.goto_one (c := (none, a)) hvalid hoff hown rfl hdrawn
    · exact hs.goto_empty hvalid hoff hown rfl

theorem call_reserving {stored : Option Nat} (hs : s.Sound) (unfenced : Bool) :
    (s.call i n unfenced reply (.reserving stored)).Sound := by
  simp only [Arenas.call]
  rcases reply.deliver_eq (if unfenced then s.pool.reserveCounter stored else none) s.pool with
    h | h | ⟨q, hq, hout⟩
  · rw [h]
    exact hs.goto_idle (by split <;> rfl)
  · rw [h]
    exact hs.goto_idle rfl
  · obtain ⟨-, hq⟩ := ite_none_right_eq_some.mp hq
    obtain ⟨hvalid, hoff, hdrawn⟩ := hs.pool.reserveCounter hq
    have hcounter : s.pool.counter = stored := (ite_none_right_eq_some.mp hq).1
    have hown : ∀ h, ∀ c ∈ s.stock h, c.2 = stored.getD 0 → h = .op i := by
      intro h c hc heq
      have hlt := (hs.pool.of_backs (hs.backed h c hc)).2
      rw [hcounter, heq] at hlt
      exact absurd hlt (Nat.lt_irrefl _)
    rcases hout with ⟨-, h⟩ | ⟨-, h⟩ <;> rw [h]
    · exact hs.goto_one (c := (none, stored.getD 0)) hvalid hoff hown rfl hdrawn
    · exact hs.goto_empty hvalid hoff hown rfl

theorem call_recording {reused : Bool} (hs : s.Sound)
    (hi : s.ops i = some (n, .recording a reused)) (unfenced : Bool) :
    (s.call i n unfenced reply (.recording a reused)).Sound := by
  obtain ⟨hmem, hown⟩ := hs.own_of_claims hi (c := (none, a)) mem_cons_self
  simp only [Arenas.call]
  rcases reply.deliver_eq (if unfenced then s.pool.recordOwnership n a else none) s.pool with
    h | h | ⟨q, hq, hout⟩
  · rw [h]
    exact hs.goto_idle rfl
  · rw [h]
    exact hs.goto_idle rfl
  · obtain ⟨-, hq⟩ := ite_none_right_eq_some.mp hq
    obtain ⟨hvalid, hoff, hrec⟩ := hs.pool.recordOwnership (hs.backed _ _ hmem) hq
    have hdrop : ({ s with pool := q }.goto i n none).Sound := hs.goto_empty hvalid hoff hown rfl
    rcases hout with ⟨-, h⟩ | ⟨-, h⟩ <;> rw [h]
    · cases reused with
      | true => exact hs.goto_one (c := (some n, a)) hvalid hoff hown rfl hrec
      | false => exact hdrop.attach hrec (idle_end (s := { s with pool := q }) hown)
    · exact hdrop

theorem call_marking (hs : s.Sound) (hi : s.ops i = some (n, .marking a)) (unfenced : Bool) :
    (s.call i n unfenced reply (.marking a)).Sound := by
  obtain ⟨hmem, hown⟩ := hs.own_of_claims hi (c := (some n, a)) mem_cons_self
  have hdrop : (s.goto i n none).Sound := hs.goto_idle rfl
  simp only [Arenas.call]
  split
  · exact hdrop.attach (hs.backed _ _ hmem) (idle_end hown)
  · exact hdrop

theorem call_releasing {rest : List ArenaID} (hs : s.Sound)
    (hi : s.ops i = some (n, .releasing a rest)) (unfenced : Bool)
    (hheard : reply = .lost → (n, a) ∉ s.pool.records) :
    (s.call i n unfenced reply (.releasing a rest)).Sound := by
  obtain ⟨hmem, hown⟩ := hs.own_of_claims hi (c := (some n, a)) mem_cons_self
  have hrec : (n, a) ∈ s.pool.records := hs.backed _ _ hmem
  have hstock : s.stock (.op i) = (a :: rest).map (some n, ·) := by
    simp [stock, hi, ArenaOp.claims, ArenaOp.keeps, ArenaOp.draws]
  have hnodup := hs.nodup (.op i)
  rw [hstock, List.map_map] at hnodup
  obtain ⟨harest, hnodup⟩ := nodup_cons.mp hnodup
  have hrest : ∀ c ∈ ArenaOp.claimed n (ArenaOp.detached rest), c ∈ s.stock (.op i) ∧ c.2 ≠ a := by
    rw [ArenaOp.claimed_detached, hstock]
    rintro c hc
    refine ⟨mem_cons_of_mem _ hc, ?_⟩
    rintro rfl
    obtain ⟨b, hb, rfl⟩ := List.mem_map.mp hc
    exact harest (List.mem_map.mpr ⟨b, hb, rfl⟩)
  have hnext : ∀ {q : Pool}, q.Valid → q.AgreesOff a s.pool →
      ({ s with pool := q }.goto i n (ArenaOp.detached rest)).Sound := fun hq hoff =>
    hs.goto hq hoff hown (fun c hc => .inl (hrest c hc)) (by
      rw [ArenaOp.claimed_detached, List.map_map]
      exact hnodup)
  simp only [Arenas.call]
  rcases reply.deliver_eq (s.pool.releaseArenaID n a) s.pool with h | h | ⟨q, hq, hout⟩
  · rw [h]
    exact (hnext hs.pool (.refl a _)).attach hrec (idle_goto hown fun c hc => (hrest c hc).2)
  · rw [h]
    have hdrop : (s.goto i n none).Sound := hs.goto_idle rfl
    exact hdrop.attach hrec (idle_end hown)
  · obtain ⟨hvalid, hoff⟩ := hs.pool.releaseArenaID hq
    rcases hout with ⟨-, h⟩ | ⟨hlost, -⟩
    · rw [h]
      exact hnext hvalid hoff
    · exact absurd hrec (hheard hlost)

theorem call (hs : s.Sound) {o : ArenaOp} (hi : s.ops i = some (n, o)) (unfenced : Bool)
    (hheard : ∀ a rest, o = .releasing a rest → reply = .lost → (n, a) ∉ s.pool.records) :
    (s.call i n unfenced reply o).Sound := by
  cases o with
  | listing =>
    refine hs.goto_idle ?_
    split
    · exact ArenaOp.claimed_candidates _
    · rfl
  | claiming a rest => exact hs.call_claiming unfenced
  | reading => exact hs.goto_idle (by split <;> rfl)
  | reserving stored => exact hs.call_reserving unfenced
  | recording a reused => exact hs.call_recording hi unfenced
  | marking a => exact hs.call_marking hi unfenced
  | releasing a rest => exact hs.call_releasing hi unfenced (hheard a rest rfl)

theorem detach (hs : s.Sound) (isEmpty : ArenaID → Bool) : (s.detach i n isEmpty).Sound := by
  rw [Sound, Arenas.detach, stock_goto, ArenaOp.claimed_detached, stock_listed]
  -- First the node forgets the empty arenas, which then are in nobody's hand.
  have hkept : s.pool.Stocked
      (Function.update s.stock (.node n) (((s.listed n).filter (!isEmpty ·)).map (some n, ·))) := by
    refine Pool.Stocked.mono hs fun h => ?_
    by_cases hh : h = .node n
    · subst hh
      rw [update_self]
      exact (filter_sublist ..).map _
    · rw [update_of_ne hh]
  refine hkept.replace (· ∈ (s.listed n).filter isEmpty) hs.pool (fun _ _ => id)
    (fun g c hc ha => ?_) (fun c hc => ?_) ?_
  · exfalso
    obtain ⟨ha, hempty⟩ := mem_filter.mp ha
    by_cases hg : g = .node n
    · rw [hg, update_self] at hc
      obtain ⟨b, hb, rfl⟩ := List.mem_map.mp hc
      simp only [mem_filter, hempty] at hb
      exact absurd hb.2 Bool.false_ne_true
    · rw [update_of_ne hg] at hc
      exact hg (hs.unique g (.node n) c hc _ (List.mem_map.mpr ⟨c.2, ha, rfl⟩) rfl)
  · obtain ⟨b, hb, rfl⟩ := List.mem_map.mp hc
    exact .inr ⟨hb, hs.backed (.node n) _ (List.mem_map.mpr ⟨b, mem_of_mem_filter hb, rfl⟩)⟩
  · have hnodup := hs.nodup (.node n)
    rw [stock, List.map_map] at hnodup
    rw [List.map_map]
    exact ((filter_sublist ..).map _).nodup hnodup

theorem drop (hs : s.Sound) (n : NodeID) : (s.drop n).Sound := by
  refine Pool.Stocked.mono hs fun h => ?_
  cases h with
  | node m =>
    by_cases hm : m = n
    · simp [stock, Arenas.drop, hm]
    · simp [stock, Arenas.drop, hm]
  | op i =>
    simp only [stock, Arenas.drop]
    rcases s.ops i with - | x
    · exact Sublist.refl _
    · by_cases hx : x.1 = n <;> simp [Option.filter, hx]

theorem unclaimed (hs : s.Sound) (hrec : (n, a) ∈ s.pool.records) (hidle : ∀ h, ¬s.Keeps h n a)
    (h : Handler) : ∀ c ∈ s.stock h, c.2 ≠ a := by
  rintro ⟨m | m, b⟩ hc rfl
  · exact (hs.backed h _ hc).unowned n hrec
  · obtain rfl := hs.pool.unique m n b (hs.backed h _ hc) hrec
    exact hidle h (keeps_iff.mpr hc)

theorem adopt (hs : s.Sound) (hidle : ∀ h b, ¬s.Keeps h n b)
    (hown : ∀ r ∈ s.pool.records, ¬ n.toList ++ ['/'] <+: r.1.toList) : (s.adopt n).Sound := by
  rw [Sound, Arenas.adopt, stock_listed, Pool.scanned_eq_ofNode hown]
  refine Pool.Stocked.replace hs (fun a => (n, a) ∈ s.pool.records) hs.pool (fun _ _ => id)
    (fun g c hc ha => ?_) (fun c hc => ?_) ?_
  · exact absurd rfl (hs.unclaimed ha (hidle · c.2) g c hc)
  · obtain ⟨b, hb, rfl⟩ := List.mem_map.mp hc
    exact .inr ⟨Pool.mem_ofNode.mp hb, Pool.mem_ofNode.mp hb⟩
  · rw [List.map_map]
    exact (List.map_id _).symm ▸ hs.pool.ofNode_nodup n

theorem release (hs : s.Sound) (hidle : ∀ h, ¬s.Keeps h n a) : (s.release n a).Sound := by
  rw [Sound, Arenas.release]
  cases hq : s.pool.releaseArenaID n a with
  | none => exact hs
  | some q =>
    have hnobody := hs.unclaimed (ite_none_right_eq_some.mp hq).1 hidle
    obtain ⟨hvalid, hoff⟩ := hs.pool.releaseArenaID hq
    exact ⟨hvalid, fun h c hc => hoff.backs (hnobody h c hc) (hs.backed h c hc), hs.unique,
      hs.nodup⟩

end Sound

end Arenas

end EtcFS.Arena
