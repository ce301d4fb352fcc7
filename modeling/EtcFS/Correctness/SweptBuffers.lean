import EtcFS.Ipc.Sweep

/-!
# A sweep against the flushes it stands for

What becomes of an entry depends on the inode's own keys, its lock key and the node's generation,
so a sweep does to it what its own flush would have done.
-/

namespace EtcFS.Correctness

open EtcFS.Core Metadata Arena Ipc List Option Function

/-! ## What a flush depends on -/

def Concerns (i : Nat) (k : Key) : Prop := ∀ j, ofInode j k = true → j = i

def SameFor (i : Nat) (s t : Etcd) : Prop := ∀ k, Concerns i k → t.get k = s.get k

def OwnKeys (i : Nat) (ops : List (Op Val)) : Prop := ∀ op ∈ ops, ofInode i op.key = true

def strip (e : CacheEntry) : CacheEntry :=
  { e with
    cached := e.cached.map fun m =>
      { m with extents := m.extents.map fun x => { x with modRevision := 0 } } }

/-- Two outcomes of a flush, up to revisions. -/
def AgreesFor (i : Nat) (r r' : Etcd × CacheEntry) : Prop :=
  (∀ k, ofInode i k = true →
    (r'.1.get k).map Versioned.value = (r.1.get k).map Versioned.value) ∧ strip r'.2 = strip r.2

section

variable {n : Node} {i j : Nat} {s t : Etcd} {e : CacheEntry} {ops : List (Op Val)} {k : Key}

theorem concerns_of_ofInode (h : ofInode i k = true) : Concerns i k :=
  fun _ hj => eq_of_ofInode h hj

theorem SameFor.refl (i : Nat) (s : Etcd) : SameFor i s s := fun _ _ => rfl

theorem SameFor.trans {u : Etcd} (h : SameFor i s t) (h' : SameFor i t u) : SameFor i s u :=
  fun k hk => (h' k hk).trans (h k hk)

theorem sameFor_commit (hops : ∀ op ∈ ops, ∃ j, j ≠ i ∧ ofInode j op.key = true) :
    SameFor i s (s.commit ops) := by
  intro k hk
  refine Store.get_commit_of_untouched fun op hop heq => ?_
  obtain ⟨j, hji, hj⟩ := hops op hop
  exact hji (hk j (heq ▸ hj))

theorem strip_flushCommitted {f : Extent → Extent}
    (hf : ∀ x, (f x).toExtentValue = x.toExtentValue ∧ (f x).chunk = x.chunk) :
    strip (e.flushCommitted f) = strip (e.flushCommitted id) := by
  have hx : ∀ x, ({ f x with modRevision := 0 } : Extent) = { x with modRevision := 0 } := by
    intro x
    obtain ⟨hvalue, hchunk⟩ := hf x
    generalize f x = y at hvalue hchunk
    cases x
    cases y
    cases hvalue
    cases hchunk
    rfl
  simp only [strip, CacheEntry.flushCommitted, Option.map_map, Function.comp_def, List.map_map, hx,
    id_eq]

def Looks (i : Nat) (cmps : List (Cmp Val)) : Prop :=
  ∀ x ∈ cmps, ∃ k, x.key = some k ∧ Concerns i k

theorem looks_flushTxn {b : Pending} (hown : OwnKeys i b.ops) (mode : LockMode) (holder : Holder) :
    Looks i (b.flushTxn i mode holder).1 := by
  intro x hx
  rcases mem_append.mp hx with hx | hx
  · obtain ⟨op, hop, hfind⟩ := mem_filterMap.mp hx
    have hkey : decide (x.key = some op.key) = true := find?_some
      (p := fun c : Cmp Val => decide (c.key = some op.key)) hfind
    exact ⟨op.key, of_decide_eq_true hkey, concerns_of_ofInode (hown op hop)⟩
  · rw [mem_singleton.mp hx]
    exact ⟨_, rfl, fun j hj => nomatch hj⟩

theorem Looks.holds_congr {cmps : List (Cmp Val)} (h : Looks i cmps) (hsame : SameFor i s t) :
    (∀ x ∈ cmps, t.holds x = true) ↔ ∀ x ∈ cmps, s.holds x = true := by
  refine forall₂_congr fun x hx => ?_
  obtain ⟨k, hk, hc⟩ := h x hx
  rw [Store.holds_congr hk (hsame k hc)]

theorem concerns_gen (node : NodeID) : Concerns i (.gen node) := fun _ hj => nomatch hj

theorem guard_congr (hsame : SameFor i s t) : t.holds n.guard = s.holds n.guard :=
  Store.holds_congr rfl (hsame _ (concerns_gen _))

theorem guard_fails_of_fenced (h : n.fenced s = true) : s.holds n.guard = false := by
  refine Bool.eq_false_iff.mpr fun hholds => ?_
  have hgen : (s.get (.gen n.id)).map Versioned.value = some n.gen := beq_iff_eq.mp hholds
  rw [Node.fenced, hgen, getD_some] at h
  exact bne_iff_ne.mp h rfl

theorem fenced_congr (hsame : SameFor i s t) : n.fenced t = n.fenced s := by
  rw [Node.fenced, Node.fenced, hsame _ (concerns_gen _)]

variable {stored : Bool} {holder : Holder}

theorem txn_congr {cmps : List (Cmp Val)} (hlooks : Looks i cmps) (hsame : SameFor i s t) :
    (t.txn (n.guard :: cmps) ops = some (t.commit ops) ∧
        s.txn (n.guard :: cmps) ops = some (s.commit ops)) ∨
      t.txn (n.guard :: cmps) ops = none ∧ s.txn (n.guard :: cmps) ops = none := by
  have hiff : (∀ x ∈ n.guard :: cmps, t.holds x = true) ↔
      ∀ x ∈ n.guard :: cmps, s.holds x = true := by
    rw [forall_mem_cons, forall_mem_cons, guard_congr hsame, hlooks.holds_congr hsame]
  by_cases hall : ∀ x ∈ n.guard :: cmps, s.holds x = true
  · exact .inl ⟨Store.txn_of_holds _ (hiff.mpr hall), Store.txn_of_holds _ hall⟩
  · refine .inr ⟨?_, ?_⟩ <;> refine eq_none_iff_forall_ne_some.mpr fun u hu => hall ?_
    · exact hiff.mp (Store.txn_eq_some_iff.mp hu).1
    · exact (Store.txn_eq_some_iff.mp hu).1

/-- The outcome of a flush is decided by what concerns the inode. -/
theorem flushLocked_congr (hown : OwnKeys i e.pending.ops) (hsame : SameFor i s t) :
    AgreesFor i (flushLocked n i stored s e) (flushLocked n i stored t e) := by
  have hget : ∀ k, ofInode i k = true → t.get k = s.get k :=
    fun k hk => hsame k (concerns_of_ofInode hk)
  rcases flushable_or e stored with ⟨holder, h⟩ | ⟨e', hidle⟩
  · have hlist : getExtents t i = getExtents s i :=
      getExtents_congr fun chunk => hget _ (beq_self_eq_true i)
    rw [h.flushLocked, h.flushLocked]
    rcases txn_congr (looks_flushTxn hown e.mode holder) hsame with ⟨ht, hs⟩ | ⟨ht, hs⟩
    · rw [ht, hs]
      refine ⟨fun k hk => ?_, ?_⟩
      · rw [Store.commit_value, Store.commit_value, hget k hk]
      · rw [strip_flushCommitted (refresh_eq _ _ _), strip_flushCommitted (refresh_eq _ _ _)]
    · rw [ht, hs, fenced_congr hsame]
      refine ⟨fun k hk => by rw [hget k hk], ?_⟩
      have hlock : t.get (.lock i (e.setData []).mode holder) =
          s.get (.lock i (e.setData []).mode holder) := hsame _ fun j hj => nomatch hj
      rw [CacheEntry.flushRejected, CacheEntry.flushRejected, hlist, hlock]
  · rw [hidle.flushLocked, hidle.flushLocked]
    exact ⟨fun k hk => by rw [hget k hk], rfl⟩

theorem flushLocked_sameFor (hown : OwnKeys j e.pending.ops) (hij : j ≠ i) :
    SameFor i s (flushLocked n j stored s e).1 := by
  rcases flushable_or e stored with ⟨holder, h⟩ | ⟨e', hidle⟩
  · rw [h.flushLocked]
    split
    · next u hu =>
      rw [(Store.txn_eq_some_iff.mp hu).2]
      exact sameFor_commit fun op hop => ⟨j, hij, hown op hop⟩
    · exact SameFor.refl i s
  · rw [hidle.flushLocked]
    exact SameFor.refl i s

end

/-! ## A sweep -/

section

variable {n : Node} {stored : Nat → Bool} {st₀ st st' : SweepState} {i j : Nat} {inos : List Nat}
  {b : FlushBatch}

/-- What a flush of the inode alone would have given at first. -/
def ownFlush (n : Node) (stored : Nat → Bool) (st₀ : SweepState) (i : Nat) : Etcd × CacheEntry :=
  flushLocked n i (stored i) st₀.etcd (st₀.entry i)

def Done (n : Node) (stored : Nat → Bool) (st₀ st : SweepState) (i : Nat) : Prop :=
  AgreesFor i (ownFlush n stored st₀ i) (st.etcd, st.entry i)

structure Unmoved (i : Nat) (st st' : SweepState) : Prop where
  same : SameFor i st.etcd st'.etcd
  entry : st'.entry i = st.entry i

structure Riding (stored : Nat → Bool) (st₀ st : SweepState) (i : Nat) : Prop where
  ready : ∃ holder, Flushable (st₀.entry i) (stored i) holder
  same : SameFor i st₀.etcd st.etcd
  entry : st.entry i = (st₀.entry i).setData []

def contribution (st₀ : SweepState) (i : Nat) : List (Cmp Val) × List (Op Val) :=
  (st₀.entry i).holder.elim ([], []) ((st₀.entry i).pending.flushTxn i (st₀.entry i).mode)

structure Rides (stored : Nat → Bool) (st₀ st : SweepState) (b : FlushBatch) : Prop where
  nodup : (b.entries.map FlushEntry.ino).Nodup
  riding : ∀ i ∈ b.entries.map FlushEntry.ino, Riding stored st₀ st i
  cmps : b.cmps = (b.entries.map FlushEntry.ino).flatMap fun i => (contribution st₀ i).1
  ops : b.ops = (b.entries.map FlushEntry.ino).flatMap fun i => (contribution st₀ i).2

theorem Unmoved.trans {st'' : SweepState} (h : Unmoved i st st') (h' : Unmoved i st' st'') :
    Unmoved i st st'' := ⟨h.same.trans h'.same, h'.entry.trans h.entry⟩

theorem unmoved_setEntry (hij : i ≠ j) (e : CacheEntry) : Unmoved i st (st.setEntry j e) :=
  ⟨SameFor.refl i st.etcd, update_of_ne hij ..⟩

theorem Done.unmoved (h : Done n stored st₀ st i) (hk : Unmoved i st st') :
    Done n stored st₀ st' i := by
  refine ⟨fun k hk' => ?_, ?_⟩
  · rw [← h.1 k hk', hk.same k (concerns_of_ofInode hk')]
  · rw [← h.2, hk.entry]

theorem Riding.unmoved (h : Riding stored st₀ st i) (hk : Unmoved i st st') :
    Riding stored st₀ st' i :=
  ⟨h.ready, h.same.trans hk.same, hk.entry.trans h.entry⟩

theorem Rides.unmoved (h : Rides stored st₀ st b)
    (hk : ∀ i ∈ b.entries.map FlushEntry.ino, Unmoved i st st') : Rides stored st₀ st' b :=
  ⟨h.nodup, fun i hi => (h.riding i hi).unmoved (hk i hi), h.cmps, h.ops⟩

theorem contribution_eq {holder : Holder} (h : Flushable (st₀.entry i) (stored i) holder) :
    contribution st₀ i = (st₀.entry i).pending.flushTxn i (st₀.entry i).mode holder := by
  rw [contribution, h.held, elim_some]

/-- The inodes listed come out as flushes of them alone would have left them at first, and
no other inode is touched. -/
structure Resolves (n : Node) (stored : Nat → Bool) (st₀ st st' : SweepState) (inos : List Nat) :
    Prop where
  done : ∀ i ∈ inos, Done n stored st₀ st' i
  others : ∀ i, i ∉ inos → Unmoved i st st'

theorem Resolves.nothing (st : SweepState) : Resolves n stored st₀ st st [] :=
  ⟨fun _ hi => (nomatch hi), fun i _ => ⟨SameFor.refl i st.etcd, rfl⟩⟩

theorem Resolves.of_unmoved {st'' : SweepState} (hk : ∀ i, i ∉ inos → Unmoved i st st')
    (h : Resolves n stored st₀ st' st'' inos) : Resolves n stored st₀ st st'' inos :=
  ⟨h.done, fun i hi => (hk i hi).trans (h.others i hi)⟩

theorem Resolves.trans {st'' : SweepState} {inos' : List Nat}
    (h : Resolves n stored st₀ st st' inos) (h' : Resolves n stored st₀ st' st'' inos')
    (hdisjoint : inos.Disjoint inos') : Resolves n stored st₀ st st'' (inos ++ inos') := by
  refine ⟨fun i hi => ?_, fun i hi => ?_⟩
  · rcases mem_append.mp hi with hi | hi
    · exact (h.done i hi).unmoved (h'.others i (hdisjoint hi))
    · exact h'.done i hi
  · rw [mem_append, not_or] at hi
    exact (h.others i hi.1).trans (h'.others i hi.2)

theorem Resolves.perm {inos' : List Nat} (h : Resolves n stored st₀ st st' inos)
    (hperm : inos.Perm inos') : Resolves n stored st₀ st st' inos' :=
  ⟨fun i hi => h.done i (hperm.mem_iff.mpr hi), fun i hi => h.others i (hperm.mem_iff.not.mpr hi)⟩

section

variable (hown : ∀ i, OwnKeys i (st₀.entry i).pending.ops)
include hown

theorem ownKeys_contribution (i : Nat) : OwnKeys i (contribution st₀ i).2 := by
  unfold contribution
  cases (st₀.entry i).holder with
  | none => exact fun op hop => nomatch hop
  | some holder => exact hown i

theorem flushAlone_done (h : Riding stored st₀ st i) :
    Done n stored st₀ (st.flushAlone n stored i) i := by
  obtain ⟨holder, hready⟩ := h.ready
  have hstored : flushLocked n i (stored i) st.etcd (st.entry i) =
      flushLocked n i (stored i) st.etcd (st₀.entry i) := by
    rw [h.entry, hready.flushLocked_setData]
  have hentry : (st.flushAlone n stored i).entry i =
      (flushLocked n i (stored i) st.etcd (st.entry i)).2 := update_self ..
  rw [Done, hentry]
  change AgreesFor i _ (flushLocked n i (stored i) st.etcd (st.entry i))
  rw [hstored]
  exact flushLocked_congr (hown i) h.same

theorem flushAlone_unmoved (h : Riding stored st₀ st j) (hij : i ≠ j) :
    Unmoved i st (st.flushAlone n stored j) := by
  refine ⟨?_, update_of_ne hij ..⟩
  have hkeys : OwnKeys j (st.entry j).pending.ops := by
    rw [h.entry]
    exact hown j
  exact flushLocked_sameFor hkeys hij.symm

theorem foldl_flushAlone (hnodup : inos.Nodup) (h : ∀ i ∈ inos, Riding stored st₀ st i) :
    Resolves n stored st₀ st (inos.foldl (SweepState.flushAlone n stored) st) inos := by
  induction inos generalizing st with
  | nil => exact Resolves.nothing st
  | cons j inos ih =>
    obtain ⟨hj, hnodup⟩ := nodup_cons.mp hnodup
    have hride := h j mem_cons_self
    have hunmoved : ∀ i, i ≠ j → Unmoved i st (st.flushAlone n stored j) :=
      fun i hi => flushAlone_unmoved hown hride hi
    have hfirst : Resolves n stored st₀ st (st.flushAlone n stored j) [j] := by
      refine ⟨fun i hi => ?_, fun i hi => hunmoved i fun heq => hi (mem_singleton.mpr heq)⟩
      rw [mem_singleton.mp hi]
      exact flushAlone_done hown hride
    refine hfirst.trans (ih hnodup fun i hi => ?_) (singleton_disjoint.mpr hj)
    exact (h i (mem_cons_of_mem _ hi)).unmoved (hunmoved i fun heq => hj (heq ▸ hi))

theorem effect_contributions (hnodup : inos.Nodup) (hi : i ∈ inos) {k : Key}
    (hk : ofInode i k = true) :
    effect k (inos.flatMap fun i => (contribution st₀ i).2) = effect k (contribution st₀ i).2 := by
  have hother : ∀ {j}, j ≠ i → effect k (contribution st₀ j).2 = none := by
    intro j hj
    refine effect_eq_none_iff.mpr fun op hop heq => hj ?_
    exact eq_of_ofInode hk (heq ▸ ownKeys_contribution hown j op hop)
  induction inos with
  | nil => cases hi
  | cons j inos ih =>
    obtain ⟨hj, hnodup⟩ := nodup_cons.mp hnodup
    rw [flatMap_cons, effect_append]
    rcases mem_cons.mp hi with rfl | hi
    · have hrest : effect k (inos.flatMap fun i => (contribution st₀ i).2) = none := by
        refine effect_eq_none_iff.mpr fun op hop heq => ?_
        obtain ⟨x, hx, hop⟩ := mem_flatMap.mp hop
        exact effect_eq_none_iff.mp (hother fun hxi => hj (hxi ▸ hx)) op hop heq
      rw [hrest, none_or]
    · rw [ih hnodup hi, hother fun (heq : j = i) => hj (heq ▸ hi), or_none]

variable {holder : Holder}

theorem ownFlush_committed (h : Flushable (st₀.entry i) (stored i) holder)
    (hsame : SameFor i st₀.etcd st.etcd) (hguard : st.etcd.holds n.guard = true)
    (hcmps : ∀ x ∈ (contribution st₀ i).1, st.etcd.holds x = true) :
    ownFlush n stored st₀ i = (st₀.etcd.commit (st₀.entry i).pending.ops,
      ((st₀.entry i).setData []).flushCommitted (FileState.refresh (st₀.entry i).pending.ops i
        (st₀.etcd.commit (st₀.entry i).pending.ops).revision)) := by
  rw [contribution_eq h] at hcmps
  have hnow := Store.txn_of_holds (st₀.entry i).pending.ops (forall_mem_cons.mpr ⟨hguard, hcmps⟩)
  rcases txn_congr (n := n) (looks_flushTxn (hown i) (st₀.entry i).mode holder) hsame
    with ⟨-, hthen⟩ | ⟨hnone, -⟩
  · rw [ownFlush, h.flushLocked, hthen]
  · rw [hnow] at hnone
    cases hnone

omit hown in
theorem ownFlush_fenced (h : Flushable (st₀.entry i) (stored i) holder)
    (hsame : SameFor i st₀.etcd st.etcd) (hfenced : n.fenced st.etcd = true) :
    ownFlush n stored st₀ i = (st₀.etcd, ((st₀.entry i).setData []).discardPending) := by
  rw [fenced_congr hsame] at hfenced
  have hnone : st₀.etcd.txn
      (n.guard :: ((st₀.entry i).pending.flushTxn i (st₀.entry i).mode holder).1)
      (st₀.entry i).pending.ops = none := by
    refine eq_none_iff_forall_ne_some.mpr fun u hu => ?_
    have hguard := (Store.txn_eq_some_iff.mp hu).1 _ mem_cons_self
    rw [guard_fails_of_fenced hfenced] at hguard
    cases hguard
  rw [ownFlush, h.flushLocked, hnone, if_pos hfenced]

/-- A batch settles its members as their own flushes would, and touches nobody else. -/
theorem commitFlushBatch_resolves (h : Rides stored st₀ st b) :
    Resolves n stored st₀ st (st.commitFlushBatch n stored b) (b.entries.map FlushEntry.ino) := by
  unfold SweepState.commitFlushBatch
  split
  case isTrue hempty =>
    rw [isEmpty_iff.mp hempty]
    exact Resolves.nothing st
  simp only [commitAnswered_eq]
  obtain ⟨hnodup, hriding, hcmps, hops⟩ := h
  generalize b.entries.map FlushEntry.ino = inos at *
  cases htxn : st.etcd.txn (n.guard :: b.cmps) b.ops with
  | some s =>
    obtain ⟨hholds, rfl⟩ := Store.txn_eq_some_iff.mp htxn
    obtain ⟨hguard, hholds⟩ := forall_mem_cons.mp hholds
    obtain ⟨hetcd, hin, hout⟩ := SweepState.mapEntries_spec { st with etcd := st.etcd.commit b.ops }
      hnodup fun i e => e.flushCommitted (FileState.refresh b.ops i (st.etcd.commit b.ops).revision)
    refine ⟨fun i hi => ?_, fun i hi => ⟨?_, hout i hi⟩⟩
    · obtain ⟨⟨holder, hready⟩, hsame, hentry⟩ := hriding i hi
      have hholding : ∀ x ∈ (contribution st₀ i).1, st.etcd.holds x = true := fun x hx =>
        hholds x (hcmps ▸ mem_flatMap.mpr ⟨i, hi, hx⟩)
      rw [Done, ownFlush_committed hown hready hsame hguard hholding, hetcd, hin i hi]
      refine ⟨fun k hk => ?_, ?_⟩
      · rw [Store.commit_value, Store.commit_value, hops, effect_contributions hown hnodup hi hk,
          contribution_eq hready, hsame k (concerns_of_ofInode hk)]
        rfl
      · rw [strip_flushCommitted (refresh_eq _ _ _), strip_flushCommitted (refresh_eq _ _ _)]
        exact congrArg (fun e => strip (CacheEntry.flushCommitted e id)) hentry
    · rw [hetcd, hops]
      refine sameFor_commit fun op hop => ?_
      obtain ⟨j, hj, hop⟩ := mem_flatMap.mp hop
      exact ⟨j, fun heq => hi (heq ▸ hj), ownKeys_contribution hown j op hop⟩
  | none =>
    cases hfenced : n.fenced st.etcd with
    | false => exact foldl_flushAlone hown hnodup hriding
    | true =>
      obtain ⟨hetcd, hin, hout⟩ := SweepState.mapEntries_spec st hnodup fun _ e => e.discardPending
      refine ⟨fun i hi => ?_, fun i hi => ⟨?_, hout i hi⟩⟩
      · obtain ⟨⟨holder, hready⟩, hsame, hentry⟩ := hriding i hi
        rw [Done, ownFlush_fenced hready hsame hfenced]
        refine ⟨fun k hk => ?_, ?_⟩
        · rw [← hsame k (concerns_of_ofInode hk)]
          exact congrArg (fun s : Etcd => (s.get k).map Versioned.value) hetcd
        · rw [← hentry]
          exact congrArg strip (hin i hi)
      · intro k _
        exact congrArg (fun s : Etcd => s.get k) hetcd

omit hown in
/-- An entry joins with what it proposes. -/
theorem Rides.add (h : Rides stored st₀ st b) (hwait : Unmoved i st₀ st)
    (hready : Flushable (st₀.entry i) (stored i) holder) (hi : i ∉ b.entries.map FlushEntry.ino)
    (member : FlushEntry) (hino : member.ino = i) :
    Rides stored st₀ (st.setEntry i ((st₀.entry i).setData []))
      (b.add member ((st₀.entry i).pending.flushTxn i (st₀.entry i).mode holder)) := by
  have hentries : (b.entries ++ [member]).map FlushEntry.ino =
      b.entries.map FlushEntry.ino ++ [i] := by
    rw [map_append, map_singleton, hino]
  have hothers : Rides stored st₀ (st.setEntry i ((st₀.entry i).setData [])) b :=
    h.unmoved fun j hj => unmoved_setEntry (ne_of_mem_of_not_mem hj hi) _
  constructor
  · rw [FlushBatch.add, hentries]
    refine nodup_append.mpr ⟨h.nodup, nodup_singleton i, fun x hx y hy heq => ?_⟩
    rw [heq, mem_singleton.mp hy] at hx
    exact hi hx
  · rw [FlushBatch.add, hentries]
    intro j hj
    rcases mem_append.mp hj with hj | hj
    · exact hothers.riding j hj
    · rw [mem_singleton.mp hj]
      exact ⟨⟨holder, hready⟩, hwait.same, update_self ..⟩
  · rw [FlushBatch.add, hentries, flatMap_append, flatMap_singleton, contribution_eq hready,
      ← h.cmps]
  · rw [FlushBatch.add, hentries, flatMap_append, flatMap_singleton, contribution_eq hready,
      ← h.ops]

omit hown in
theorem rides_none : Rides stored st₀ st .none :=
  ⟨nodup_nil, fun _ hi => (nomatch hi), rfl, rfl⟩

/-- The rest of a sweep settles the batch it has and the entries it has not come to. -/
theorem flushEntries_resolves (hb : Rides stored st₀ st b)
    (hnodup : (b.entries.map FlushEntry.ino ++ inos).Nodup) (hwait : ∀ i ∈ inos, Unmoved i st₀ st) :
    Resolves n stored st₀ st (st.flushEntries n stored inos b)
      (b.entries.map FlushEntry.ino ++ inos) := by
  -- Over the entries: one that proposes nothing is settled on the spot, one that does joins
  -- the batch, which has been committed first if it was full.
  induction inos generalizing b st with
  | nil =>
    rw [append_nil]
    exact commitFlushBatch_resolves hown hb
  | cons j inos ih =>
    have hj := hwait j mem_cons_self
    obtain ⟨hmiddle, hrest⟩ := nodup_cons.mp (nodup_middle.mp hnodup)
    rw [mem_append, not_or] at hmiddle
    have hothers : ∀ e i, i ≠ j → Unmoved i st (st.setEntry j e) :=
      fun e i hi => unmoved_setEntry hi e
    have hstill : ∀ e, ∀ i ∈ inos, Unmoved i st₀ (st.setEntry j e) := fun e i hi =>
      (hwait i (mem_cons_of_mem _ hi)).trans (hothers e i (ne_of_mem_of_not_mem hi hmiddle.2))
    have hbatch : ∀ e, Rides stored st₀ (st.setEntry j e) b := fun e =>
      hb.unmoved fun i hi => hothers e i (ne_of_mem_of_not_mem hi hmiddle.1)
    rcases flushable_or (st₀.entry j) (stored j) with ⟨holder, hready⟩ | ⟨e, halone⟩
    · rw [SweepState.flushEntries_ready (hj.entry ▸ hready), hj.entry]
      have hmember : (st.member stored j).ino = j := rfl
      generalize st.member stored j = member at hmember
      refine Resolves.of_unmoved (hothers ((st₀.entry j).setData []) · fun heq => · ?_) ?_
      · exact mem_append_right _ (heq ▸ mem_cons_self)
      dsimp only
      split
      · rw [append_cons] at hnodup ⊢
        have hlist : (b.entries ++ [member]).map FlushEntry.ino =
            b.entries.map FlushEntry.ino ++ [j] := by
          rw [map_append, map_singleton, hmember]
        rw [← hlist] at hnodup ⊢
        exact ih (hb.add hj hready hmiddle.1 member hmember) hnodup (hstill _)
      · have hcommit := commitFlushBatch_resolves (n := n) hown (hbatch ((st₀.entry j).setData []))
        have hnone : Rides stored st₀ _ (FlushBatch.none.add member _) :=
          rides_none.add hj hready List.not_mem_nil member hmember
        have hlater : ∀ i ∈ j :: inos, i ∉ b.entries.map FlushEntry.ino :=
          (nodup_append'.mp hnodup).2.2.symm
        have hlist : (FlushBatch.none.entries ++ [member]).map FlushEntry.ino = [j] :=
          congrArg (fun ino => [ino]) hmember
        refine hcommit.trans ?_ (nodup_append'.mp hnodup).2.2
        rw [← singleton_append, ← hlist]
        refine ih (hnone.unmoved fun i hi => hcommit.others i ?_) ?_
          fun i hi => (hstill _ i hi).trans
            (hcommit.others i (hlater i (mem_cons_of_mem _ hi)))
        · rw [FlushBatch.add, hlist] at hi
          rw [mem_singleton.mp hi]
          exact hmiddle.1
        · rw [FlushBatch.add, hlist]
          exact nodup_cons.mpr ⟨hmiddle.2, (nodup_append'.mp hrest).2.1⟩
    · rw [SweepState.flushEntries_unsent (hj.entry ▸ halone)]
      have hdone : Resolves n stored st₀ st (st.setEntry j e) [j] := by
        refine ⟨fun i hi => ?_, fun i hi => hothers e i fun heq => hi (mem_singleton.mpr heq)⟩
        rw [mem_singleton.mp hi, Done, ownFlush, halone.flushLocked]
        refine ⟨fun k hk => ?_, congrArg strip (update_self ..)⟩
        exact congrArg (Option.map Versioned.value) (hj.same k (concerns_of_ofInode hk))
      have hall := hdone.trans (ih (hbatch e) hrest (hstill e))
      rw [singleton_append] at hall
      refine (hall ?_).perm perm_middle.symm
      exact singleton_disjoint.mpr (mem_append.not.mpr (not_or.mpr hmiddle))

end

end

/-! ## What buffers hold -/

theorem ownKeys_proposal (n : Node) (w : WriteReq) (runs : List Run) (rec : InodeRecord)
    (existing : List Extent) : OwnKeys w.ino (proposal n w runs rec existing).ops := by
  intro op hop
  rcases proposal_writes_inode hop with ⟨v, rfl⟩ | ⟨chunk, hchunk⟩
  · exact beq_self_eq_true w.ino
  · rw [hchunk]
    exact beq_self_eq_true w.ino

/-- A buffer that only writes of the inode were folded into has only keys of the inode. -/
theorem ownKeys_foldBuffer {i : Nat} {qs : List (Proposal × Nat)}
    (h : ∀ q ∈ qs, OwnKeys i q.1.ops) : OwnKeys i (foldBuffer qs).ops := by
  intro op hop
  have howned : Owned (foldBuffer qs).ops (some op.key) := ⟨op, hop, rfl⟩
  by_contra hother
  refine not_owned_foldBuffer.mpr (fun q hq => ?_) howned
  rintro ⟨op', hop', hkey⟩
  exact hother (some.inj hkey ▸ h q hq op' hop')

/-- Each inode's keys, buffer, snapshot and freed blocks are after a sweep what a flush of the
inode alone would have made of them. A buffer that could be published alone is published. -/
theorem flushEntries_eq_alone (n : Node) (stored : Nat → Bool) (st : SweepState)
    (hown : ∀ i, OwnKeys i (st.entry i).pending.ops) {inos : List Nat} (hnodup : inos.Nodup) :
    let swept := st.flushEntries n stored inos .none
    (∀ i ∈ inos, AgreesFor i (flushLocked n i (stored i) st.etcd (st.entry i))
        (swept.etcd, swept.entry i)) ∧
      ∀ i ∈ inos, ∀ holder t, Flushable (st.entry i) (stored i) holder →
        st.etcd.txn (n.guard :: ((st.entry i).pending.flushTxn i (st.entry i).mode holder).1)
            (st.entry i).pending.ops = some t →
          (swept.entry i).pending = .none ∧ ∀ k, ofInode i k = true →
            (swept.etcd.get k).map Versioned.value = (t.get k).map Versioned.value := by
  have hnone : Rides stored st st .none := rides_none
  have hresolves := flushEntries_resolves (n := n) hown hnone hnodup
    fun i _ => ⟨SameFor.refl i st.etcd, rfl⟩
  refine ⟨hresolves.done, fun i hi holder t hready htxn => ?_⟩
  obtain ⟨hkeys, hentry⟩ := hresolves.done i hi
  rw [ownFlush, hready.flushLocked, htxn] at hkeys hentry
  exact ⟨congrArg CacheEntry.pending hentry, hkeys⟩

/-! ## A lost key beside a held one -/

def byteProposal (ino block : Nat) : Proposal :=
  proposal soloConfig.node ⟨ino, 0, [1], 0, one_byte_ne, one_byte_bound⟩
    [⟨block * blockSize, blockSize⟩] (regularFile ino) []

def sweptFiles : SweepState where
  etcd := soloFile.etcd.commit [.put (.gen "a") 0]
  entry := fun ino => ⟨.exclusive, some ⟨1, 1⟩, foldBuffer [(byteProposal ino ino, 1)], none, []⟩

theorem ownKeys_sweptFiles (i : Nat) : OwnKeys i (sweptFiles.entry i).pending.ops := by
  refine ownKeys_foldBuffer fun q hq => ?_
  rw [mem_singleton.mp hq, byteProposal]
  exact ownKeys_proposal _ _ _ _ _

theorem flushEntries_eq_alone_sweptFiles :
    let swept := sweptFiles.flushEntries soloConfig.node (fun _ => true) [8, 7] .none
    (swept.etcd.get (.extent 8 0)).isNone = true ∧ (swept.entry 7).pending = .none ∧
      (swept.etcd.get (.extent 7 0)).isSome = true := by
  obtain ⟨hagrees, hpublished⟩ := flushEntries_eq_alone soloConfig.node (fun _ => true) sweptFiles
    ownKeys_sweptFiles (by decide : [8, 7].Nodup)
  obtain ⟨hpending, hkeys⟩ := hpublished 7 (by decide) ⟨1, 1⟩ _ ⟨rfl, rfl, rfl⟩ rfl
  refine ⟨?_, hpending, ?_⟩
  · rw [← isNone_map, (hagrees 8 (by decide)).1 (.extent 8 0) rfl]
    rfl
  · rw [← isSome_map, hkeys (.extent 7 0) rfl]
    rfl

/-- The order in which a sweep comes to the entries, and so how it batches them, is left to the
iteration over a map. It makes no difference to any inode. -/
theorem flushEntries_perm (n : Node) (stored : Nat → Bool) (st : SweepState)
    (hown : ∀ i, OwnKeys i (st.entry i).pending.ops) {inos inos' : List Nat}
    (hnodup : inos.Nodup) (hperm : inos.Perm inos') (i : Nat) :
    let swept := st.flushEntries n stored inos .none
    let swept' := st.flushEntries n stored inos' .none
    AgreesFor i (swept.etcd, swept.entry i) (swept'.etcd, swept'.entry i) := by
  have hresolves : ∀ {inos : List Nat}, inos.Nodup →
      Resolves n stored st st (st.flushEntries n stored inos .none) inos := fun hnodup =>
    flushEntries_resolves (n := n) hown rides_none hnodup
      fun i _ => ⟨SameFor.refl i st.etcd, rfl⟩
  have h := hresolves hnodup
  have h' := hresolves (hperm.nodup_iff.mp hnodup)
  by_cases hi : i ∈ inos
  · obtain ⟨hkeys, hentry⟩ := h.done i hi
    obtain ⟨hkeys', hentry'⟩ := h'.done i (hperm.mem_iff.mp hi)
    exact ⟨fun k hk => (hkeys' k hk).trans (hkeys k hk).symm, hentry'.trans hentry.symm⟩
  · obtain ⟨hsame, hentry⟩ := h.others i hi
    obtain ⟨hsame', hentry'⟩ := h'.others i (mt hperm.mem_iff.mpr hi)
    refine ⟨fun k hk => ?_, congrArg strip (hentry'.trans hentry.symm)⟩
    rw [hsame k (concerns_of_ofInode hk), hsame' k (concerns_of_ofInode hk)]

theorem flushEntries_perm_sweptFiles :
    let swept := sweptFiles.flushEntries soloConfig.node (fun _ => true) [8, 7] .none
    let swept' := sweptFiles.flushEntries soloConfig.node (fun _ => true) [7, 8] .none
    AgreesFor 7 (swept.etcd, swept.entry 7) (swept'.etcd, swept'.entry 7) :=
  flushEntries_perm soloConfig.node (fun _ => true) sweptFiles ownKeys_sweptFiles
    (by decide) (.swap 7 8 []) 7

end EtcFS.Correctness
