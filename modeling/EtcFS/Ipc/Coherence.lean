import EtcFS.Ipc.File
import EtcFS.Ipc.Overlay

/-!
# The snapshot, the buffer and the store

The cached snapshot is what etcd would hold once the buffer is published, and every comparison of
the buffer holds in etcd as it is.
-/

namespace EtcFS.Ipc

open EtcFS.Core Metadata Arena List Option Core.Store

namespace FileState

def shown (st : FileState) : Etcd := st.etcd.commit st.pending.ops

def live (c : FileConfig) (st : FileState) : List ExtentValue := extentsOf st.shown c.ino

end FileState

structure Snapshot (c : FileConfig) (st : FileState) (m : InodeMeta) : Prop where
  record : getInode st.shown c.ino = some m.record
  describes : Describes c.ino m.extents st.shown
  ordered : Ordered m.extents
  revision : ∀ e ∈ m.extents, effect (.extent c.ino e.chunk) st.pending.ops = none →
    st.etcd.get (.extent c.ino e.chunk) = some ⟨e.toExtentValue, e.modRevision⟩

structure Planning (c : FileConfig) (st : FileState) : Prop where
  file : ∃ rec, getInode st.shown c.ino = some rec
  keys_nodup : (st.pending.ops.map Op.key).Nodup
  /-- The buffer writes only this inode's record and extents. -/
  key_mem : ∀ k, effect k st.pending.ops ≠ none →
    k = .inode c.ino ∨ ∃ chunk, k = .extent c.ino chunk
  cmps : ∀ x ∈ st.pending.cmps, st.etcd.holds x = true
  cached : ∀ m, st.cached = some m → Snapshot c st m
  idle : st.cached = none → st.pending.ops = []
  emptied : st.pending.ops = [] → st.pending = .none

structure Coherent (c : FileConfig) (st : FileState) : Prop extends Planning c st where
  lock : (st.etcd.get (.lock c.ino .exclusive st.holder)).isSome = true

section

variable {c : FileConfig} {st : FileState} {m : InodeMeta}

theorem Pending.isEmpty_iff {p : Pending} : p.isEmpty = true ↔ p.ops = [] := List.isEmpty_iff

theorem get_shown (st : FileState) (k : Key) : st.shown.get k =
    (effect k st.pending.ops).elim (st.etcd.get k) (Option.map (⟨·, st.etcd.revision + 1⟩)) :=
  st.etcd.get_commit _ k

theorem get_shown_of_empty (h : st.pending.ops = []) (k : Key) :
    st.shown.get k = st.etcd.get k := by
  rw [get_shown, h]
  rfl

theorem Snapshot.extents_eq (h : Snapshot c st m) (hp : st.pending.ops = []) :
    m.extents = getExtents st.etcd c.ino := by
  refine h.ordered.eq_of_mem_iff (getExtents_ordered _ _) fun e => ?_
  rw [mem_getExtents]
  constructor
  · exact fun he => h.revision e he (by rw [hp]; rfl)
  · intro he
    obtain ⟨e', he', hc, -⟩ := (h.describes.get_iff e.chunk e.toExtentValue).mp (by
      rw [get_shown_of_empty hp, he]
      rfl)
    have hrev := h.revision e' he' (by rw [hp]; rfl)
    rw [hc, he] at hrev
    obtain ⟨hv, hr⟩ := Versioned.mk.inj (some.inj hrev)
    have hsame : e = e' := by
      cases e
      cases e'
      simp_all
    rw [hsame]
    exact he'

theorem Snapshot.perm (h : Snapshot c st m) :
    (m.extents.map Extent.toExtentValue).Perm (st.live c) :=
  h.describes.perm (getExtents_describes _ _)

theorem Snapshot.nextSeq_eq (h : Snapshot c st m) :
    nextSeq m.extents = nextSeq (getExtents st.shown c.ino) := by
  refine onePast_congr fun x => ?_
  have hseq : ∀ xs : List Extent, xs.map (fun e => e.seq) =
      (xs.map Extent.toExtentValue).map ExtentValue.seq := by
    intro xs
    rw [List.map_map]
    rfl
  rw [hseq, hseq]
  exact (h.perm.map _).mem_iff

theorem snapshot_read (hp : st.pending.ops = []) {rec : InodeRecord}
    (hrec : getInode st.etcd c.ino = some rec) :
    Snapshot c st ⟨rec, getExtents st.etcd c.ino⟩ where
  record := by rw [getInode, get_shown_of_empty hp, ← getInode, hrec]
  describes := by
    rw [← getExtents_congr fun chunk => get_shown_of_empty hp (.extent c.ino chunk)]
    exact getExtents_describes _ _
  ordered := getExtents_ordered _ _
  revision := fun e he _ => mem_getExtents.mp he

/-! ## Reading the snapshot -/

theorem inodeMeta_spec (h : Coherent c st) : ∃ m, st.inodeMeta c =
    some (m, { st with cached := some m }) ∧ Snapshot c st m := by
  cases hc : st.cached with
  | some m =>
    refine ⟨m, ?_, h.cached m hc⟩
    simp only [FileState.inodeMeta, hc]
    rw [← hc]
  | none =>
    have hp := h.idle hc
    obtain ⟨rec, hrec⟩ := h.file
    rw [getInode, get_shown_of_empty hp, ← getInode] at hrec
    refine ⟨_, ?_, snapshot_read hp hrec⟩
    simp only [FileState.inodeMeta, hc, Pending.isEmpty_iff.mpr hp, if_true, hrec, map_some]

theorem Coherent.withSnapshot (h : Coherent c st) (hm : Snapshot c st m) :
    Coherent c { st with cached := some m } where
  lock := h.lock
  file := h.file
  keys_nodup := h.keys_nodup
  key_mem := h.key_mem
  cmps := h.cmps
  cached := by
    intro m' hm'
    obtain rfl : m = m' := some.inj hm'
    exact ⟨hm.record, hm.describes, hm.ordered, hm.revision⟩
  idle := fun hc => absurd hc (by simp)
  emptied := h.emptied

theorem Coherent.congr {st' : FileState} (h : Coherent c st) (hetcd : st'.etcd = st.etcd)
    (hholder : st'.holder = st.holder) (hpending : st'.pending = st.pending)
    (hcached : st'.cached = st.cached) : Coherent c st' := by
  have hshown : st'.shown = st.shown := by rw [FileState.shown, hetcd, hpending]; rfl
  refine ⟨⟨by rw [hshown]; exact h.file, by rw [hpending]; exact h.keys_nodup,
    by rw [hpending]; exact h.key_mem, by rw [hetcd, hpending]; exact h.cmps, ?_,
    by rw [hcached, hpending]; exact h.idle, by rw [hpending]; exact h.emptied⟩,
    by rw [hetcd, hholder]; exact h.lock⟩
  intro m hm
  obtain ⟨hrec, hdesc, hord, hrev⟩ := h.cached m (hcached ▸ hm)
  exact ⟨by rw [hshown]; exact hrec, by rw [hshown]; exact hdesc, hord,
    by rw [hetcd, hpending]; exact hrev⟩

/-! ## Publishing the buffer -/

structure Flushed (c : FileConfig) (st st' : FileState) : Prop where
  get : ∀ k, st'.etcd.get k = st.shown.get k
  pending : st'.pending = .none
  holder : st'.holder = st.holder
  device : st'.device = flushData st.pending.data st.device
  allocated : st'.allocated = release st.allocated st.pending.freed
  freed : st'.freed = st.freed ++ st.pending.freed
  coherent : Coherent c st'

theorem Flushed.shown_get {st' : FileState} (h : Flushed c st st') (k : Key) :
    st'.shown.get k = st.shown.get k := by
  rw [get_shown_of_empty (by rw [h.pending]; rfl), h.get]

theorem Flushed.live_eq {st' : FileState} (h : Flushed c st st') : st'.live c = st.live c :=
  congrArg (map Extent.toExtentValue) (getExtents_congr fun _ => h.shown_get _)

theorem live_of_empty (h : st.pending.ops = []) : st.live c = extentsOf st.etcd c.ino :=
  congrArg (map Extent.toExtentValue) (getExtents_congr fun _ => get_shown_of_empty h _)

theorem refresh_eq (ops : List (Op Val)) (ino rev : Nat) (e : Extent) :
    (FileState.refresh ops ino rev e).toExtentValue = e.toExtentValue ∧
      (FileState.refresh ops ino rev e).chunk = e.chunk := by
  unfold FileState.refresh
  split <;> exact ⟨rfl, rfl⟩

theorem Snapshot.relabel (hm : Snapshot c st m) {st' : FileState} {f : Extent → Extent}
    (hf : ∀ e, (f e).toExtentValue = e.toExtentValue ∧ (f e).chunk = e.chunk)
    (hrecord : getInode st'.shown c.ino = getInode st.shown c.ino)
    (hvalue : ∀ chunk, (st'.shown.get (.extent c.ino chunk)).map Versioned.value =
      (st.shown.get (.extent c.ino chunk)).map Versioned.value)
    (hrev : ∀ e ∈ m.extents, effect (.extent c.ino e.chunk) st'.pending.ops = none →
      st'.etcd.get (.extent c.ino e.chunk) = some ⟨e.toExtentValue, (f e).modRevision⟩) :
    Snapshot c st' { m with extents := m.extents.map f } := by
  refine ⟨hrecord.trans hm.record, ⟨?_, ?_⟩, ?_, ?_⟩
  · have hmap : (m.extents.map f).map Extent.chunk = m.extents.map Extent.chunk := by
      rw [List.map_map]
      exact map_congr_left fun e _ => (hf e).2
    rw [DistinctChunks, hmap]
    exact hm.describes.distinct
  · intro chunk v
    rw [hvalue, hm.describes.get_iff]
    simp only [List.mem_map, exists_exists_and_eq_and, hf]
  · refine pairwise_map.mpr (hm.ordered.imp ?_)
    intro a b hab
    rw [Extent.before_iff] at hab ⊢
    rw [(hf a).1, (hf b).1, (hf a).2, (hf b).2]
    exact hab
  · intro e he hnone
    obtain ⟨x, hx, rfl⟩ := List.mem_map.mp he
    rw [(hf x).2] at hnone ⊢
    rw [(hf x).1]
    exact hrev x hx hnone

theorem Snapshot.flushed (hm : Snapshot c st m) {st' : FileState}
    (hetcd : st'.etcd = st.shown) (hp : st'.pending = .none) :
    Snapshot c st' { m with
      extents := m.extents.map (FileState.refresh st.pending.ops c.ino st.shown.revision) } := by
  have hshown : ∀ k, st'.shown.get k = st.shown.get k := by
    intro k
    rw [get_shown_of_empty (by rw [hp]; rfl), hetcd]
  refine hm.relabel (refresh_eq _ _ _) (congrArg (Option.map Versioned.value) (hshown _))
    (fun _ => congrArg (Option.map Versioned.value) (hshown _)) fun e he _ => ?_
  have hval := hm.describes.get_of_mem he
  rw [hetcd, get_shown]
  rw [get_shown] at hval
  unfold FileState.refresh
  cases heff : effect (.extent c.ino e.chunk) st.pending.ops with
  | none =>
    rw [elim_none]
    exact hm.revision e he heff
  | some o =>
    rw [heff, elim_some] at hval
    cases o with
    | none => simp at hval
    | some v =>
      obtain rfl : v = e.toExtentValue := Option.some.inj hval
      rfl

theorem flush_spec (h : Coherent c st) : ∃ st', st.flush c = some st' ∧ Flushed c st st' := by
  by_cases hp : st.pending.ops = []
  · have hnone := h.emptied hp
    refine ⟨st, if_pos (Pending.isEmpty_iff.mpr hp), ?_⟩
    refine ⟨fun k => (get_shown_of_empty hp k).symm, hnone, rfl, ?_, ?_, ?_, h⟩
    · rw [hnone]
      rfl
    · funext b
      simp [release, Pending.freed, hnone, Pending.none]
    · simp [Pending.freed, hnone, Pending.none]
  · have hholds : ∀ x ∈ st.pending.txn.1 ++ [.present (.lock c.ino .exclusive st.holder)],
        st.etcd.holds x = true := by
      intro x hx
      rcases mem_append.mp hx with hx | hx
      · exact h.cmps x (mem_txn_cmps hx)
      · rw [mem_singleton.mp hx]
        exact h.lock
    have hempty : st.pending.isEmpty ≠ true := fun he => hp (Pending.isEmpty_iff.mp he)
    have hflush : st.flush c = some (FileState.flushCommitted c
        { st with device := flushData st.pending.data st.device }
        (st.etcd.commit st.pending.txn.2)) := by
      rw [FileState.flush, if_neg hempty]
      simp only [txn_of_holds st.pending.txn.2 hholds, map_some]
    refine ⟨_, hflush, ?_⟩
    refine ⟨fun _ => rfl, rfl, rfl, rfl, rfl, rfl, ?_⟩
    have hget : ∀ k, ((st.etcd.commit st.pending.txn.2).commit []).get k = st.shown.get k :=
      fun k => get_commit _ _ k
    refine ⟨⟨?_, nodup_nil, ?_, ?_, ?_, fun _ => rfl, fun _ => rfl⟩, ?_⟩
    · obtain ⟨rec, hrec⟩ := h.file
      exact ⟨rec, (congrArg (Option.map Versioned.value) (hget (.inode c.ino))).trans hrec⟩
    · exact fun k hk => absurd rfl hk
    · exact fun x hx => absurd hx (List.not_mem_nil)
    · intro m hm
      obtain ⟨m₀, hm₀, rfl⟩ := map_eq_some_iff.mp hm
      exact (h.cached m₀ hm₀).flushed rfl rfl
    · -- The buffer never writes a lock key.
      have hlock : effect (.lock c.ino .exclusive st.holder) st.pending.ops = none := by
        by_contra hne
        rcases h.key_mem _ hne with hk | ⟨chunk, hk⟩ <;> cases hk
      have hsame := get_shown st (.lock c.ino .exclusive st.holder)
      rw [hlock, elim_none] at hsame
      exact (congrArg Option.isSome hsame).trans h.lock

/-! ## Laying a write over the file -/

structure Written (c : FileConfig) (a : WriteAct) (st st' : FileState) : Prop where
  overlay : Overlay c.node a.req.offset a.req.stop
    (newExtents c.node a.req (nextSeq (getExtents st.shown c.ino)) 0 a.runs) (st.live c)
    (st'.live c)
  record : ∀ rec, getInode st.shown c.ino = some rec →
    getInode st'.shown c.ino = some (updatedRecord a.req rec)

def GivenUpBy (c : FileConfig) (a : WriteAct) (st : FileState) (block : Nat) : Prop :=
  ∃ e ∈ st.live c, e.Overlaps a.req.offset a.req.stop ∧
    block ∈ givenUpBlocks a.req.offset a.req.stop e

structure Buffered (c : FileConfig) (a : WriteAct) (data : List BufferedRun)
    (st st' : FileState) : Prop where
  etcd : st'.etcd = st.etcd
  device : st'.device = st.device
  allocated : st'.allocated = st.allocated
  freed : st'.freed = st.freed
  data : st'.pending.data = st.pending.data ++ data
  plans : ∀ b ∈ st'.pending.freed, b ∈ st.pending.freed ∨ GivenUpBy c a st b
  written : Written c a st st'

structure Committed (c : FileConfig) (a : WriteAct) (blocks : List Nat) (st st' : FileState) :
    Prop where
  pending : st'.pending = .none
  device : st'.device = st.device
  allocated : st'.allocated = release st.allocated blocks
  freed : st'.freed = st.freed ++ blocks
  plans : ∀ b ∈ blocks, GivenUpBy c a st b
  written : Written c a st st'

theorem Snapshot.givenUpBy (hm : Snapshot c st m) {a : WriteAct} {e : Extent}
    (he : e ∈ m.extents) (hov : e.Overlaps a.req.offset a.req.stop) {b : Nat}
    (hb : b ∈ givenUpBlocks a.req.offset a.req.stop e.toExtentValue) : GivenUpBy c a st b :=
  ⟨_, hm.perm.mem_iff.mp (mem_map_of_mem he), hov, hb⟩

theorem Snapshot.overlay (hm : Snapshot c st m) {a : WriteAct} {st' : FileState}
    (hr : RunsFor a.req.data.length a.runs)
    (hc : st'.shown.contents (extentValue c.ino) =
      ↑(newExtents c.node a.req (nextSeq m.extents) 0 a.runs) +
        piecesOf c.node a.req.offset a.req.stop m.extents) :
    Overlay c.node a.req.offset a.req.stop
      (newExtents c.node a.req (nextSeq (getExtents st.shown c.ino)) 0 a.runs) (st.live c)
      (st'.live c) := by
  rw [← hm.nextSeq_eq]
  exact (overlay_of_contents hr ((contents_eq_getExtents _ _).symm.trans hc)).perm_left hm.perm

theorem live_ne_of_overlay {a : WriteAct} {st' : FileState} {new : List ExtentValue}
    (h : Overlay c.node a.req.offset a.req.stop new (st.live c) (st'.live c)) :
    st'.live c ≠ st.live c := by
  intro hsame
  obtain ⟨x, hx, -⟩ := h.cover a.req.offset le_rfl
    (Nat.lt_add_of_pos_right (length_pos_iff.mpr a.req.data_ne))
  have hmem := h.mem_iff.mpr (.inl hx)
  rw [hsame] at hmem
  exact absurd (h.newer x hx x hmem) (lt_irrefl _)

theorem map_value_elim {ops : List (Op Val)} {w : WriteReq} {rec : InodeRecord}
    (heff : effect (.inode w.ino) ops =
      if PutsRecord w rec then some (some (updatedRecord w rec)) else none)
    {old : Option (Versioned InodeRecord)} (hold : old.map Versioned.value = some rec)
    (rev : Nat) : ((effect (.inode w.ino) ops).elim old (Option.map (⟨·, rev⟩))).map
      Versioned.value = some (updatedRecord w rec) := by
  rw [heff]
  split
  · rfl
  · rename_i hnot
    rw [updatedRecord_of_not_puts hnot]
    exact hold

section

variable {a : WriteAct} {st' : FileState} {ops : List (Op Val)}

theorem get_shown_add (hetcd : st'.etcd = st.etcd)
    (hops : ∀ k, effect k st'.pending.ops = effect k (st.pending.ops ++ ops)) (k : Key) :
    st'.shown.get k =
      (effect k ops).elim (st.shown.get k) (Option.map (⟨·, st.etcd.revision + 1⟩)) := by
  rw [get_shown, hops, hetcd, effect_append]
  cases effect k ops with
  | none => rw [none_or, elim_none, get_shown]
  | some o => rfl

theorem describes_shown_add (hetcd : st'.etcd = st.etcd)
    (hops : ∀ k, effect k st'.pending.ops = effect k (st.pending.ops ++ ops))
    {extents : List Extent} :
    Describes c.ino extents st'.shown ↔ Describes c.ino extents (st.shown.commit ops) := by
  have hval : ∀ chunk, (st'.shown.get (.extent c.ino chunk)).map Versioned.value =
      ((st.shown.commit ops).get (.extent c.ino chunk)).map Versioned.value := by
    intro chunk
    rw [get_shown_add hetcd hops, get_commit]
    cases effect (.extent c.ino chunk) ops with
    | none => rfl
    | some o => cases o <;> rfl
  constructor
  · exact fun h => ⟨h.distinct, fun chunk v => by rw [← hval]; exact h.get_iff chunk v⟩
  · exact fun h => ⟨h.distinct, fun chunk v => by rw [hval]; exact h.get_iff chunk v⟩

theorem Accounts.describes {rec : InodeRecord} {replay : TxnReplay}
    (h : Accounts c.ino rec ops replay) (hk : Kept m.extents) {s : Etcd}
    (hd : Describes c.ino m.extents s) (rev : Nat) :
    Describes c.ino (replay.apply m rev).extents (s.commit ops) := by
  obtain ⟨hkept, hmem⟩ := h.apply hk rev
  refine ⟨hkept.2, fun chunk v => ?_⟩
  rw [get_commit]
  cases heff : effect (.extent c.ino chunk) ops with
  | none =>
    rw [elim_none, hd.get_iff]
    constructor
    · rintro ⟨e, he, rfl, rfl⟩
      exact ⟨e, (hmem e).mpr (.inr ⟨heff, he⟩), rfl, rfl⟩
    · rintro ⟨e, he, rfl, rfl⟩
      rcases (hmem e).mp he with ⟨hput, -⟩ | ⟨-, he⟩
      · rw [heff] at hput
        cases hput
      · exact ⟨e, he, rfl, rfl⟩
  | some o =>
    have hiff : ((o.map fun v : ExtentValue => (⟨v, s.revision + 1⟩ : Versioned ExtentValue)).map
        Versioned.value = some v) ↔ o = some v := by
      cases o <;> simp
    rw [elim_some]
    refine hiff.trans ?_
    constructor
    · rintro rfl
      exact ⟨⟨v, chunk, rev⟩, (hmem _).mpr (.inl ⟨heff, rfl⟩), rfl, rfl⟩
    · rintro ⟨e, he, rfl, rfl⟩
      rcases (hmem e).mp he with ⟨hput, -⟩ | ⟨hnone, -⟩
      · exact some.inj (heff.symm.trans hput)
      · rw [heff] at hnone
        cases hnone

theorem Accounts.record_elim {replay : TxnReplay} (h : Accounts c.ino m.record ops replay)
    {old : Option (Versioned InodeRecord)} (hold : old.map Versioned.value = some m.record)
    (rev rev' : Nat) : ((effect (.inode c.ino) ops).elim old (Option.map (⟨·, rev⟩))).map
      Versioned.value = some (replay.apply m rev').record := by
  rcases h.record_eq with ⟨hnone, hsame⟩ | hput
  · rw [hnone, elim_none]
    exact hold.trans (congrArg some hsame.symm)
  · rw [hput]
    rfl

theorem Snapshot.replay {replay : TxnReplay} (hm : Snapshot c st m)
    (hacc : Accounts c.ino m.record ops replay) (hetcd : st'.etcd = st.etcd)
    (hops : ∀ k, effect k st'.pending.ops = effect k (st.pending.ops ++ ops)) :
    Snapshot c st' (replay.apply m 0) := by
  have hkept : Kept m.extents := ⟨hm.ordered, hm.describes.distinct⟩
  obtain ⟨hkept', hmem⟩ := hacc.apply hkept 0
  refine ⟨?_, (describes_shown_add hetcd hops).mpr (hacc.describes hkept hm.describes 0),
    hkept'.1, ?_⟩
  · rw [getInode, get_shown_add hetcd hops]
    exact hacc.record_elim hm.record _ _
  · intro e he hnone
    rw [hops, effect_append, or_eq_none_iff] at hnone
    rw [hetcd]
    rcases (hmem e).mp he with ⟨hput, -⟩ | ⟨-, he⟩
    · rw [hnone.1] at hput
      cases hput
    · exact hm.revision e he hnone.2

section

variable {p : Proposal} {start stop : Nat} {news : List ExtentValue}

theorem Planning.key_mem_add (h : Planning c st)
    (ht : Tracks c.node c.ino start stop m.extents st.shown news m.extents p) (k : Key)
    (hk : effect k (st.pending.ops ++ p.ops) ≠ none) :
    k = .inode c.ino ∨ ∃ chunk, k = .extent c.ino chunk := by
  rw [effect_append] at hk
  by_cases hnone : effect k p.ops = none
  · rw [hnone, none_or] at hk
    exact h.key_mem k hk
  · rw [effect_eq_none_iff] at hnone
    push Not at hnone
    obtain ⟨op, hop, rfl⟩ := hnone
    rcases ht.key_mem op hop with hk | ⟨e, -, hk, -⟩ | ⟨chunk, hk, -⟩
    · exact .inl hk
    · exact .inr ⟨_, hk⟩
    · exact .inr ⟨_, hk⟩

theorem Planning.holds_add (h : Planning c st) (hm : Snapshot c st m)
    (ht : Tracks c.node c.ino start stop m.extents st.shown news m.extents p) {bytes : Nat}
    {x : Cmp Val} (hx : x ∈ (st.pending.add p.cmps p.ops p.plans bytes).cmps) :
    st.etcd.holds x = true := by
  rcases mem_add_cmps hx with hx | ⟨hx, hown⟩
  · exact h.cmps x hx
  · -- The buffer does not write the key, so what the plan saw of it is what etcd has.
    rcases ht.cmp_mem x hx with ⟨k, rfl, hk⟩ | ⟨e, he, rfl⟩
    · have hfree := hm.describes.get_eq_none
        fun e he => ((lt_onePast Extent.chunk he).trans_le hk).ne
      rw [get_shown, not_owned_iff.mp hown, elim_none] at hfree
      exact holds_absent.mpr hfree
    · have hrev := hm.revision e he (not_owned_iff.mp hown)
      rw [holds_modRevisionEq, Store.modRevision, hrev]
      rfl

end

theorem bufferWrite_cmps (p : Proposal) (replay : TxnReplay) (bytes : Nat)
    (data : List BufferedRun) : (st.bufferWrite a p replay bytes data).pending.cmps =
      (st.pending.add p.cmps p.ops p.plans bytes).cmps := rfl

theorem bufferWrite_spec (h : Planning c st) (hcached : st.cached = some m)
    (hino : a.req.ino = c.ino) (hr : RunsFor a.req.data.length a.runs)
    (hdef : (proposal c.node a.req a.runs m.record m.extents).deferredReclaim = [])
    {replay : TxnReplay} (hreplay : replayTxn c.ino m.record
      (proposal c.node a.req a.runs m.record m.extents).ops = some replay)
    (bytes : Nat) (data : List BufferedRun) :
    Planning c (st.bufferWrite a (proposal c.node a.req a.runs m.record m.extents) replay bytes
        data) ∧
      Buffered c a data st (st.bufferWrite a (proposal c.node a.req a.runs m.record m.extents)
        replay bytes data) := by
  have hm := h.cached m hcached
  have hd := hm.describes
  rw [← hino] at hd
  have ht : Tracks c.node a.req.ino a.req.offset a.req.stop m.extents st.shown _ m.extents
      (proposal c.node a.req a.runs m.record m.extents) := tracks_proposal hd hr
  have hbal : (st.shown.commit (proposal c.node a.req a.runs m.record m.extents).ops).contents _ +
    _ = _ := contents_proposal hd hr
  have hinode : effect (.inode a.req.ino) (proposal c.node a.req a.runs m.record m.extents).ops =
    _ := effect_inode_proposal hr
  revert ht hbal hinode hdef hreplay
  generalize proposal c.node a.req a.runs m.record m.extents = p
  intro hdef hreplay ht hbal hinode
  rw [hdef, piecesOf_nil, valuesOf_nil, add_zero, add_zero] at hbal
  rw [hino] at ht hbal hinode hd
  have hacc := replayTxn_accounts ht.keys_nodup hreplay
  have hkept : Kept m.extents := ⟨hm.ordered, hd.distinct⟩
  obtain ⟨hnodup, hops⟩ := foldl_setOp h.keys_nodup p.ops
  have hetcd : (st.bufferWrite a p replay bytes data).etcd = st.etcd := rfl
  have hget : ∀ k, (st.bufferWrite a p replay bytes data).shown.get k =
      (effect k p.ops).elim (st.shown.get k) (Option.map (⟨·, st.etcd.revision + 1⟩)) :=
    get_shown_add hetcd hops
  have hdesc : Describes c.ino (replay.apply m 0).extents
      (st.bufferWrite a p replay bytes data).shown :=
    (describes_shown_add hetcd hops).mpr (hacc.describes hkept hd 0)
  have hcontents := hdesc.contents_eq.trans (hacc.describes hkept hd 0).contents_eq.symm
  have hover : Overlay c.node a.req.offset a.req.stop _ (st.live c)
      ((st.bufferWrite a p replay bytes data).live c) := hm.overlay hr (hcontents.trans hbal)
  have hrecord : ∀ rec, getInode st.shown c.ino = some rec →
      getInode (st.bufferWrite a p replay bytes data).shown c.ino =
        some (updatedRecord a.req rec) := by
    intro rec hrec
    obtain rfl : m.record = rec := Option.some.inj (hm.record.symm.trans hrec)
    rw [getInode, hget]
    rw [← hino] at hrec hinode ⊢
    exact map_value_elim hinode hrec _
  refine ⟨?_, rfl, rfl, rfl, rfl, rfl, ?_, hover, hrecord⟩
  · refine ⟨⟨_, hrecord m.record hm.record⟩, hnodup, ?_, ?_, ?_, ?_, ?_⟩
    · intro k hk
      exact h.key_mem_add ht k ((hops k).symm.trans_ne hk)
    · intro x hx
      rw [bufferWrite_cmps] at hx
      exact h.holds_add hm ht hx
    · intro m' hm'
      obtain rfl : replay.apply m 0 = m' := by
        rw [FileState.bufferWrite, hcached] at hm'
        exact Option.some.inj hm'
      exact hm.replay hacc hetcd hops
    · intro hc
      rw [FileState.bufferWrite, hcached] at hc
      cases hc
    · -- The write added extents newer than all others, so the buffer is not empty.
      intro hnil
      exfalso
      have hsame : (st.bufferWrite a p replay bytes data).live c = st.live c := by
        refine congrArg (List.map Extent.toExtentValue) (getExtents_congr fun chunk => ?_)
        have hnone := hops (.extent c.ino chunk)
        rw [show (p.ops.foldl setOp st.pending.ops) = [] from hnil, effect_append] at hnone
        have hp := (or_eq_none_iff.mp hnone.symm).1
        rw [hget, hp, elim_none]
      exact live_ne_of_overlay hover hsame
  · intro b hb
    rw [Pending.freed, show (st.bufferWrite a p replay bytes data).pending.plans =
      st.pending.plans ++ p.plans from rfl, flatMap_append] at hb
    refine (mem_append.mp hb).imp_right fun hb => ?_
    obtain ⟨plan, hplan, hb⟩ := mem_flatMap.mp hb
    obtain ⟨e, he, hov, -, -, hfree⟩ := ht.plan_mem plan hplan
    exact hm.givenUpBy he hov ((mem_planBlocks hfree).mp hb)

/-- What a buffered write finds and what it leaves. -/
theorem buffered_eq (hb : st.buffered c a = some st') :
    ∃ m replay, st.cached = some m ∧ a.req.ino = c.ino ∧ RunsFor a.req.data.length a.runs ∧
      (proposal c.node a.req a.runs m.record m.extents).modeChanged = false ∧
      (proposal c.node a.req a.runs m.record m.extents).deferredReclaim = [] ∧
      replayTxn c.ino m.record (proposal c.node a.req a.runs m.record m.extents).ops = some replay ∧
      st' = st.bufferWrite a (proposal c.node a.req a.runs m.record m.extents) replay
        (a.heldBytes (a.hold 0)) (a.heldData (a.hold 0)) := by
  obtain ⟨m, hm, hb⟩ := bind_eq_some_iff.mp hb
  simp only [ite_none_right_eq_some] at hb
  obtain ⟨⟨hino, hr, hmode, hdef⟩, hb⟩ := hb
  obtain ⟨replay, hreplay, rfl⟩ := map_eq_some_iff.mp hb
  exact ⟨m, replay, hm, hino, hr, hmode, hdef, hreplay, rfl⟩

theorem buffered_spec (h : Planning c st) (hb : st.buffered c a = some st') :
    Planning c st' ∧ Buffered c a (a.heldData (a.hold 0)) st st' := by
  obtain ⟨m, replay, hm, hino, hr, -, hdef, hreplay, rfl⟩ := buffered_eq hb
  exact bufferWrite_spec h hm hino hr hdef hreplay _ _

theorem buffered_record (h : Planning c st) (hb : st.buffered c a = some st')
    (hm : st.cached = some m) : ∃ m', st'.cached = some m' ∧
      clearSetIDOnWrite m.record.mode a.req.uid = m.record.mode ∧
      m'.record = { m.record with size := max m.record.size a.req.stop } ∧
      effect (.inode c.ino) st'.pending.ops =
        if a.req.stop > m.record.size then some (some m'.record)
        else effect (Key.inode c.ino) st.pending.ops := by
  obtain ⟨hplan, hbuf⟩ := buffered_spec h hb
  obtain ⟨m₁, replay, hm₁, hino, hr, hmode, -, -, rfl⟩ := buffered_eq hb
  obtain rfl : m = m₁ := some.inj (hm.symm.trans hm₁)
  rw [modeChanged_proposal, decide_eq_false_iff_not, not_not] at hmode
  have hcached : (st.bufferWrite a (proposal c.node a.req a.runs m.record m.extents) replay
      (a.heldBytes (a.hold 0)) (a.heldData (a.hold 0))).cached = some (replay.apply m 0) := by
    rw [FileState.bufferWrite, hm]
    rfl
  have hrec : (replay.apply m 0).record = updatedRecord a.req m.record :=
    some.inj ((hplan.cached _ hcached).record.symm.trans
      (hbuf.written.record _ (h.cached m hm).record))
  have heff : effect (.inode a.req.ino) (proposal c.node a.req a.runs m.record m.extents).ops =
    _ := effect_inode_proposal hr
  refine ⟨_, hcached, hmode, by rw [hrec, updatedRecord, hmode], ?_⟩
  refine ((foldl_setOp h.keys_nodup _).2 (.inode c.ino)).trans ?_
  rw [effect_append, ← hino, heff, hrec]
  simp only [PutsRecord, hmode, ne_eq, not_true, or_false]
  split <;> rfl

end

/-! ## Committing at once -/

section

variable {a : WriteAct} {rec : InodeRecord}

theorem publishWrite_etcd {n : Node} {w : WriteReq} {runs : List Run} {existing : List Extent}
    {s : Etcd} {r : Pass} (h : publishWrite n w runs rec existing s = some r)
    (hdef : (proposal n w runs rec existing).deferredReclaim = []) :
    r.etcd = s.commit (proposal n w runs rec existing).ops := by
  obtain ⟨t, ht, rfl⟩ := map_eq_some_iff.mp h
  rw [reclaimDeferred, hdef]
  exact (txn_eq_some_iff.mp ht).2

theorem snapshot_committed {s : Etcd} {st' : FileState} {ops : List (Op Val)} {replay : TxnReplay}
    (hrec : getInode s c.ino = some rec) (hacc : Accounts c.ino rec ops replay)
    (hetcd : st'.etcd = s.commit ops) (hempty : st'.pending.ops = []) :
    Snapshot c st' (replay.apply ⟨rec, getExtents s c.ino⟩ (s.revision + 1)) := by
  have hget : ∀ k, st'.shown.get k = (s.commit ops).get k := by
    intro k
    rw [get_shown_of_empty hempty, hetcd]
  have hd := getExtents_describes s c.ino
  have hkept : Kept (InodeMeta.mk rec (getExtents s c.ino)).extents :=
    ⟨getExtents_ordered _ _, hd.distinct⟩
  obtain ⟨hkept', hmem⟩ := hacc.apply hkept (s.revision + 1)
  refine ⟨?_, ?_, hkept'.1, ?_⟩
  · rw [getInode, hget, get_commit]
    exact Accounts.record_elim (m := ⟨rec, getExtents s c.ino⟩) hacc hrec _ _
  · have hdesc := hacc.describes hkept hd (s.revision + 1)
    exact ⟨hdesc.distinct, fun chunk v => by rw [hget]; exact hdesc.get_iff chunk v⟩
  · intro e he _
    rw [hetcd, get_commit]
    rcases (hmem e).mp he with ⟨hput, hrev⟩ | ⟨hnone, he⟩
    · rw [hput, hrev]
      rfl
    · rw [hnone, elim_none]
      exact mem_getExtents.mp he

theorem commitWrite_spec (h : Coherent c st) (hp : st.pending = .none)
    (hrec : getInode st.etcd c.ino = some rec) (hino : a.req.ino = c.ino)
    (hr : RunsFor a.req.data.length a.runs) :
    ∃ st' blocks, st.commitWrite c a rec (getExtents st.etcd c.ino) = some st' ∧
      Coherent c st' ∧ Committed c a blocks st st' := by
  have hempty : st.pending.ops = [] := by rw [hp]; rfl
  have hm := snapshot_read hempty hrec
  have hpublish := publishWrite_published c.node rec st.etcd hr
  rw [hino] at hpublish
  obtain ⟨r, hpub, hspec⟩ := hpublish
  have hcommit : st.commitWrite c a rec (getExtents st.etcd c.ino) =
      some (st.afterCommit c a rec (getExtents st.etcd c.ino) r) := by
    simp only [FileState.commitWrite, hpub, map_some, some_or]
  have hget : ∀ k, (st.afterCommit c a rec (getExtents st.etcd c.ino) r).shown.get k =
      r.etcd.get k := get_shown_of_empty hempty
  have hcontents := hspec.contents
  have hrecord := hspec.record
  rw [hino] at hcontents hrecord
  have hfile : getInode (st.afterCommit c a rec (getExtents st.etcd c.ino) r).shown c.ino =
      some (updatedRecord a.req rec) := by
    rw [getInode, hget, ← getInode, hrecord]
    split
    · rfl
    · rename_i hnot
      rw [updatedRecord_of_not_puts hnot, hrec]
  refine ⟨_, r.freed, hcommit, ?_, hp, rfl, rfl, rfl, ?_, ?_, ?_⟩
  · refine ⟨⟨⟨_, hfile⟩, h.keys_nodup, h.key_mem, ?_, ?_, fun _ => hempty, h.emptied⟩,
      (congrArg isSome (hspec.frame (.lock c.ino .exclusive st.holder) (by simp)
        (by simp))).trans h.lock⟩
    · intro x hx
      have hx : x ∈ st.pending.cmps := hx
      rw [hp] at hx
      cases hx
    · intro m' hm'
      unfold FileState.afterCommit at hm'
      simp only [ite_none_right_eq_some] at hm'
      obtain ⟨hdef, hm'⟩ := hm'
      obtain ⟨replay, hreplay, rfl⟩ := map_eq_some_iff.mp hm'
      have ht : Tracks c.node a.req.ino a.req.offset a.req.stop _ st.etcd _ _
          (proposal c.node a.req a.runs rec (getExtents st.etcd c.ino)) :=
        tracks_proposal (hino ▸ getExtents_describes st.etcd c.ino) hr
      exact snapshot_committed hrec (replayTxn_accounts ht.keys_nodup hreplay)
        (publishWrite_etcd hpub hdef) hempty
  · intro b hb
    obtain ⟨e, he, hov, -, hg⟩ := hspec.freed b hb
    rw [hino] at he
    exact hm.givenUpBy he hov hg
  · refine hm.overlay hr ?_
    rw [← hcontents]
    have hdesc := getExtents_describes r.etcd c.ino
    have hshown : Describes c.ino (getExtents r.etcd c.ino)
        (st.afterCommit c a rec (getExtents st.etcd c.ino) r).shown :=
      ⟨hdesc.distinct, fun chunk v => by rw [hget]; exact hdesc.get_iff chunk v⟩
    exact hshown.contents_eq.trans hdesc.contents_eq.symm
  · intro rec' hrec'
    rw [getInode, get_shown_of_empty hempty, ← getInode] at hrec'
    obtain rfl : rec = rec' := some.inj (hrec.symm.trans hrec')
    exact hfile

end

end

end EtcFS.Ipc
