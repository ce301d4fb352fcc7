import EtcFS.Ipc.Coherence

/-!
# Committing a plan that was made from a stale snapshot

The comparisons of a plan do not protect the second half of a split, the inode record or the
sequence number.
-/

namespace EtcFS.Correctness

open EtcFS.Core Metadata Arena Ipc List Option Core.Store

structure PlannedTxn where
  cmps : List (Cmp Val)
  ops : List (Op Val)
  seqs : List Nat

inductive StaleWrite where
  | sync (a : WriteAct)
  | buffered (first : WriteAct) (rest : List WriteAct)

def viewOf (c : FileConfig) (holder : Holder) (rec : InodeRecord) (s : Etcd) : FileState where
  etcd := s
  holder := holder
  cached := some ⟨rec, getExtents s c.ino⟩
  pending := .none
  device := fun _ => 0
  allocated := fun _ => false
  freed := []

def FileState.seqFrom (st : FileState) : Nat :=
  (st.cached.map fun m => nextSeq m.extents).getD 0

def planBuffer (c : FileConfig) : FileState → List WriteAct → Option (FileState × List Nat)
  | st, [] => some (st, [])
  | st, a :: as =>
    (st.buffered c a).bind fun st' =>
      (planBuffer c st' as).map fun (t, seqs) => (t, FileState.seqFrom st :: seqs)

def StaleWrite.plan (c : FileConfig) (st : FileState) : StaleWrite → Option PlannedTxn
  | .sync a => st.cached.bind fun m =>
    if a.req.ino = c.ino ∧ RunsFor a.req.data.length a.runs then
      let p := proposal c.node a.req a.runs m.record m.extents
      some ⟨p.cmps, p.ops, [FileState.seqFrom st]⟩
    else none
  | .buffered first rest => (planBuffer c st (first :: rest)).map fun (t, seqs) =>
    ⟨t.pending.txn.1 ++ [.present (.lock c.ino .exclusive st.holder)], t.pending.txn.2, seqs⟩

def PlannedTxn.WritesChunk (p : PlannedTxn) (ino chunk : Nat) : Prop :=
  effect (.extent ino chunk) p.ops ≠ none

structure KeepsPeers (ino : Nat) (s₀ s : Etcd) (p : PlannedTxn) : Prop where
  extents : ∀ chunk v, p.WritesChunk ino chunk → s.get (.extent ino chunk) = some v →
    s₀.get (.extent ino chunk) = some v
  size : ∀ r r', getInode s ino = some r → getInode (s.commit p.ops) ino = some r' →
    r.size ≤ r'.size
  seq : ∀ q ∈ p.seqs, ∀ x ∈ getExtents s ino, x.seq < q

def FileState.tailsOf (c : FileConfig) (st : FileState) (a : WriteAct) : List Nat :=
  (st.cached.map fun m => tailChunks c.node a.req a.runs m.record m.extents).getD []

def bufferTails (c : FileConfig) : FileState → List WriteAct → List Nat
  | _, [] => []
  | st, a :: as =>
    FileState.tailsOf c st a ++ ((st.buffered c a).map fun st' => bufferTails c st' as).getD []

def StaleWrite.writes : StaleWrite → List WriteReq
  | .sync a => [a.req]
  | .buffered first rest => (first :: rest).map WriteAct.req

def StaleWrite.tails (c : FileConfig) (st : FileState) : StaleWrite → List Nat
  | .sync a => FileState.tailsOf c st a
  | .buffered first rest => bufferTails c st (first :: rest)

structure SnapshotServes (ino : Nat) (s₀ s : Etcd) (rec : InodeRecord) (tails : List Nat)
    (writes : List WriteReq) : Prop where
  tails : ∀ chunk ∈ tails, ∀ v, s.get (.extent ino chunk) = some v →
    s₀.get (.extent ino chunk) = some v
  size : (∃ w ∈ writes, PutsRecord w rec) → ∀ r, getInode s ino = some r →
    r.size ≤ sizeAfter rec.size writes
  seq : ∀ x ∈ getExtents s ino, x.seq < nextSeq (getExtents s₀ ino)

/-! ## What a plan is -/

def PinsTo (ino : Nat) (s₀ : Etcd) (x : Cmp Val) : Prop :=
  ∃ chunk, x = .absent (.extent ino chunk) ∨
    x = .modRevisionEq (.extent ino chunk) (s₀.modRevision (.extent ino chunk))

structure PlannedFrom (ino : Nat) (s₀ : Etcd) (rec : InodeRecord) (tails : List Nat)
    (writes : List WriteReq) (p : PlannedTxn) : Prop where
  pins : ∀ x ∈ p.cmps, ∀ chunk, x.key = some (.extent ino chunk) → PinsTo ino s₀ x
  compared : ∀ chunk, p.WritesChunk ino chunk →
    (∃ x ∈ p.cmps, x.key = some (.extent ino chunk)) ∨ chunk ∈ tails
  tails_written : ∀ chunk ∈ tails, p.WritesChunk ino chunk
  record : ∃ r, effect (.inode ino) p.ops =
      (if ∃ w ∈ writes, PutsRecord w rec then some (some r) else none) ∧
    r.size = sizeAfter rec.size writes
  seqs_le : ∀ q ∈ p.seqs, nextSeq (getExtents s₀ ino) ≤ q
  seqs_head : nextSeq (getExtents s₀ ino) ∈ p.seqs

theorem PinsTo.get_eq {ino : Nat} {s₀ s : Etcd} (hlater : s₀.Later s) {x : Cmp Val}
    (hx : PinsTo ino s₀ x) (hholds : s.holds x = true) {chunk : Nat}
    (hk : x.key = some (.extent ino chunk)) {v : Versioned ExtentValue}
    (hv : s.get (.extent ino chunk) = some v) : s₀.get (.extent ino chunk) = some v := by
  obtain ⟨k, rfl | rfl⟩ := hx <;> obtain ⟨-, rfl⟩ := Key.extent.inj (some.inj hk)
  · rw [holds_absent, hv] at hholds
    cases hholds
  · rw [holds_modRevisionEq, Store.modRevision, hv] at hholds
    have hrev : v.modRevision = s₀.modRevision (.extent ino k) := hholds
    refine hlater.get_of_modRevision_le hv (hrev ▸ ?_)
    rw [Store.modRevision]
    cases hg : s₀.get (.extent ino k) with
    | none => exact Nat.zero_le _
    | some u => exact modRevision_le hg

theorem PlannedFrom.keepsPeers_iff {ino : Nat} {s₀ s : Etcd} {rec : InodeRecord} {tails : List Nat}
    {writes : List WriteReq} {p : PlannedTxn} (h : PlannedFrom ino s₀ rec tails writes p)
    (hlater : s₀.Later s) (hcommit : ∀ x ∈ p.cmps, s.holds x = true) :
    KeepsPeers ino s₀ s p ↔ SnapshotServes ino s₀ s rec tails writes := by
  obtain ⟨r, heff, hsize⟩ := h.record
  have hafter : ∀ r₀, getInode s ino = some r₀ → getInode (s.commit p.ops) ino =
      some (if ∃ w ∈ writes, PutsRecord w rec then r else r₀) := by
    intro r₀ hr₀
    rw [getInode, get_commit, heff]
    split
    · rfl
    · exact hr₀
  constructor
  · intro hk
    refine ⟨fun chunk ht v hv => ?_, fun hput r₀ hr₀ => ?_, ?_⟩
    · exact hk.extents chunk v (h.tails_written chunk ht) hv
    · have hle := hk.size r₀ _ hr₀ (hafter r₀ hr₀)
      rwa [if_pos hput, hsize] at hle
    · exact hk.seq _ h.seqs_head
  · intro hc
    refine ⟨fun chunk v hw hv => ?_, fun r₀ r' hr₀ hr' => ?_, fun q hq x hx => ?_⟩
    · rcases h.compared chunk hw with ⟨x, hx, hxk⟩ | ht
      · exact (h.pins x hx chunk hxk).get_eq hlater (hcommit x hx) hxk hv
      · exact hc.tails chunk ht v hv
    · rw [hafter r₀ hr₀, some.injEq] at hr'
      subst hr'
      split
      · rename_i hput
        rw [hsize]
        exact hc.size hput r₀ hr₀
      · exact le_rfl
    · exact (hc.seq x hx).trans_le (h.seqs_le q hq)

/-! ## A write planned at once -/

section

variable {c : FileConfig} {s₀ : Etcd} {rec : InodeRecord}

theorem proposal_writesChunk {a : WriteAct} {extents : List Extent} {chunk : Nat}
    (hino : a.req.ino = c.ino) (hr : RunsFor a.req.data.length a.runs) :
    (effect (.extent c.ino chunk) (proposal c.node a.req a.runs rec extents).ops ≠ none →
      (∃ x ∈ (proposal c.node a.req a.runs rec extents).cmps, x.key = some (.extent c.ino chunk)) ∨
      chunk ∈ tailChunks c.node a.req a.runs rec extents) ∧
    (chunk ∈ tailChunks c.node a.req a.runs rec extents →
      effect (.extent c.ino chunk) (proposal c.node a.req a.runs rec extents).ops ≠ none) := by
  obtain ⟨hg, htails⟩ : (proposal c.node a.req a.runs rec extents).Guarded _ _ ∧ _ :=
    guarded_proposal hr
  rw [ne_eq, effect_eq_none_iff]
  push Not
  constructor
  · rintro ⟨op, hop, hk⟩
    rcases hg.keys op hop with hi | hx | ⟨k, hke, hlo, hhi⟩
    · rw [hk] at hi
      cases hi
    · exact .inl (hk ▸ hx)
    · obtain ⟨-, rfl⟩ := Key.extent.inj (hk.symm.trans hke)
      exact .inr ((htails chunk).mpr ⟨hlo, hhi⟩)
  · intro ht
    obtain ⟨hlo, hhi⟩ := (htails chunk).mp ht
    rw [← hino]
    exact hg.used chunk hlo hhi

theorem pinsTo_of_mem_cmps {a : WriteAct} (hino : a.req.ino = c.ino)
    (hr : RunsFor a.req.data.length a.runs) {x : Cmp Val}
    (hx : x ∈ (proposal c.node a.req a.runs rec (getExtents s₀ c.ino)).cmps) :
    PinsTo c.ino s₀ x := by
  have ht : Tracks c.node a.req.ino a.req.offset a.req.stop _ s₀ _ _
      (proposal c.node a.req a.runs rec (getExtents s₀ c.ino)) :=
    tracks_proposal (hino ▸ getExtents_describes s₀ c.ino) hr
  rcases ht.cmp_mem x hx with ⟨k, rfl, -⟩ | ⟨e, he, rfl⟩
  · exact ⟨k, .inl (by rw [hino])⟩
  · refine ⟨e.chunk, .inr ?_⟩
    rw [hino, Store.modRevision, mem_getExtents.mp he]
    rfl

theorem plannedFrom_sync {a : WriteAct} (hino : a.req.ino = c.ino)
    (hr : RunsFor a.req.data.length a.runs) :
    PlannedFrom c.ino s₀ rec (tailChunks c.node a.req a.runs rec (getExtents s₀ c.ino)) [a.req]
      ⟨(proposal c.node a.req a.runs rec (getExtents s₀ c.ino)).cmps,
        (proposal c.node a.req a.runs rec (getExtents s₀ c.ino)).ops,
        [nextSeq (getExtents s₀ c.ino)]⟩ where
  pins := fun x hx _ _ => pinsTo_of_mem_cmps hino hr hx
  compared := fun _ => (proposal_writesChunk hino hr).1
  tails_written := fun _ => (proposal_writesChunk hino hr).2
  record := by
    refine ⟨updatedRecord a.req rec, ?_, rfl⟩
    have heff : effect (.inode a.req.ino)
      (proposal c.node a.req a.runs rec (getExtents s₀ c.ino)).ops = _ :=
      effect_inode_proposal hr
    rw [hino] at heff
    refine heff.trans ?_
    simp only [mem_singleton, exists_eq_left]
  seqs_le := fun q hq => (mem_singleton.mp hq).ge
  seqs_head := mem_singleton_self _

/-! ## A run of buffered writes -/

theorem le_sizeAfter (size : Nat) (writes : List WriteReq) : size ≤ sizeAfter size writes := by
  induction writes generalizing size with
  | nil => exact le_rfl
  | cons w writes ih => exact (le_max_left _ _).trans (ih _)

theorem sizeAfter_concat (size : Nat) (writes : List WriteReq) (w : WriteReq) :
    sizeAfter size (writes ++ [w]) = max (sizeAfter size writes) w.stop := by
  simp [sizeAfter]

theorem sizeAfter_eq_of_le {size : Nat} {writes : List WriteReq}
    (h : ∀ w ∈ writes, w.stop ≤ size) : sizeAfter size writes = size := by
  induction writes with
  | nil => rfl
  | cons w writes ih =>
    rw [sizeAfter, foldl_cons, max_eq_left (h w mem_cons_self)]
    exact ih fun w hw => h w (mem_cons_of_mem _ hw)

structure BufferOf (c : FileConfig) (s₀ : Etcd) (rec : InodeRecord) (tails : List Nat)
    (writes : List WriteReq) (st : FileState) : Prop where
  planning : Planning c st
  etcd : st.etcd = s₀
  pins : ∀ x ∈ st.pending.cmps, PinsTo c.ino s₀ x
  compared : ∀ chunk, effect (.extent c.ino chunk) st.pending.ops ≠ none →
    (∃ x ∈ st.pending.cmps, x.key = some (.extent c.ino chunk)) ∨ chunk ∈ tails
  tails_written : ∀ chunk ∈ tails, effect (.extent c.ino chunk) st.pending.ops ≠ none
  /-- No write of the buffer costs the file its set-user-ID bits. -/
  modes : ∀ w ∈ writes, clearSetIDOnWrite rec.mode w.uid = rec.mode
  cached : ∃ m, st.cached = some m ∧ m.record.mode = rec.mode ∧
    m.record.size = sizeAfter rec.size writes ∧
    effect (.inode c.ino) st.pending.ops =
      (if ∃ w ∈ writes, rec.size < w.stop then some (some m.record) else none) ∧
    nextSeq (getExtents s₀ c.ino) ≤ nextSeq m.extents

theorem bufferOf_view (holder : Holder) (hrec : getInode s₀ c.ino = some rec) :
    BufferOf c s₀ rec [] [] (viewOf c holder rec s₀) where
  planning := by
    have hget : (viewOf c holder rec s₀).shown.get (.inode c.ino) = s₀.get (.inode c.ino) :=
      get_shown_of_empty rfl _
    refine ⟨⟨rec, ?_⟩, nodup_nil, fun k hk => absurd rfl hk,
      fun x hx => (nomatch hx), ?_, fun _ => rfl, fun _ => rfl⟩
    · exact (congrArg (Option.map Versioned.value) hget).trans hrec
    · intro m hm
      cases hm
      exact snapshot_read rfl hrec
  etcd := rfl
  pins := fun x hx => nomatch hx
  compared := fun chunk hw => absurd rfl hw
  tails_written := fun chunk hc => nomatch hc
  modes := fun w hw => nomatch hw
  cached := ⟨_, rfl, rfl, rfl, (if_neg fun ⟨_, hw, _⟩ => List.not_mem_nil hw).symm, le_rfl⟩

section

variable {tails : List Nat} {done : List WriteReq} {st st' : FileState} {a : WriteAct}

theorem BufferOf.step_pins (h : BufferOf c s₀ rec tails done st)
    (hb : st.buffered c a = some st') : ∀ x ∈ st'.pending.cmps, PinsTo c.ino s₀ x := by
  obtain ⟨m, replay, hm, hino, hr, -, -, -, rfl⟩ := buffered_eq hb
  intro x hx
  have hsnap := h.planning.cached m hm
  have ht : Tracks c.node a.req.ino a.req.offset a.req.stop _ st.shown _ _
      (proposal c.node a.req a.runs m.record m.extents) :=
    tracks_proposal (hino ▸ hsnap.describes) hr
  rw [bufferWrite_cmps] at hx
  rcases mem_add_cmps hx with hx | ⟨hx, hown⟩
  · exact h.pins x hx
  · rcases ht.cmp_mem x hx with ⟨k, rfl, -⟩ | ⟨e, he, rfl⟩
    · exact ⟨k, .inl (by rw [hino])⟩
    · rw [hino] at hown ⊢
      have hrev := hsnap.revision e he (not_owned_iff.mp hown)
      refine ⟨e.chunk, .inr ?_⟩
      rw [Store.modRevision, ← h.etcd, hrev]
      rfl

theorem BufferOf.step_compared (h : BufferOf c s₀ rec tails done st)
    (hb : st.buffered c a = some st') {chunk : Nat} :
    (effect (.extent c.ino chunk) st'.pending.ops ≠ none →
      (∃ x ∈ st'.pending.cmps, x.key = some (.extent c.ino chunk)) ∨
        chunk ∈ tails ++ FileState.tailsOf c st a) ∧
    (chunk ∈ tails ++ FileState.tailsOf c st a →
      effect (.extent c.ino chunk) st'.pending.ops ≠ none) := by
  obtain ⟨m, replay, hm, hino, hr, -, -, -, rfl⟩ := buffered_eq hb
  have hp : (effect (.extent c.ino chunk) (proposal c.node a.req a.runs m.record m.extents).ops ≠
    none → _) ∧ _ := proposal_writesChunk hino hr
  have htails : FileState.tailsOf c st a = tailChunks c.node a.req a.runs m.record m.extents := by
    rw [FileState.tailsOf, hm]
    rfl
  have heff : effect (.extent c.ino chunk)
      ((proposal c.node a.req a.runs m.record m.extents).ops.foldl setOp st.pending.ops) ≠ none ↔
      effect (.extent c.ino chunk) (proposal c.node a.req a.runs m.record m.extents).ops ≠ none ∨
        effect (.extent c.ino chunk) st.pending.ops ≠ none := by
    rw [(foldl_setOp h.planning.keys_nodup _).2, effect_append, ne_eq, or_eq_none_iff, not_and_or]
  rw [bufferWrite_cmps, exists_key_add_cmps, mem_append, htails]
  refine ⟨fun hw => ?_, fun ht => heff.mpr ?_⟩
  · by_cases hold : effect (.extent c.ino chunk) st.pending.ops = none
    · rcases hp.1 ((heff.mp hw).resolve_right (not_not.mpr hold)) with hx | ht
      · exact .inl (.inr ⟨hx, not_owned_iff.mpr hold⟩)
      · exact .inr (.inr ht)
    · exact (h.compared chunk hold).imp .inl .inl
  · rcases ht with ht | ht
    · exact .inr (h.tails_written chunk ht)
    · exact .inl (hp.2 ht)

theorem BufferOf.step (h : BufferOf c s₀ rec tails done st) (hb : st.buffered c a = some st') :
    BufferOf c s₀ rec (tails ++ FileState.tailsOf c st a) (done ++ [a.req]) st' := by
  obtain ⟨m, hm, hmode, hsize, heff, hseq⟩ := h.cached
  obtain ⟨m', hm', hclear, hrec', heff'⟩ := buffered_record h.planning hb hm
  obtain ⟨hplan, hbuf⟩ := buffered_spec h.planning hb
  refine ⟨hplan, hbuf.etcd.trans h.etcd, h.step_pins hb,
    fun chunk => (h.step_compared hb).1, fun chunk => (h.step_compared hb).2, ?_,
    m', hm', by rw [hrec', hmode], ?_, ?_, ?_⟩
  · intro w hw
    rcases mem_append.mp hw with hw | hw
    · exact h.modes w hw
    · rw [mem_singleton.mp hw, ← hmode, hclear]
  · rw [hrec', sizeAfter_concat, ← hsize]
  · rw [heff', heff]
    by_cases hgrow : a.req.stop > m.record.size
    · have hlt : rec.size < a.req.stop := (hsize ▸ le_sizeAfter rec.size done).trans_lt hgrow
      rw [if_pos hgrow, if_pos ⟨_, mem_concat_self, hlt⟩]
    · -- A write that ends past the snapshot but not past the buffer follows one that did.
      have hsame : m'.record = m.record := by
        rw [hrec', max_eq_left (not_lt.mp hgrow)]
      have hiff : (∃ w ∈ done ++ [a.req], rec.size < w.stop) ↔ ∃ w ∈ done, rec.size < w.stop := by
        constructor
        · rintro ⟨w, hw, hlt⟩
          rcases mem_append.mp hw with hw | hw
          · exact ⟨w, hw, hlt⟩
          · by_contra hnone
            push Not at hnone
            rw [mem_singleton.mp hw] at hlt
            rw [hsize, sizeAfter_eq_of_le hnone] at hgrow
            exact hgrow hlt
        · rintro ⟨w, hw, hlt⟩
          exact ⟨w, mem_append_left _ hw, hlt⟩
      rw [if_neg hgrow, hsame]
      simp only [hiff]
  · -- The write's own extents carry the sequence number that was next.
    have hover := hbuf.written.overlay
    obtain ⟨x, hx, -⟩ := hover.cover a.req.offset le_rfl
      (Nat.lt_add_of_pos_right (length_pos_iff.mpr a.req.data_ne))
    obtain ⟨e, he, rfl⟩ := mem_map.mp (hover.mem_iff.mpr (.inl hx))
    have hlt : e.seq < nextSeq (getExtents st'.shown c.ino) := lt_onePast (fun e => e.seq) he
    rw [newExtents_seq hx, ← (h.planning.cached m hm).nextSeq_eq,
      ← (hplan.cached m' hm').nextSeq_eq] at hlt
    exact hseq.trans hlt.le

end

theorem planBuffer_spec {as : List WriteAct} {tails : List Nat} {done : List WriteReq}
    {st t : FileState} {seqs : List Nat} (h : BufferOf c s₀ rec tails done st)
    (hp : planBuffer c st as = some (t, seqs)) :
    BufferOf c s₀ rec (tails ++ bufferTails c st as) (done ++ as.map WriteAct.req) t ∧
      ∀ q ∈ seqs, nextSeq (getExtents s₀ c.ino) ≤ q := by
  induction as generalizing tails done st t seqs with
  | nil =>
    obtain ⟨rfl, rfl⟩ := Prod.mk.inj (some.inj hp)
    rw [bufferTails, map_nil, append_nil, append_nil]
    exact ⟨h, fun q hq => nomatch hq⟩
  | cons a as ih =>
    obtain ⟨st', hb, hp⟩ := bind_eq_some_iff.mp hp
    obtain ⟨⟨t', seqs'⟩, hrest, heq⟩ := map_eq_some_iff.mp hp
    obtain ⟨rfl, rfl⟩ := Prod.mk.inj heq
    obtain ⟨hbuf, hle⟩ := ih (h.step hb) hrest
    rw [append_assoc, append_assoc, singleton_append] at hbuf
    rw [bufferTails, hb, map_some, getD_some, map_cons]
    refine ⟨hbuf, fun q hq => ?_⟩
    rcases mem_cons.mp hq with rfl | hq
    · obtain ⟨m, hm, -, -, -, hseq⟩ := h.cached
      rw [FileState.seqFrom, hm]
      exact hseq
    · exact hle q hq

theorem BufferOf.plannedFrom {tails : List Nat} {writes : List WriteReq} {st : FileState}
    {seqs : List Nat} (h : BufferOf c s₀ rec tails writes st) (holder : Holder)
    (hle : ∀ q ∈ seqs, nextSeq (getExtents s₀ c.ino) ≤ q)
    (hhead : nextSeq (getExtents s₀ c.ino) ∈ seqs) :
    PlannedFrom c.ino s₀ rec tails writes
      ⟨st.pending.txn.1 ++ [.present (.lock c.ino .exclusive holder)], st.pending.txn.2, seqs⟩ where
  pins := by
    intro x hx chunk hk
    rcases mem_append.mp hx with hx | hx
    · exact h.pins x (mem_txn_cmps hx)
    · rw [mem_singleton.mp hx] at hk
      cases hk
  compared := by
    intro chunk hw
    refine (h.compared chunk hw).imp_left fun hx => ?_
    have hown : Owned st.pending.ops (some (.extent c.ino chunk)) := by
      by_contra hnot
      exact hw (not_owned_iff.mp hnot)
    obtain ⟨x, hx, hk⟩ := exists_key_txn_cmps hown hx
    exact ⟨x, mem_append_left _ hx, hk⟩
  tails_written := h.tails_written
  record := by
    obtain ⟨m, -, -, hsize, heff, -⟩ := h.cached
    refine ⟨m.record, heff.trans ?_, hsize⟩
    have hputs : ∀ w ∈ writes, PutsRecord w rec ↔ rec.size < w.stop := by
      intro w hw
      rw [PutsRecord, h.modes w hw]
      simp
    simp only [and_congr_right_iff.mpr (hputs _)]
  seqs_le := hle
  seqs_head := hhead

def StaleWrite.Read (w : StaleWrite) (ino : Nat) (s₀ : Etcd) (rec : InodeRecord) : Prop :=
  match w with
  | .sync _ => ∃ s, s.Later s₀ ∧ getInode s ino = some rec
  | .buffered _ _ => getInode s₀ ino = some rec

theorem StaleWrite.plannedFrom {w : StaleWrite} (hread : w.Read c.ino s₀ rec) {holder : Holder}
    {p : PlannedTxn} (hp : w.plan c (viewOf c holder rec s₀) = some p) :
    PlannedFrom c.ino s₀ rec (w.tails c (viewOf c holder rec s₀)) w.writes p := by
  cases w with
  | sync a =>
    simp only [StaleWrite.plan, viewOf, bind_some, ite_none_right_eq_some, some.injEq] at hp
    obtain ⟨⟨hino, hr⟩, rfl⟩ := hp
    exact plannedFrom_sync hino hr
  | buffered first rest =>
    obtain ⟨⟨t, seqs⟩, hbuf, rfl⟩ := map_eq_some_iff.mp hp
    obtain ⟨h, hle⟩ := planBuffer_spec (bufferOf_view holder hread) hbuf
    obtain ⟨st', -, hbuf⟩ := bind_eq_some_iff.mp hbuf
    obtain ⟨⟨t', seqs'⟩, -, heq⟩ := map_eq_some_iff.mp hbuf
    obtain ⟨rfl, rfl⟩ := Prod.mk.inj heq
    exact h.plannedFrom holder hle mem_cons_self

end

/-! ## Peers -/

inductive PeerAct where
  | write (n : Node) (w : WriteReq) (runs : List Run)
  | punch (n : Node) (start stop : Nat)

def peerActs (ino : Nat) : Machine Etcd PeerAct where
  step s
    | .write n w runs => (getInode s ino).bind fun rec =>
      if w.ino = ino ∧ RunsFor w.data.length runs then
        (publishWrite n w runs rec (getExtents s ino) s).map Pass.etcd
      else none
    | .punch n start stop =>
      let r := punchHole n ino start stop s
      if r.failed then none else some r.etcd

theorem later_of_exec {ino : Nat} {s t : Etcd} {acts : List PeerAct}
    (h : (peerActs ino).exec s acts = some t) : s.Later t := by
  induction acts generalizing s with
  | nil =>
    cases h
    exact Store.Later.refl _
  | cons act acts ih =>
    obtain ⟨u, hstep, h⟩ := (peerActs ino).exec_cons.mp h
    refine Store.Later.trans ?_ (ih h)
    cases act with
    | write n w runs =>
      obtain ⟨rec, -, hstep⟩ := bind_eq_some_iff.mp hstep
      obtain ⟨-, hstep⟩ := ite_none_right_eq_some.mp hstep
      obtain ⟨r, hr, rfl⟩ := map_eq_some_iff.mp hstep
      exact publishWrite_later hr
    | punch n start stop =>
      obtain ⟨-, hstep⟩ := ite_none_left_eq_some.mp hstep
      cases hstep
      exact punchHole_later n ino start stop s

/-! ## A stale split -/

def staleConfig : FileConfig := ⟨⟨"a", 0, fun pos => decide (pos < 4 * blockSize)⟩, 7, 2 ^ 20⟩

def peerNode : Node := ⟨"b", 0, fun pos => decide (4 * blockSize ≤ pos)⟩

def threeBlocks : Option Etcd :=
  (peerActs 7).exec ((freshFile 7).commit [.put (.gen "a") 0])
    [.write staleConfig.node (zeroBlocks 0 3 (by decide) (by decide)) [⟨0, 3 * blockSize⟩]]

def appendAndPunch : List PeerAct :=
  [.write peerNode (zeroBlocks (5 * blockSize) 1 Nat.one_pos (by decide))
      [⟨4 * blockSize, blockSize⟩],
    .write peerNode (zeroBlocks (6 * blockSize) 1 Nat.one_pos (by decide))
      [⟨5 * blockSize, blockSize⟩],
    .punch peerNode (5 * blockSize) (6 * blockSize)]

def staleMiddle : StaleWrite :=
  .sync ⟨zeroBlocks blockSize 1 Nat.one_pos second_block_bound, [⟨3 * blockSize, blockSize⟩], true,
    fun _ => false⟩

def staleRun : Option (Etcd × InodeRecord × Etcd × PlannedTxn × Etcd) := do
  let s₀ ← threeBlocks
  let record ← getInode s₀ 7
  let s ← (peerActs 7).exec s₀ appendAndPunch
  let p ← staleMiddle.plan staleConfig (viewOf staleConfig ⟨1, 1⟩ record s₀)
  let t ← s.txn (staleConfig.node.guard :: p.cmps) p.ops
  pure (s₀, record, s, p, t)

theorem staleRun_commits : ∃ s₀ record s p t, threeBlocks = some s₀ ∧
    getInode s₀ 7 = some record ∧ (peerActs 7).exec s₀ appendAndPunch = some s ∧
    staleMiddle.plan staleConfig (viewOf staleConfig ⟨1, 1⟩ record s₀) = some p ∧
    s.txn (staleConfig.node.guard :: p.cmps) p.ops = some t ∧
    s₀.get (.extent 7 2) = none ∧ (s.get (.extent 7 2)).isSome = true ∧
    p.WritesChunk 7 2 := by
  have hrun : (staleRun.map fun (s₀, _, s, p, _) => decide (s₀.get (.extent 7 2) = none ∧
      (s.get (.extent 7 2)).isSome = true ∧ (effect (.extent 7 2) p.ops).isSome = true)) =
        some true := by
    decide +kernel
  obtain ⟨⟨s₀, record, s, p, t⟩, hrun, hfacts⟩ := map_eq_some_iff.mp hrun
  simp only [staleRun, bind_eq_bind, bind_eq_some_iff, Option.pure_def,
    Option.some.injEq, Prod.mk.injEq] at hrun
  obtain ⟨s₀', h₀, record', hrec, s', hs, p', hp, t', ht, rfl, rfl, rfl, rfl, rfl⟩ := hrun
  obtain ⟨hnone, hsome, hwrites⟩ := of_decide_eq_true hfacts
  exact ⟨s₀', record', s', p', t', h₀, hrec, hs, hp, ht, hnone, hsome,
    isSome_iff_ne_none.mp hwrites⟩

/-! ## What a stale plan keeps -/

/-- A transaction planned from an earlier snapshot, at once or through the
buffer, that commits in a later store spares what peers published in between
exactly when the snapshot still serves there. -/
theorem keepsPeers_iff_snapshotServes {c : FileConfig} {s₀ s t : Etcd} {rec : InodeRecord}
    {holder : Holder} {w : StaleWrite} {p : PlannedTxn} (hread : w.Read c.ino s₀ rec)
    (hplan : w.plan c (viewOf c holder rec s₀) = some p) (hlater : s₀.Later s)
    (hcommit : s.txn (c.node.guard :: p.cmps) p.ops = some t) :
    KeepsPeers c.ino s₀ s p ↔
      SnapshotServes c.ino s₀ s rec (w.tails c (viewOf c holder rec s₀)) w.writes := by
  obtain ⟨hholds, -⟩ := txn_eq_some_iff.mp hcommit
  exact (StaleWrite.plannedFrom hread hplan).keepsPeers_iff hlater fun x hx =>
    hholds x (mem_cons_of_mem _ hx)

/-- The equivalence at the stale overwrite of the middle block. -/
theorem keepsPeers_iff_snapshotServes_staleMiddle :
    ∃ s₀ record s p t, getInode s₀ 7 = some record ∧ s₀.Later s ∧
      staleMiddle.plan staleConfig (viewOf staleConfig ⟨1, 1⟩ record s₀) = some p ∧
      s.txn (staleConfig.node.guard :: p.cmps) p.ops = some t ∧
      (KeepsPeers 7 s₀ s p ↔ SnapshotServes 7 s₀ s record
        (staleMiddle.tails staleConfig (viewOf staleConfig ⟨1, 1⟩ record s₀))
        staleMiddle.writes) := by
  obtain ⟨s₀, record, s, p, t, -, hrec, hs, hp, ht, -⟩ := staleRun_commits
  have hread : staleMiddle.Read staleConfig.ino s₀ record := ⟨s₀, Store.Later.refl _, hrec⟩
  exact ⟨s₀, record, s, p, t, hrec, later_of_exec hs, hp, ht,
    keepsPeers_iff_snapshotServes hread hp (later_of_exec hs) ht⟩

/-- The second half of the node's own extent is put over the peer's: its chunk
number was free in the snapshot, and nothing compares it. -/
theorem stale_split_buries_peer :
    ∃ s₀ record s p t, threeBlocks = some s₀ ∧ getInode s₀ 7 = some record ∧
      (peerActs 7).exec s₀ appendAndPunch = some s ∧
      staleMiddle.plan staleConfig (viewOf staleConfig ⟨1, 1⟩ record s₀) = some p ∧
      s.txn (staleConfig.node.guard :: p.cmps) p.ops = some t ∧ ¬ KeepsPeers 7 s₀ s p := by
  obtain ⟨s₀, record, s, p, t, h₀, hrec, hs, hp, ht, hnone, hsome, hwrites⟩ := staleRun_commits
  refine ⟨s₀, record, s, p, t, h₀, hrec, hs, hp, ht, fun hkeeps => ?_⟩
  obtain ⟨v, hv⟩ := isSome_iff_exists.mp hsome
  have hold := hkeeps.extents 2 v hwrites hv
  rw [hnone] at hold
  cases hold

end EtcFS.Correctness
