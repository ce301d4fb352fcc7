import EtcFS.Correctness.FoldedBuffer
import EtcFS.Ipc.Landing

/-!
# A flush that looks for itself

A flush that is rejected looks for its buffer among the published extents, and finds it only if it
was published.
-/

namespace EtcFS.Correctness

open EtcFS.Core Metadata Arena Ipc List Option

/-! ## What a write proposes -/

section

variable {n : Node} {w : WriteReq} {runs : List Run} {rec : InodeRecord} {existing : List Extent}

theorem planReclaim_numbers {ino start stop next next' : Nat} {e : Extent} {plan : ReclaimPlan}
    (h : planReclaim n ino e start stop next = (some plan, next')) {op : Op Val}
    (hop : op ∈ plan.ops) :
    op.key = .extent ino e.chunk ∨ ∃ chunk v, op = .put (.extent ino chunk) v := by
  unfold planReclaim at h
  split at h
  case isFalse => cases h
  case isTrue =>
    generalize splitAround e.toExtentValue start stop = halves at h
    obtain ⟨head, tail⟩ := halves
    cases head <;> cases tail
    case none.none =>
      cases h
      exact .inl (congrArg Op.key (mem_singleton.mp hop))
    case none.some t =>
      simp only at h
      split at h <;> cases h
      exact .inr ⟨_, _, mem_singleton.mp hop⟩
    case some.none t =>
      cases h
      exact .inr ⟨_, _, mem_singleton.mp hop⟩
    case some.some t t' =>
      cases h
      rcases mem_pair.mp hop with rfl | rfl <;> exact .inr ⟨_, _, rfl⟩

theorem extentPuts_put {ino chunk : Nat} {vs : List ExtentValue} {op : Op Val}
    (h : op ∈ extentPuts ino chunk vs) : ∃ k v, op = .put (.extent ino k) v := by
  induction vs generalizing chunk with
  | nil => cases h
  | cons v vs ih =>
    rcases mem_cons.mp h with rfl | h
    · exact ⟨_, _, rfl⟩
    · exact ih h

/-- Only extents that were there before are deleted. -/
theorem proposal_numbers {chunk : Nat} {op : Op Val}
    (hop : op ∈ (proposal n w runs rec existing).ops) (hkey : op.key = .extent w.ino chunk) :
    (∃ e ∈ existing, e.chunk = chunk) ∨ ∃ v, op = .put (.extent w.ino chunk) v := by
  have hput : ∀ {op : Op Val} {i k : Nat} {v : ExtentValue}, op = .put (.extent i k) v →
      op.key = .extent w.ino chunk → ∃ v, op = .put (.extent w.ino chunk) v := by
    rintro op i k v rfl hkey
    cases hkey
    exact ⟨v, rfl⟩
  revert op
  refine proposal_induction (P := fun _ ops => ∀ {op : Op Val}, op ∈ ops →
    op.key = .extent w.ino chunk →
      (∃ e ∈ existing, e.chunk = chunk) ∨ ∃ v, op = .put (.extent w.ino chunk) v) ?_ ?_
  · intro op hop hkey
    rcases mem_append.mp hop with hop | hop
    · obtain ⟨k, v, hv⟩ := extentPuts_put hop
      exact .inr (hput hv hkey)
    · split at hop
      · cases mem_singleton.mp hop
        cases hkey
      · cases hop
  · intro cmps ops e plan stop next next' he hplan _ _ ih op hop hkey
    rcases mem_append.mp hop with hop | hop
    · exact ih hop hkey
    · rcases planReclaim_numbers hplan hop with hold | ⟨k, v, hv⟩
      · exact .inl ⟨e, he.1, (Key.extent.inj (hold.symm.trans hkey)).2⟩
      · exact .inr (hput hv hkey)

/-- Every write puts an extent under the first number past those that there are. -/
theorem proposal_fresh (hr : RunsFor w.data.length runs) :
    ∃ v, Op.put (.extent w.ino (nextChunk existing)) v ∈ (proposal n w runs rec existing).ops := by
  refine proposal_induction (P := fun _ ops => ∃ v,
    Op.put (.extent w.ino (nextChunk existing)) v ∈ ops) ?_ ?_
  · cases runs with
    | nil =>
      have hpos := length_pos_of_ne_nil w.data_ne
      have hlen := hr.2
      simp only [map_nil, sum_nil, blocksFor, blockSize] at hlen
      omega
    | cons r runs => exact ⟨_, mem_append_left _ mem_cons_self⟩
  · rintro cmps ops e plan stop next next' - - - - ⟨v, hv⟩
    exact ⟨v, mem_append_left _ hv⟩

end

/-! ## The numbers of a buffer -/

structure InLine (c : FileConfig) (holder : Holder) (s₀ : Etcd) (s : LandingState) : Prop where
  folded : FoldedSoFar c s₀ s.joined s.cached
  keys : ∀ k, effect k (foldBuffer s.joined).ops ≠ none →
    k = .inode c.ino ∨ ∃ chunk, k = .extent c.ino chunk
  /-- Whatever the buffer or the store under it has is numbered below the next extent. -/
  below : ∀ chunk, effect (.extent c.ino chunk) (foldBuffer s.joined).ops ≠ none ∨
    s₀.get (.extent c.ino chunk) ≠ none → chunk < nextChunk s.cached.extents
  /-- The last write's own number. -/
  fresh : s.joined ≠ [] → ∃ chunk v,
    effect (.extent c.ino chunk) (foldBuffer s.joined).ops = some (some v) ∧
      s₀.get (.extent c.ino chunk) = none ∧ ∀ qs, qs <+: s.joined → qs ≠ s.joined →
        effect (.extent c.ino chunk) (foldBuffer qs).ops = none
  sent : ∀ x ∈ s.sent, ∃ qs, qs <+: s.joined ∧ qs ≠ [] ∧ x = bufferTxn c holder qs
  applied : ∀ x ∈ s.applied, x ∈ s.sent
  value : ∀ chunk, (s.etcd.get (.extent c.ino chunk)).map Versioned.value =
    (effect (.extent c.ino chunk) (s.applied.flatMap Prod.snd)).elim
      ((s₀.get (.extent c.ino chunk)).map Versioned.value) id

section

variable {c : FileConfig} {holder : Holder} {s₀ : Etcd} {m : InodeMeta} {s t : LandingState}

theorem lt_nextChunk_of_shown {st : FileState} (hm : Snapshot c st m) {chunk : Nat}
    (h : st.shown.get (.extent c.ino chunk) ≠ none) : chunk < nextChunk m.extents := by
  obtain ⟨v, hv⟩ := ne_none_iff_exists'.mp h
  obtain ⟨e, he, rfl, -⟩ := (hm.describes.get_iff chunk v.value).mp (by rw [hv, map_some])
  exact lt_onePast Extent.chunk he

theorem inLine_start (hm : Snapshot c (overStore s₀ .none) m) :
    InLine c holder s₀ (.start s₀ m) where
  folded := ⟨hm, fun x hx => (nomatch hx), fun q hq => (nomatch hq),
    fun q hq => nomatch hq⟩
  keys := fun k hk => absurd rfl hk
  below := by
    rintro chunk (h | h)
    · exact absurd rfl h
    · refine lt_nextChunk_of_shown hm ?_
      rwa [get_shown_of_empty rfl]
  fresh := fun h => absurd rfl h
  sent := fun x hx => nomatch hx
  applied := fun x hx => nomatch hx
  value := fun _ => rfl

theorem touched_of_prefix {qs qs' : List (Proposal × Nat)} (h : qs <+: qs') {k : Key}
    (hnone : effect k (foldBuffer qs').ops = none) : effect k (foldBuffer qs).ops = none := by
  obtain ⟨rest, rfl⟩ := h
  rw [(foldBuffer_ops _).2, flatMap_append, effect_append, or_eq_none_iff] at hnone
  rw [(foldBuffer_ops _).2]
  exact hnone.2

structure NewNumbers (ino : Nat) (existing : List Extent) (ops : List (Op Val)) : Prop where
  nodup : (ops.map Op.key).Nodup
  keys : ∀ op ∈ ops, op.key = .inode ino ∨ ∃ chunk, op.key = .extent ino chunk
  fresh : ∃ v, Op.put (.extent ino (nextChunk existing)) v ∈ ops
  puts : ∀ op ∈ ops, ∀ chunk, op.key = .extent ino chunk →
    chunk < nextChunk existing ∨ ∃ v, op = .put (.extent ino chunk) v

theorem numbered_proposal {st : FileState} (hm : Snapshot c st m) {a : WriteAct}
    (hino : a.req.ino = c.ino) (hr : RunsFor a.req.data.length a.runs) :
    NewNumbers c.ino m.extents (proposal c.node a.req a.runs m.record m.extents).ops := by
  have htracks : Tracks c.node a.req.ino a.req.offset a.req.stop m.extents st.shown _ m.extents
      (proposal c.node a.req a.runs m.record m.extents) :=
    tracks_proposal (hino ▸ hm.describes) hr
  rw [← hino]
  refine ⟨htracks.keys_nodup, fun op hop => ?_, proposal_fresh hr, fun op hop chunk hkey => ?_⟩
  · exact (proposal_writes_inode hop).imp_left fun ⟨_, hput⟩ => congrArg Op.key hput
  rcases proposal_numbers hop hkey with ⟨e, he, rfl⟩ | hput
  · exact .inl (lt_onePast Extent.chunk he)
  · exact .inr hput

theorem NewNumbers.put {ino chunk : Nat} {existing : List Extent} {ops : List (Op Val)}
    (h : NewNumbers ino existing ops) (hchunk : ¬ chunk < nextChunk existing)
    (htouched : effect (.extent ino chunk) ops ≠ none) :
    ∃ v, effect (.extent ino chunk) ops = some (some v) := by
  rw [ne_eq, effect_eq_none_iff] at htouched
  push Not at htouched
  obtain ⟨op, hop, hkey⟩ := htouched
  obtain ⟨v, rfl⟩ := (h.puts op hop chunk hkey).resolve_left hchunk
  exact ⟨v, (effect_of_mem h.nodup hop).trans (Op.effect_put_self _ v)⟩

theorem InLine.write (h : InLine c holder s₀ s) {a : WriteAct}
    (ht : (landing c holder).step s (.write a) = some t) : InLine c holder s₀ t := by
  obtain ⟨⟨hino, hr⟩, ht⟩ := ite_none_right_eq_some.mp ht
  obtain ⟨replay, hreplay, rfl⟩ := map_eq_some_iff.mp ht
  have hfold := h.folded.step hino hr hreplay (a.heldBytes (a.hold 0))
  have hnum := numbered_proposal h.folded.snapshot hino hr
  generalize proposal c.node a.req a.runs s.cached.record s.cached.extents = p at hfold hnum ⊢
  generalize a.heldBytes (a.hold 0) = bytes at hfold ⊢
  generalize replay.apply s.cached 0 = m' at hfold ⊢
  have heffect : ∀ k, effect k (foldBuffer (s.joined ++ [(p, bytes)])).ops =
      (effect k p.ops).or (effect k (foldBuffer s.joined).ops) := by
    intro k
    rw [(foldBuffer_ops _).2, flatMap_append, effect_append, flatMap_singleton,
      ← (foldBuffer_ops _).2]
  have hput : ∀ {chunk v}, effect (.extent c.ino chunk) p.ops = some (some v) →
      chunk < nextChunk m'.extents := by
    intro chunk v hv
    refine lt_nextChunk_of_shown hfold.snapshot ?_
    rw [get_shown]
    dsimp only [overStore]
    rw [heffect, hv]
    exact some_ne_none _
  obtain ⟨v, hv⟩ := hnum.fresh
  have hnew : effect (.extent c.ino (nextChunk s.cached.extents)) p.ops = some (some v) :=
    (effect_of_mem hnum.nodup hv).trans (Op.effect_put_self _ v)
  have hgrows := hput hnew
  refine ⟨hfold, ?_, ?_, fun _ => ⟨nextChunk s.cached.extents, v, ?_, ?_, ?_⟩, ?_, h.applied,
    h.value⟩
  · intro k hk
    rw [heffect, ne_eq, or_eq_none_iff, not_and_or] at hk
    rcases hk with hk | hk
    · rw [effect_eq_none_iff] at hk
      push Not at hk
      obtain ⟨op, hop, rfl⟩ := hk
      exact hnum.keys op hop
    · exact h.keys k hk
  · intro chunk hchunk
    by_cases hlt : chunk < nextChunk s.cached.extents
    · exact hlt.trans hgrows
    · have hold : effect (.extent c.ino chunk) (foldBuffer s.joined).ops = none := by
        by_contra hne
        exact hlt (h.below chunk (.inl hne))
      rcases hchunk with hne | hne
      · rw [heffect, hold, or_none] at hne
        obtain ⟨v, hv⟩ := hnum.put hlt hne
        exact hput hv
      · exact absurd (h.below chunk (.inr hne)) hlt
  · rw [heffect, hnew, some_or]
  · by_contra hne
    exact Nat.lt_irrefl _ (h.below _ (.inr hne))
  · intro qs hqs hne
    refine touched_of_prefix ((prefix_concat_iff.mp hqs).resolve_left hne) ?_
    by_contra htouched
    exact Nat.lt_irrefl _ (h.below _ (.inl htouched))
  · intro x hx
    obtain ⟨qs, hqs, hne, rfl⟩ := h.sent x hx
    exact ⟨qs, hqs.trans (prefix_append ..), hne, rfl⟩

theorem InLine.step (h : InLine c holder s₀ s) {a : LandingStep}
    (ht : (landing c holder).step s a = some t) : InLine c holder s₀ t := by
  cases a with
  | write a => exact h.write ht
  | attempt =>
    obtain ⟨hne, ht⟩ := ite_none_left_eq_some.mp ht
    cases ht
    refine ⟨h.folded, h.keys, h.below, h.fresh, ?_, fun x hx => mem_append_left _ (h.applied x hx),
      h.value⟩
    intro x hx
    rcases mem_append.mp hx with hx | hx
    · exact h.sent x hx
    · exact ⟨s.joined, prefix_refl _, by simpa using hne, mem_singleton.mp hx⟩
  | arrive k =>
    obtain ⟨x, hx, rfl⟩ := map_eq_some_iff.mp ht
    split
    · next etcd htxn =>
      obtain ⟨-, rfl⟩ := Store.txn_eq_some_iff.mp htxn
      refine ⟨h.folded, h.keys, h.below, h.fresh, h.sent, ?_, fun chunk => ?_⟩
      · intro y hy
        rcases mem_append.mp hy with hy | hy
        · exact h.applied y hy
        · rw [mem_singleton.mp hy]
          exact mem_of_getElem? hx
      · rw [Store.commit_value, h.value, flatMap_append, flatMap_singleton, effect_append]
        cases effect (.extent c.ino chunk) x.2 <;> rfl
    · exact h
  | other ops =>
    obtain ⟨hother, ht⟩ := ite_none_right_eq_some.mp ht
    cases ht
    refine ⟨h.folded, h.keys, h.below, h.fresh, h.sent, h.applied, fun chunk => ?_⟩
    rw [← h.value, Store.get_commit_of_untouched fun op hop hkey => ?_]
    have := hother op hop
    rw [hkey] at this
    simp [ofInode] at this

theorem InLine.exec {steps : List LandingStep} (hm : Snapshot c (overStore s₀ .none) m)
    (hrun : (landing c holder).exec (.start s₀ m) steps = some s) : InLine c holder s₀ s :=
  Machine.Along.invariant (fun _ _ _ h _ ht => InLine.step h ht) (inLine_start hm)
    (Machine.along_true _ steps) hrun

/-- What is found was published: the last write's number was never used before. -/
theorem InLine.applied_of_landed (h : InLine c holder s₀ s)
    (hlanded : (foldBuffer s.joined).alreadyLanded (getExtents s.etcd c.ino) = true) :
    bufferTxn c holder s.joined ∈ s.applied := by
  rw [Pending.alreadyLanded, Bool.and_eq_true, bne_iff_ne, List.all_eq_true] at hlanded
  have hjoined : s.joined ≠ [] := by
    intro hnil
    rw [hnil] at hlanded
    exact hlanded.1 rfl
  obtain ⟨chunk, v, hput, hbase, hshorter⟩ := h.fresh hjoined
  have hmem : Op.put (.extent c.ino chunk) v ∈ (foldBuffer s.joined).ops :=
    mem_of_effect_eq_put hput
  have hfound := hlanded.2 _ (mem_filterMap.mpr ⟨_, hmem, rfl⟩)
  obtain ⟨e, he, hev⟩ := List.any_eq_true.mp hfound
  obtain ⟨rfl, -⟩ := of_decide_eq_true hev
  have hvalue := h.value e.chunk
  rw [mem_getExtents.mp he, hbase] at hvalue
  have htouched : effect (.extent c.ino e.chunk) (s.applied.flatMap Prod.snd) ≠ none := by
    intro hnone
    rw [hnone] at hvalue
    cases hvalue
  rw [ne_eq, effect_eq_none_iff] at htouched
  push Not at htouched
  obtain ⟨op, hop, hkey⟩ := htouched
  obtain ⟨x, hx, hop⟩ := mem_flatMap.mp hop
  obtain ⟨qs, hqs, -, rfl⟩ := h.sent x (h.applied x hx)
  by_cases heq : qs = s.joined
  · exact heq ▸ hx
  · exact absurd hkey (effect_eq_none_iff.mp (hshorter qs hqs heq) op hop)

theorem InLine.landed_of_last (h : InLine c holder s₀ s)
    (hlast : s.applied.getLast? = some (bufferTxn c holder s.joined)) :
    (foldBuffer s.joined).alreadyLanded (getExtents s.etcd c.ino) = true := by
  obtain ⟨before, happlied⟩ := getLast?_eq_some_iff.mp hlast
  have hjoined : s.joined ≠ [] := by
    obtain ⟨qs, hqs, hne, -⟩ := h.sent _ (h.applied _ (mem_of_getLast? hlast))
    rintro hnil
    rw [hnil, prefix_nil] at hqs
    exact hne hqs
  refine alreadyLanded_of_values (foldBuffer_ops _).1 h.keys ?_ fun chunk x hx => ?_
  · obtain ⟨chunk, v, hput, -⟩ := h.fresh hjoined
    exact ⟨chunk, by rw [hput]; exact some_ne_none _⟩
  · rw [h.value, happlied, flatMap_append, flatMap_singleton, effect_append]
    change ((effect _ (foldBuffer s.joined).ops).or _).elim _ id = x
    rw [hx]
    rfl

end

theorem find_getExtents (etcd : Etcd) (ino chunk : Nat) :
    ((getExtents etcd ino).find? fun e => decide (e.chunk = chunk)).map Extent.modRevision =
      (etcd.get (.extent ino chunk)).map Versioned.modRevision := by
  cases hfind : (getExtents etcd ino).find? fun e => decide (e.chunk = chunk) with
  | none =>
    cases hget : etcd.get (.extent ino chunk) with
    | none => rfl
    | some v =>
      have hmem : (⟨v.value, chunk, v.modRevision⟩ : Extent) ∈ getExtents etcd ino :=
        mem_getExtents.mpr hget
      exact absurd (decide_eq_true rfl) (find?_eq_none.mp hfind _ hmem)
  | some e =>
    have hchunk : e.chunk = chunk := by simpa using find?_some hfind
    subst hchunk
    rw [mem_getExtents.mp (mem_of_find?_eq_some hfind)]
    rfl

/-- If no older attempt is applied after the buffer was published, a flush that looks for its
buffer in the present state finds it exactly if it was published, with the revisions that the
published extents have. -/
theorem flushAlreadyLanded_iff {c : FileConfig} {holder : Holder} {s₀ : Etcd} {m : InodeMeta}
    (hm : Snapshot c (overStore s₀ .none) m) {steps : List LandingStep} {s : LandingState}
    (hrun : (landing c holder).exec (.start s₀ m) steps = some s)
    (hlast : bufferTxn c holder s.joined ∈ s.applied →
      s.applied.getLast? = some (bufferTxn c holder s.joined)) :
    ((flushAlreadyLanded (foldBuffer s.joined) (getExtents s.etcd c.ino)).isSome = true ↔
        bufferTxn c holder s.joined ∈ s.applied) ∧
      ∀ revs, flushAlreadyLanded (foldBuffer s.joined) (getExtents s.etcd c.ino) = some revs →
        ∀ chunk, revs chunk = (s.etcd.get (.extent c.ino chunk)).map Versioned.modRevision := by
  have h := InLine.exec hm hrun
  unfold flushAlreadyLanded
  constructor
  · split
    · next hlanded => exact ⟨fun _ => h.applied_of_landed hlanded, fun _ => rfl⟩
    · next hlanded =>
      refine ⟨fun hsome => (nomatch hsome), fun happlied => ?_⟩
      exact absurd (h.landed_of_last (hlast happlied)) hlanded
  · intro revs hrevs chunk
    obtain ⟨-, hrevs⟩ := ite_none_right_eq_some.mp hrevs
    cases hrevs
    exact find_getExtents s.etcd c.ino chunk

/-! ## Two writes of one byte -/

def emptyFile : Etcd := soloFile.etcd.commit [.put (.gen "a") 0]

def emptyMeta : InodeMeta := ⟨regularFile 7, []⟩

def byteWrite (block : Nat) : LandingStep :=
  .write (soloWrite false 0 [1] block one_byte_ne one_byte_bound)

theorem snapshot_emptyMeta : Snapshot soloConfig (overStore emptyFile .none) emptyMeta := by
  have hrec : getInode emptyFile 7 = some (regularFile 7) := by decide +kernel
  have hextents : getExtents emptyFile 7 = [] := by decide +kernel
  have hread : Snapshot soloConfig (overStore emptyFile .none)
      ⟨regularFile 7, getExtents emptyFile 7⟩ := snapshot_read rfl hrec
  rwa [hextents] at hread

theorem flushAlreadyLanded_iff_twoWrites :
    ∃ s, (landing soloConfig ⟨1, 1⟩).exec (.start emptyFile emptyMeta)
        [byteWrite 0, byteWrite 1, .attempt, .arrive 0] = some s ∧
      (flushAlreadyLanded (foldBuffer s.joined) (getExtents s.etcd 7)).isSome = true := by
  have hrun : (landing soloConfig ⟨1, 1⟩).exec (.start emptyFile emptyMeta)
      [byteWrite 0, byteWrite 1, .attempt, .arrive 0] = some _ := rfl
  have hiff := flushAlreadyLanded_iff snapshot_emptyMeta hrun fun _ => rfl
  exact ⟨_, hrun, hiff.1.mpr (mem_iff_getElem?.mpr ⟨0, rfl⟩)⟩

/-- The first write's attempt is applied after the one at both writes. It puts back the extent
that the buffer deletes, and the flush does not find what is published. -/
theorem late_attempt_hides_flush :
    ∃ s, (landing soloConfig ⟨1, 1⟩).exec (.start emptyFile emptyMeta)
        [byteWrite 0, .attempt, byteWrite 1, .attempt, .arrive 1, .arrive 0] = some s ∧
      bufferTxn soloConfig ⟨1, 1⟩ s.joined ∈ s.applied ∧
      (s.etcd.txn (bufferTxn soloConfig ⟨1, 1⟩ s.joined).1
        (bufferTxn soloConfig ⟨1, 1⟩ s.joined).2).isNone = true ∧
      (flushAlreadyLanded (foldBuffer s.joined) (getExtents s.etcd 7)).isNone = true :=
  ⟨_, rfl, mem_iff_getElem?.mpr ⟨0, rfl⟩, rfl, rfl⟩

end EtcFS.Correctness
