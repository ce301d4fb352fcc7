import EtcFS.Ipc.Stages

/-!
# The cached extent list against the store

The cached extent list, edited by replaying the node's own transactions, is the listing of the store
with the buffer published.
-/

namespace EtcFS.Correctness

open EtcFS.Core Metadata Arena Ipc Option List

structure JustLocked (c : FileConfig) (st : FileState) : Prop where
  pending : st.pending = .none
  cached : st.cached = none
  lock : (st.etcd.get (.lock c.ino .exclusive st.holder)).isSome = true
  file : ∃ rec, getInode st.etcd c.ino = some rec

def hideUnpublished (ino : Nat) (ops : List (Op Val)) (e : Extent) : Extent :=
  if effect (.extent ino e.chunk) ops = none then e else { e with modRevision := 0 }

structure CacheMatches (c : FileConfig) (st : FileState) : Prop where
  cached : st.pending.isEmpty = false → ∃ m, st.cached = some m
  buffered : ∀ m, st.cached = some m →
    m.extents.map (hideUnpublished c.ino st.pending.ops) =
      (getExtents (st.etcd.commit st.pending.txn.2) c.ino).map
        (hideUnpublished c.ino st.pending.ops)
  published : st.pending.isEmpty = true → ∀ m, st.cached = some m →
    m.extents = getExtents st.etcd c.ino

/-! ## The list and the listing -/

section

variable {c : FileConfig} {st : FileState} {m : InodeMeta}

theorem hideUnpublished_eq {ino : Nat} {ops : List (Op Val)} {e e' : Extent}
    (hv : e.toExtentValue = e'.toExtentValue) (hc : e.chunk = e'.chunk)
    (hr : effect (.extent ino e.chunk) ops = none → e.modRevision = e'.modRevision) :
    hideUnpublished ino ops e = hideUnpublished ino ops e' := by
  obtain ⟨v, chunk, rev⟩ := e
  obtain ⟨v', chunk', rev'⟩ := e'
  obtain rfl : v = v' := hv
  obtain rfl : chunk = chunk' := hc
  unfold hideUnpublished
  split
  · rename_i hnone
    obtain rfl : rev = rev' := hr hnone
    rfl
  · rfl

theorem hideUnpublished_before {ino : Nat} {ops : List (Op Val)} {e e' : Extent}
    (h : e.Before e') : (hideUnpublished ino ops e).Before (hideUnpublished ino ops e') := by
  rw [Extent.before_iff] at h ⊢
  unfold hideUnpublished
  split <;> split <;> exact h

theorem exists_listed (hm : Snapshot c st m) {e : Extent} (he : e ∈ m.extents) :
    ∃ x ∈ getExtents st.shown c.ino,
      hideUnpublished c.ino st.pending.ops x = hideUnpublished c.ino st.pending.ops e := by
  obtain ⟨⟨v, rev⟩, hget, hval⟩ := map_eq_some_iff.mp (hm.describes.get_of_mem he)
  obtain rfl : v = e.toExtentValue := hval
  refine ⟨⟨e.toExtentValue, e.chunk, rev⟩, mem_getExtents.mpr hget, hideUnpublished_eq rfl rfl ?_⟩
  intro hnone
  rw [get_shown, hnone, elim_none, hm.revision e he hnone] at hget
  exact (Versioned.mk.inj (some.inj hget)).2.symm

theorem exists_cached (hm : Snapshot c st m) {x : Extent} (hx : x ∈ getExtents st.shown c.ino) :
    ∃ e ∈ m.extents,
      hideUnpublished c.ino st.pending.ops e = hideUnpublished c.ino st.pending.ops x := by
  have hget := mem_getExtents.mp hx
  obtain ⟨e, he, hc, hv⟩ := (hm.describes.get_iff x.chunk x.toExtentValue).mp (by rw [hget]; rfl)
  refine ⟨e, he, hideUnpublished_eq hv hc ?_⟩
  intro hnone
  have hrev := hm.revision e he hnone
  rw [hc] at hnone hrev
  rw [get_shown, hnone, elim_none, hrev] at hget
  exact (Versioned.mk.inj (some.inj hget)).2

theorem map_hideUnpublished (hm : Snapshot c st m) :
    m.extents.map (hideUnpublished c.ino st.pending.ops) =
      (getExtents st.shown c.ino).map (hideUnpublished c.ino st.pending.ops) := by
  have hordered : ∀ {xs : List Extent}, Ordered xs →
      Ordered (xs.map (hideUnpublished c.ino st.pending.ops)) := by
    intro xs hxs
    exact List.pairwise_map.mpr (hxs.imp hideUnpublished_before)
  refine (hordered hm.ordered).eq_of_mem_iff (hordered (getExtents_ordered _ _)) fun y => ?_
  rw [List.mem_map, List.mem_map]
  constructor
  · rintro ⟨e, he, rfl⟩
    exact exists_listed hm he
  · rintro ⟨x, hx, rfl⟩
    exact exists_cached hm hx

theorem cacheMatches_of_coherent (h : Coherent c st) : CacheMatches c st where
  cached := by
    intro hne
    cases hc : st.cached with
    | some m => exact ⟨m, rfl⟩
    | none =>
      rw [Pending.isEmpty_iff.mpr (h.idle hc)] at hne
      cases hne
  buffered m hm := map_hideUnpublished (h.cached m hm)
  published hempty m hm := (h.cached m hm).extents_eq (Pending.isEmpty_iff.mp hempty)

end

/-! ## Steps -/

section

variable {c : FileConfig} {st t : FileState}

structure HeldCoherent (c : FileConfig) (st : FileState) : Prop where
  coherent : Coherent c st
  cmps_key : ∀ x ∈ st.pending.cmps, ∃ chunk, x.key = some (.extent c.ino chunk)

theorem JustLocked.coherent (h : JustLocked c st) : HeldCoherent c st where
  coherent := coherent_of_idle h.pending h.cached h.lock h.file
  cmps_key := by
    rw [h.pending]
    exact fun x hx => nomatch hx

theorem HeldCoherent.other (h : HeldCoherent c st) {ops : List (Op Val)}
    (hops : ops.all (fun op => !keysOf c.ino op.key) = true) :
    HeldCoherent c { st with etcd := st.etcd.commit ops } := by
  have hget : ∀ k, keysOf c.ino k = true → (st.etcd.commit ops).get k = st.etcd.get k := by
    intro k hk
    refine Store.get_commit_of_untouched fun op hop he => ?_
    have hout := List.all_eq_true.mp hops op hop
    rw [he, hk] at hout
    cases hout
  have hinode : keysOf c.ino (.inode c.ino) = true := beq_self_eq_true _
  have hextent : ∀ chunk, keysOf c.ino (.extent c.ino chunk) = true := fun _ => beq_self_eq_true _
  have hvalue : ∀ k, keysOf c.ino k = true →
      (({ st with etcd := st.etcd.commit ops } : FileState).shown.get k).map Versioned.value =
        (st.shown.get k).map Versioned.value := by
    intro k hk
    rw [get_shown, get_shown, hget k hk]
    cases effect k st.pending.ops with
    | none => rfl
    | some o => cases o <;> rfl
  obtain ⟨hc, hkey⟩ := h
  refine ⟨⟨⟨?_, hc.keys_nodup, hc.key_mem, ?_, ?_, hc.idle, hc.emptied⟩, ?_⟩, hkey⟩
  · obtain ⟨rec, hrec⟩ := hc.file
    exact ⟨rec, (hvalue _ hinode).trans hrec⟩
  · intro x hx
    obtain ⟨chunk, hk⟩ := hkey x hx
    rw [Store.holds_congr hk (hget _ (hextent chunk))]
    exact hc.cmps x hx
  · intro m hm
    have hsnap := hc.cached m hm
    have hsame : Snapshot c { st with etcd := st.etcd.commit ops }
        { m with extents := m.extents.map id } :=
      hsnap.relabel (fun e => ⟨rfl, rfl⟩) (hvalue _ hinode) (fun chunk => hvalue _ (hextent chunk))
        fun e he hnone => (hget _ (hextent e.chunk)).trans (hsnap.revision e he hnone)
    rwa [List.map_id] at hsame
  · rw [hget _ (beq_self_eq_true _)]
    exact hc.lock

theorem write_sync_pending (h : Coherent c st) {a : WriteAct} (hsync : a.sync = true)
    (hw : st.write c a = some t) : t.pending = .none := by
  simp only [FileState.write, ite_none_right_eq_some, bind_eq_bind,
    bind_eq_some_iff, FileState.beforeWrite, hsync, if_true] at hw
  obtain ⟨-, u, hu, ⟨m, v⟩, hm, -, hw⟩ := hw
  obtain ⟨u', hu', hflushed⟩ := flush_spec h
  obtain rfl : u = u' := some.inj (hu.symm.trans hu')
  have hv : v.pending = .none := (inodeMeta_pending hm).trans hflushed.pending
  have hempty : (v.reserve a.blocks).pending.isEmpty = true := by
    rw [show (v.reserve a.blocks).pending = v.pending from rfl, hv]
    rfl
  rw [FileState.bufferWriteOp, if_pos (.inl hsync), FileState.commitWriteOp, if_pos hempty] at hw
  rw [commitWrite_pending hw, writeThrough_pending]
  exact hv

theorem heldCoherent_write (h : HeldCoherent c st) {a : WriteAct} (hw : st.write c a = some t) :
    HeldCoherent c t := by
  have hrule : WriteRule c a fun _ _ => True := by constructor <;> intros <;> trivial
  refine ⟨(write_spec hrule h.coherent trivial hw).1, ?_⟩
  have hino := (ite_none_right_eq_some.mp hw).1
  refine write_pending (P := fun p => ∀ x ∈ p.cmps, ∃ chunk, x.key = some (.extent c.ino chunk))
    (fun x hx => nomatch hx) (fun u m replay bytes data hu _ x hx => ?_) h.cmps_key hw
  rw [bufferWrite_cmps] at hx
  rcases mem_add_cmps hx with hx | ⟨hx, -⟩
  · exact hu x hx
  · rw [← hino]
    exact proposal_cmps_key hx

theorem heldFile_step (h : HeldCoherent c st) {step : HeldStep}
    (hstep : (heldFile c).step st step = some t) :
    HeldCoherent c t ∧ (step.publishes = true → t.pending.isEmpty = true) := by
  have h₀ : HeldCoherent c { st with freed := [] } := ⟨h.coherent.congr rfl rfl rfl rfl, h.cmps_key⟩
  cases step with
  | own step =>
    cases step with
    | write a =>
      refine ⟨heldCoherent_write h₀ hstep, fun hsync => ?_⟩
      rw [write_sync_pending h₀.coherent hsync hstep]
      rfl
    | flush =>
      obtain ⟨u, hu, hf⟩ := flush_spec h₀.coherent
      obtain rfl : u = t := some.inj (hu.symm.trans hstep)
      refine ⟨⟨hf.coherent, ?_⟩, fun _ => Pending.isEmpty_iff.mpr hf.empty⟩
      rw [hf.pending]
      exact fun x hx => nomatch hx
    | «recall» next =>
      obtain ⟨u, v, hf, hv, hun, -⟩ := recall_spec h₀.coherent next
      obtain rfl : v = t := some.inj (hv.symm.trans hstep)
      refine ⟨⟨hun.coherent, ?_⟩, fun _ => ?_⟩
      · rw [hun.pending]
        exact fun x hx => nomatch hx
      · rw [hun.pending]
        rfl
  | other ops =>
    obtain ⟨hops, rfl⟩ := ite_some_none_eq_some.mp hstep
    exact ⟨h.other hops, fun hp => nomatch hp⟩

end

/-- Along every run of buffered and synchronous writes, flushes and recalls by the
holder of the inode's key, with any transactions on other keys between them: after
each step the cached list is what decoding the published buffer would give, up to
the revisions of unpublished keys, and after a flush or a synchronous write it is
what decoding the store gives. -/
theorem cachedExtents_match {c : FileConfig} {st : FileState} (hst : JustLocked c st)
    (steps : List HeldStep) :
    (heldFile c).Along (fun _ step t => CacheMatches c t ∧
      (step.publishes = true → ∀ m, t.cached = some m → m.extents = getExtents t.etcd c.ino))
      st steps := by
  refine Machine.Along.of_invariant (I := HeldCoherent c) ?_ hst.coherent
    (Machine.along_true st steps)
  intro s step t hs _ hstep
  obtain ⟨ht, hpublishes⟩ := heldFile_step hs hstep
  have hmatch := cacheMatches_of_coherent ht.coherent
  exact ⟨ht, hmatch, fun hp => hmatch.published (hpublishes hp)⟩

def mixedSteps : List HeldStep :=
  [.own (.write (soloWrite false 0 [1, 2, 3] 0 three_bytes_ne three_bytes_bound)),
    .other [.put (.inode 8) (regularFile 8)],
    .own (.write (soloWrite true 1 [7] 1 middle_ne middle_bound)),
    .own (.write (soloWrite false 2 [9] 2 (cons_ne_nil _ _) (by decide))),
    .own .flush]

/-- The theorem at a run that takes every path. -/
theorem cachedExtents_match_mixed : JustLocked soloConfig soloFile ∧
    ((heldFile soloConfig).exec soloFile mixedSteps).isSome = true ∧
    (heldFile soloConfig).Along (fun _ step t => CacheMatches soloConfig t ∧
      (step.publishes = true → ∀ m, t.cached = some m → m.extents = getExtents t.etcd 7))
      soloFile mixedSteps := by
  have hlocked : JustLocked soloConfig soloFile :=
    ⟨rfl, rfl, soloFile_opened.lock, soloFile_opened.file⟩
  exact ⟨hlocked, by decide +kernel, cachedExtents_match hlocked mixedSteps⟩

end EtcFS.Correctness
