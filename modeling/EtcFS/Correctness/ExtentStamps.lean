import EtcFS.Correctness.GenerationGuard
import EtcFS.Ipc.FlushBatch
import EtcFS.Ipc.Stamps
import EtcFS.Scrub.Consistency

/-!
# No extent is ahead of its node

Processes plan from what they have cached and publish much later. The guard keeps the stamp of an
extent within the counter of its node.
-/

namespace EtcFS.Correctness

open EtcFS.Core Metadata Ipc Arena Scrub List Option Core.Store Function

variable {ι : Type} [DecidableEq ι]

structure Writers (ι : Type) where
  cluster : Generations ι
  cached : ι → Nat → Option InodeMeta
  pending : ι → Nat → Pending
  /-- The transactions sent off. Each may arrive more than once, late or never. -/
  sent : ι → List (List (Cmp Val) × List (Op Val))

inductive WriterStep (ι : Type) where
  /-- A process starts, a node is fenced, or something else is changed. -/
  | cluster (a : GenerationCall ι)
  /-- The snapshot of an inode is read from etcd, or dropped. -/
  | readMeta (i : ι) (ino : Nat)
  | forget (i : ι) (ino : Nat)
  /-- A write joins the buffer. The process owns the arenas of some device offsets. -/
  | buffer (i : ι) (owns : Nat → Bool) (w : WriteReq) (runs : List Run) (bytes : Nat)
  /-- A write is sent off, and the snapshot shows it at the revision it will have. -/
  | publish (i : ι) (owns : Nat → Bool) (w : WriteReq) (runs : List Run) (rev : Nat)
  /-- `reclaimCovered`, for a truncate, a hole or what a write has deferred. -/
  | reclaim (i : ι) (owns : Nat → Bool) (ino : Nat) (old : Extent) (start stop next : Nat)
  /-- The buffers of some inodes are sent off in one transaction, or emptied. -/
  | flush (i : ι) (entries : List (Nat × LockMode × Holder))
  | settle (i : ι) (ino : Nat)
  /-- A transaction that was sent arrives. -/
  | arrive (i : ι) (k : Nat) (reply : Reply)

def writeGeneration : Boot → Nat
  | .started startGen => startGen
  | .idle | .ensuring => 0

def GenerationCall.ops (s : Generations ι) : GenerationCall ι → List (Op Val)
  | .mutate _ c _ => c.ops s.etcd
  | .other ops => ops
  | _ => []

def putsExtent : Op Val → Bool
  | .put (.extent _ _) _ => true
  | _ => false

namespace Writers

variable (nodeOf : ι → NodeID) (s : Writers ι)

def boot (etcd : Etcd) : Writers ι :=
  ⟨Generations.init etcd, fun _ _ => none, fun _ _ => .none, fun _ => []⟩

def node (i : ι) (owns : Nat → Bool) : Node :=
  ⟨nodeOf i, writeGeneration (s.cluster.boot i), owns⟩

def setCached (i : ι) (ino : Nat) (m : Option InodeMeta) : Writers ι :=
  { s with cached := Function.update s.cached i (Function.update (s.cached i) ino m) }

def setPending (i : ι) (ino : Nat) (b : Pending) : Writers ι :=
  { s with pending := Function.update s.pending i (Function.update (s.pending i) ino b) }

def send (i : ι) (t : List (Cmp Val) × List (Op Val)) : Writers ι :=
  { s with sent := Function.update s.sent i (s.sent i ++ [t]) }

end Writers

def WriterStep.move (nodeOf : ι → NodeID) (s : Writers ι) : WriterStep ι → Option (Writers ι)
  | .cluster a =>
    -- only the data path puts extents
    if (GenerationCall.ops s.cluster a).all fun op => !putsExtent op then
      ((generations nodeOf).step s.cluster a).map fun c => { s with cluster := c }
    else none
  | .readMeta i ino =>
    (getInode s.cluster.etcd ino).map fun rec =>
      s.setCached i ino (some ⟨rec, getExtents s.cluster.etcd ino⟩)
  | .forget i ino => some (s.setCached i ino none)
  | .buffer i owns w runs bytes =>
    (s.cached i w.ino).bind fun m =>
      let p := proposal (s.node nodeOf i owns) w runs m.record m.extents
      (replayTxn w.ino m.record p.ops).map fun replay =>
        (s.setPending i w.ino ((s.pending i w.ino).join (p, bytes))).setCached i w.ino
          (some (replay.apply m 0))
  | .publish i owns w runs rev =>
    (s.cached i w.ino).bind fun m =>
      let p := proposal (s.node nodeOf i owns) w runs m.record m.extents
      (replayTxn w.ino m.record p.ops).map fun replay =>
        (s.send i (p.cmps, p.ops)).setCached i w.ino (some (replay.apply m rev))
  | .reclaim i owns ino old start stop next =>
    (s.cached i ino).bind fun m =>
      if old ∈ m.extents then
        (planReclaim (s.node nodeOf i owns) ino old start stop next).1.map fun plan =>
          s.send i ([plan.cmp], plan.ops)
      else none
  | .flush i entries =>
    let txns := entries.map fun e => (s.pending i e.1).flushTxn e.1 e.2.1 e.2.2
    some (s.send i (txns.flatMap Prod.fst, txns.flatMap Prod.snd))
  | .settle i ino => some (s.setPending i ino .none)
  | .arrive i k reply =>
    ((s.sent i)[k]?).bind fun t =>
      ((generations nodeOf).step s.cluster (.mutate i (.txn t.1 t.2) reply)).map fun c =>
        { s with cluster := c }

def writers (nodeOf : ι → NodeID) : Machine (Writers ι) (WriterStep ι) where
  step s a := a.move nodeOf s

/-! ## What a call leaves in etcd -/

section

variable {nodeOf : ι → NodeID} {s t : Generations ι} {a : GenerationCall ι}

theorem extent_of_submit {cmps : List (Cmp Val)} {ops : List (Op Val)} {reply : Reply} {s : Etcd}
    {ino chunk : Nat} {v : Versioned (Val (.extent ino chunk))}
    (hv : (Store.submit cmps ops [reply] s).2.get (.extent ino chunk) = some v) :
    s.get (.extent ino chunk) = some v ∨
      Op.put (.extent ino chunk) v.value ∈ ops ∧ ∀ c ∈ cmps, s.holds c = true := by
  cases htxn : s.txn cmps ops with
  | none =>
    rw [submit_of_refused htxn] at hv
    exact .inl hv
  | some u =>
    obtain ⟨hcmps, rfl⟩ := txn_eq_some_iff.mp htxn
    have hcommit : ∀ w, (s.commit ops).get (.extent ino chunk) = some w →
        s.get (.extent ino chunk) = some w ∨
          Op.put (.extent ino chunk) w.value ∈ ops ∧ ∀ c ∈ cmps, s.holds c = true := by
      intro w hw
      rcases get_commit_cases hw with ⟨hold, -⟩ | ⟨hput, -⟩
      · exact .inl hold
      · exact .inr ⟨hput, hcmps⟩
    cases reply with
    | unsent => exact .inl hv
    | lost =>
      simp only [Store.submit, htxn, getD_some] at hv
      exact hcommit v hv
    | answered =>
      simp only [Store.submit, htxn] at hv
      exact hcommit v hv

theorem extent_of_counter {cmps : List (Cmp Val)} {node : NodeID} {g : Nat} {reply : Reply}
    {s : Etcd} {ino chunk : Nat} {v : Versioned (Val (.extent ino chunk))}
    (hv : (Store.submit cmps [.put (.gen node) g] [reply] s).2.get (.extent ino chunk) = some v) :
    s.get (.extent ino chunk) = some v := by
  rcases extent_of_submit hv with hold | ⟨hput, -⟩
  · exact hold
  · cases mem_singleton.mp hput

theorem extent_of_step (h : (generations nodeOf).step s a = some t) {ino chunk : Nat}
    {v : Versioned (Val (.extent ino chunk))} (hv : t.etcd.get (.extent ino chunk) = some v) :
    s.etcd.get (.extent ino chunk) = some v ∨
      Op.put (.extent ino chunk) v.value ∈ GenerationCall.ops s a ∧
        ∀ i c reply, a = .mutate i c reply → ∃ g, s.boot i = .started g ∧
          s.etcd.holds (withGenerationGuard (nodeOf i) g) = true := by
  obtain ⟨hmove, -⟩ := filter_eq_some_iff.mp h
  cases a with
  | ensure i reply =>
    obtain ⟨-, rfl⟩ := ite_some_none_eq_some.mp hmove
    rw [Generations.Valid.etcd_ensure] at hv
    exact .inl (extent_of_counter hv)
  | readStart i answered =>
    obtain ⟨-, rfl⟩ := ite_some_none_eq_some.mp hmove
    exact .inl hv
  | bump node old reply =>
    cases hmove
    rw [Generations.Valid.etcd_bump] at hv
    exact .inl (extent_of_counter hv)
  | bumpMissing node reply =>
    obtain ⟨-, rfl⟩ := ite_some_none_eq_some.mp hmove
    exact .inl (extent_of_counter hv)
  | mutate i c reply =>
    obtain ⟨-, ht⟩ := ite_none_right_eq_some.mp hmove
    cases hb : s.boot i with
    | started g =>
      rw [hb] at ht
      cases ht
      rw [Generations.Valid.etcd_mutate] at hv
      rcases extent_of_submit hv with hold | ⟨hput, hcmps⟩
      · exact .inl hold
      · refine .inr ⟨hput, fun j c' reply' heq => ?_⟩
        cases heq
        exact ⟨g, hb, hcmps _ mem_cons_self⟩
    | idle | ensuring =>
      rw [hb] at ht
      cases ht
      exact .inl hv
  | check i answered =>
    obtain ⟨-, rfl⟩ := ite_some_none_eq_some.mp hmove
    exact .inl hv
  | other ops =>
    obtain ⟨-, rfl⟩ := ite_some_none_eq_some.mp hmove
    rcases get_commit_cases hv with ⟨hold, -⟩ | ⟨hput, -⟩
    · exact .inl hold
    · exact .inr ⟨hput, fun i c reply heq => by cases heq⟩

end

/-! ## Stamps that may be published -/

def Reached (s : Etcd) (gen : Nat) (node : NodeID) : Prop :=
  ∃ w, s.get (.gen node) = some w ∧ gen ≤ w.value

def Permitted (nodeOf : ι → NodeID) (s : Generations ι) (i : ι) (gen : Nat) (node : NodeID) :
    Prop :=
  Reached s.etcd gen node ∨ node = nodeOf i ∧ (gen = 0 ∨ s.boot i = .started gen)

def Stamped (s : Etcd) : Prop :=
  ∀ ino chunk (v : Versioned (Val (.extent ino chunk))), s.get (.extent ino chunk) = some v →
    Reached s (ExtentValue.gen v.value) (ExtentValue.node v.value)

section

variable {nodeOf : ι → NodeID} {s t : Generations ι} {a : GenerationCall ι} {i : ι} {gen : Nat}
  {node : NodeID}

theorem Reached.advance {s t : Etcd} (h : Reached s gen node) (hadv : Advances s t) :
    Reached t gen node := by
  obtain ⟨w, hw, hle⟩ := h
  obtain ⟨w', hw', hle'⟩ := hadv.kept node w hw
  exact ⟨w', hw', hle.trans hle'⟩

theorem Permitted.step (hs : Generations.Valid nodeOf s)
    (h : (generations nodeOf).step s a = some t) (hp : Permitted nodeOf s i gen node) :
    Permitted nodeOf t i gen node := by
  rcases hp with hreached | ⟨hnode, hzero | hstarted⟩
  · exact .inl (hreached.advance (hs.step h).1)
  · exact .inr ⟨hnode, .inl hzero⟩
  · exact .inr ⟨hnode, .inr (Generations.Valid.boot_of_started h hstarted)⟩

omit [DecidableEq ι] in
theorem Permitted.reached {g : Nat} (hp : Permitted nodeOf s i gen node)
    (hb : s.boot i = .started g) (hguard : s.etcd.holds (withGenerationGuard (nodeOf i) g) = true) :
    Reached s.etcd gen node := by
  obtain ⟨w, hw, hval⟩ := holds_withGenerationGuard.mp hguard
  rcases hp with hreached | ⟨rfl, rfl | hstarted⟩
  · exact hreached
  · exact ⟨w, hw, Nat.zero_le _⟩
  · have hg : g = gen := Boot.started.inj (hb.symm.trans hstarted)
    exact ⟨w, hw, (hval.trans hg).ge⟩

omit [DecidableEq ι] in
theorem permitted_own (s : Writers ι) (owns : Nat → Bool) :
    Permitted nodeOf s.cluster i (s.node nodeOf i owns).gen (s.node nodeOf i owns).id := by
  refine .inr ⟨rfl, ?_⟩
  cases hb : s.cluster.boot i with
  | started g => exact .inr (by simp only [Writers.node, hb, writeGeneration])
  | idle | ensuring => exact .inl (by simp only [Writers.node, hb, writeGeneration])

theorem Stamped.step (hst : Stamped s.etcd) (hs : Generations.Valid nodeOf s)
    (h : (generations nodeOf).step s a = some t)
    (hputs : Stamps (fun gen node => (∀ i c reply, a = .mutate i c reply → ∃ g,
      s.boot i = .started g ∧ s.etcd.holds (withGenerationGuard (nodeOf i) g) = true) →
        Reached s.etcd gen node) (GenerationCall.ops s a)) : Stamped t.etcd := by
  intro ino chunk v hv
  have hadv := (hs.step h).1
  rcases extent_of_step h hv with hold | ⟨hput, hguard⟩
  · exact (hst ino chunk v hold).advance hadv
  · exact (hputs ino chunk v.value hput hguard).advance hadv

end

/-! ## What every run keeps -/

structure WithinCounters (nodeOf : ι → NodeID) (s : Writers ι) : Prop where
  valid : Generations.Valid nodeOf s.cluster
  stamped : Stamped s.cluster.etcd
  cached : ∀ i ino m, s.cached i ino = some m → ∀ e ∈ m.extents,
    Permitted nodeOf s.cluster i e.gen e.node
  pending : ∀ i ino, Stamps (Permitted nodeOf s.cluster i) (s.pending i ino).ops
  sent : ∀ i, ∀ t ∈ s.sent i, Stamps (Permitted nodeOf s.cluster i) t.2

namespace WithinCounters

variable {nodeOf : ι → NodeID} {s t : Writers ι}

omit [DecidableEq ι] in
theorem boot {etcd : Etcd} (hcounted : Counted etcd) (hstamped : Stamped etcd) :
    WithinCounters nodeOf (Writers.boot etcd) where
  valid := .init hcounted
  stamped := hstamped
  cached _ _ _ hm := by cases hm
  pending _ _ := stamps_iff.mpr Puts.nil
  sent _ _ ht := nomatch ht

theorem call (h : WithinCounters nodeOf s) {a : GenerationCall ι} {c : Generations ι}
    (hstep : (generations nodeOf).step s.cluster a = some c)
    (hputs : Stamps (fun gen node => (∀ i c reply, a = .mutate i c reply → ∃ g,
      s.cluster.boot i = .started g ∧
        s.cluster.etcd.holds (withGenerationGuard (nodeOf i) g) = true) →
          Reached s.cluster.etcd gen node) (GenerationCall.ops s.cluster a)) :
    WithinCounters nodeOf { s with cluster := c } where
  valid := (h.valid.step hstep).2
  stamped := h.stamped.step h.valid hstep hputs
  cached i ino m hm e he := (h.cached i ino m hm e he).step h.valid hstep
  pending i ino := (h.pending i ino).imp fun _ _ hp => hp.step h.valid hstep
  sent i t ht := (h.sent i t ht).imp fun _ _ hp => hp.step h.valid hstep

theorem setCached (h : WithinCounters nodeOf s) {i : ι} {ino : Nat} {o : Option InodeMeta}
    (hm : ∀ m, o = some m → ∀ e ∈ m.extents, Permitted nodeOf s.cluster i e.gen e.node) :
    WithinCounters nodeOf (s.setCached i ino o) where
  valid := h.valid
  stamped := h.stamped
  cached j k m hj := by
    simp only [Writers.setCached] at hj
    by_cases hij : j = i
    · subst hij
      rw [update_self] at hj
      by_cases hk : k = ino
      · subst hk
        rw [update_self] at hj
        exact hm m hj
      · rw [update_of_ne hk] at hj
        exact h.cached j k m hj
    · rw [update_of_ne hij] at hj
      exact h.cached j k m hj
  pending := h.pending
  sent := h.sent

theorem setPending (h : WithinCounters nodeOf s) {i : ι} {ino : Nat} {b : Pending}
    (hb : Stamps (Permitted nodeOf s.cluster i) b.ops) :
    WithinCounters nodeOf (s.setPending i ino b) where
  valid := h.valid
  stamped := h.stamped
  cached := h.cached
  pending j k := by
    simp only [Writers.setPending]
    by_cases hij : j = i
    · subst hij
      rw [update_self]
      by_cases hk : k = ino
      · subst hk
        rw [update_self]
        exact hb
      · rw [update_of_ne hk]
        exact h.pending j k
    · rw [update_of_ne hij]
      exact h.pending j k
  sent := h.sent

theorem send (h : WithinCounters nodeOf s) {i : ι} {x : List (Cmp Val) × List (Op Val)}
    (hx : Stamps (Permitted nodeOf s.cluster i) x.2) : WithinCounters nodeOf (s.send i x) where
  valid := h.valid
  stamped := h.stamped
  cached := h.cached
  pending := h.pending
  sent j y hy := by
    simp only [Writers.send] at hy
    by_cases hij : j = i
    · subst hij
      rw [update_self] at hy
      rcases mem_append.mp hy with hy | hy
      · exact h.sent j y hy
      · rw [mem_singleton.mp hy]
        exact hx
    · rw [update_of_ne hij] at hy
      exact h.sent j y hy

omit [DecidableEq ι] in
theorem planned (h : WithinCounters nodeOf s) {i : ι} {w : WriteReq} {m : InodeMeta}
    (hm : s.cached i w.ino = some m) (owns : Nat → Bool) (runs : List Run) :
    Stamps (Permitted nodeOf s.cluster i)
        (proposal (s.node nodeOf i owns) w runs m.record m.extents).ops ∧
      ∀ replay rev, replayTxn w.ino m.record
          (proposal (s.node nodeOf i owns) w runs m.record m.extents).ops = some replay →
        ∀ e ∈ (replay.apply m rev).extents, Permitted nodeOf s.cluster i e.gen e.node := by
  have hcached := h.cached i w.ino m hm
  have hops : Stamps (Permitted nodeOf s.cluster i)
      (proposal (s.node nodeOf i owns) w runs m.record m.extents).ops :=
    proposal_stamps (permitted_own s owns) hcached
  exact ⟨hops, fun replay rev hreplay =>
    apply_extents rev hcached (replayTxn_puts hreplay (stamps_iff.mp hops))⟩

theorem move {a : WriterStep ι} (h : WithinCounters nodeOf s) (ha : a.move nodeOf s = some t) :
    WithinCounters nodeOf t := by
  cases a with
  | cluster a =>
    obtain ⟨hnone, ha⟩ := ite_none_right_eq_some.mp ha
    obtain ⟨c, hstep, rfl⟩ := map_eq_some_iff.mp ha
    refine h.call hstep fun ino chunk v hv => ?_
    exact absurd (all_eq_true.mp hnone _ hv) (by simp [putsExtent])
  | readMeta i ino =>
    obtain ⟨rec, -, rfl⟩ := map_eq_some_iff.mp ha
    refine h.setCached fun m hm e he => ?_
    cases hm
    obtain ⟨v, hv, hval⟩ := map_eq_some_iff.mp
      (((getExtents_describes s.cluster.etcd ino).get_iff e.chunk e.toExtentValue).mpr
        ⟨e, he, rfl, rfl⟩)
    have hreached := h.stamped ino e.chunk v hv
    rw [hval] at hreached
    exact .inl hreached
  | forget i ino =>
    cases ha
    exact h.setCached fun m hm => by cases hm
  | buffer i owns w runs bytes =>
    obtain ⟨m, hm, ha⟩ := bind_eq_some_iff.mp ha
    obtain ⟨replay, hreplay, rfl⟩ := map_eq_some_iff.mp ha
    obtain ⟨hops, hextents⟩ := h.planned hm owns runs
    refine (h.setPending ?_).setCached fun m' hm' => ?_
    · exact stamps_iff.mpr (Puts.foldl_setOp (stamps_iff.mp (h.pending i w.ino)) hops)
    · cases hm'
      exact hextents replay 0 hreplay
  | publish i owns w runs rev =>
    obtain ⟨m, hm, ha⟩ := bind_eq_some_iff.mp ha
    obtain ⟨replay, hreplay, rfl⟩ := map_eq_some_iff.mp ha
    obtain ⟨hops, hextents⟩ := h.planned hm owns runs
    refine (h.send hops).setCached fun m' hm' => ?_
    cases hm'
    exact hextents replay rev hreplay
  | reclaim i owns ino old start stop next =>
    obtain ⟨m, hm, ha⟩ := bind_eq_some_iff.mp ha
    obtain ⟨hold, ha⟩ := ite_none_right_eq_some.mp ha
    obtain ⟨plan, hplan, rfl⟩ := map_eq_some_iff.mp ha
    have hplan' : planReclaim (s.node nodeOf i owns) ino old start stop next =
        (some plan, (planReclaim (s.node nodeOf i owns) ino old start stop next).2) :=
      Prod.ext hplan rfl
    exact h.send (planReclaim_stamps hplan' (h.cached i ino m hm old hold))
  | flush i entries =>
    cases ha
    refine h.send (stamps_iff.mpr (Puts.flatMap fun x hx => ?_))
    obtain ⟨e, -, rfl⟩ := mem_map.mp hx
    exact h.pending i e.1
  | settle i ino =>
    cases ha
    exact h.setPending (stamps_iff.mpr Puts.nil)
  | arrive i k reply =>
    obtain ⟨x, hx, ha⟩ := bind_eq_some_iff.mp ha
    obtain ⟨c, hstep, rfl⟩ := map_eq_some_iff.mp ha
    refine h.call hstep fun ino chunk v hv hguard => ?_
    obtain ⟨g, hb, hholds⟩ := hguard i _ _ rfl
    exact (h.sent i x (mem_of_getElem? hx) ino chunk v hv).reached hb hholds

theorem advances {a : WriterStep ι} (h : WithinCounters nodeOf s)
    (ha : a.move nodeOf s = some t) : Advances s.cluster.etcd t.cluster.etcd := by
  cases a with
  | cluster a =>
    obtain ⟨-, ha⟩ := ite_none_right_eq_some.mp ha
    obtain ⟨c, hstep, rfl⟩ := map_eq_some_iff.mp ha
    exact (h.valid.step hstep).1
  | arrive i k reply =>
    obtain ⟨x, -, ha⟩ := bind_eq_some_iff.mp ha
    obtain ⟨c, hstep, rfl⟩ := map_eq_some_iff.mp ha
    exact (h.valid.step hstep).1
  | readMeta i ino =>
    obtain ⟨rec, -, rfl⟩ := map_eq_some_iff.mp ha
    exact Advances.refl _
  | buffer i owns w runs bytes =>
    obtain ⟨m, -, ha⟩ := bind_eq_some_iff.mp ha
    obtain ⟨replay, -, rfl⟩ := map_eq_some_iff.mp ha
    exact Advances.refl _
  | publish i owns w runs rev =>
    obtain ⟨m, -, ha⟩ := bind_eq_some_iff.mp ha
    obtain ⟨replay, -, rfl⟩ := map_eq_some_iff.mp ha
    exact Advances.refl _
  | reclaim i owns ino old start stop next =>
    obtain ⟨m, -, ha⟩ := bind_eq_some_iff.mp ha
    obtain ⟨-, ha⟩ := ite_none_right_eq_some.mp ha
    obtain ⟨plan, -, rfl⟩ := map_eq_some_iff.mp ha
    exact Advances.refl _
  | forget | flush | settle =>
    cases ha
    exact Advances.refl _

end WithinCounters

/-- In every state that a run reaches each extent is stamped within the counter of its
node. A scrub pass that reads the extents there, and the generations there or later,
reports none. -/
theorem extents_within_counters (nodeOf : ι → NodeID) {etcd : Etcd} (hcounted : Counted etcd)
    (hstamped : Stamped etcd) {as bs : List (WriterStep ι)} {t u : Writers ι}
    (hrun : (writers nodeOf).exec (Writers.boot etcd) as = some t)
    (hlater : (writers nodeOf).exec t bs = some u) :
    Stamped t.cluster.etcd ∧
      checkGenerationConsistency (scan t.cluster.etcd u.cluster.etcd) = [] := by
  have ht : WithinCounters nodeOf t :=
    (Machine.along_true _ as).invariant (fun s a t hs _ hstep => hs.move hstep)
      (.boot hcounted hstamped) hrun
  -- What was reached when the extents were read is reached when the counters are.
  have hu : WithinCounters nodeOf u ∧ ∀ gen node, Reached t.cluster.etcd gen node →
      Reached u.cluster.etcd gen node := by
    refine (Machine.along_true _ bs).invariant (I := fun v => WithinCounters nodeOf v ∧
      ∀ gen node, Reached t.cluster.etcd gen node → Reached v.cluster.etcd gen node)
        (fun s a v hs _ hstep => ⟨hs.1.move hstep, fun gen node hr => ?_⟩)
        ⟨ht, fun _ _ hr => hr⟩ hlater
    exact (hs.2 gen node hr).advance (hs.1.advances hstep)
  refine ⟨ht.stamped, checkGenerationConsistency_eq_nil fun x hx => ?_⟩
  have hstored := mem_scan_extents hx
  obtain ⟨w, hw, hle⟩ := hu.2 _ _ (ht.stamped _ _ _ hstored)
  exact ⟨w.value, map_eq_some_iff.mpr ⟨w, hw, rfl⟩, hle⟩

theorem second_byte_bound : 1 + ([1] : List Byte).length < offsetBound := by decide

def nodeOfThree (i : Fin 3) : NodeID := if i = 2 then "b" else "a"

def splitAcrossFence : List (WriterStep (Fin 3)) :=
  let first := soloWrite false 0 [1, 2, 3] 0 three_bytes_ne three_bytes_bound
  let middle := soloWrite false 1 [1] 1 one_byte_ne second_byte_bound
  [.cluster (.other [.put (.inode 7) (regularFile 7), .put (.lock 7 .exclusive ⟨1, 1⟩) "b"]),
    .cluster (.ensure 0 .answered), .cluster (.bump "a" 0 .answered),
    .cluster (.ensure 1 .answered), .cluster (.readStart 1 true),
    .readMeta 1 7, .publish 1 (fun _ => true) first.req first.runs 4, .arrive 1 0 .lost,
    .cluster (.ensure 2 .answered), .readMeta 2 7,
    .buffer 2 (fun _ => true) middle.req middle.runs 1, .cluster (.bump "a" 1 .lost),
    .flush 2 [(7, .exclusive, ⟨1, 1⟩)], .arrive 2 0 .answered]

/-- Both pieces of the split carry the first fence's generation of node `a`, and the
pass reports nothing. -/
theorem extents_within_counters_split :
    ∃ t, (writers nodeOfThree).exec (Writers.boot Store.empty) splitAcrossFence = some t ∧
      (getExtents t.cluster.etcd 7).map (fun e => (e.gen, e.node)) =
        [(1, "a"), (1, "a"), (0, "b")] ∧
      Stamped t.cluster.etcd ∧
      checkGenerationConsistency (scan t.cluster.etcd t.cluster.etcd) = [] := by
  have hcounted : Counted Store.empty := by
    intro node
    rw [getGeneration, get_empty]
    exact Nat.zero_le _
  have hstamped : Stamped Store.empty := by
    intro ino chunk v hv
    rw [get_empty] at hv
    cases hv
  have hresult : ((writers nodeOfThree).exec (Writers.boot Store.empty) splitAcrossFence).map
      (fun t => (getExtents t.cluster.etcd 7).map fun e => (e.gen, e.node)) =
        some [(1, "a"), (1, "a"), (0, "b")] := by decide +kernel
  obtain ⟨t, ht, hextents⟩ := map_eq_some_iff.mp hresult
  have hstay : (writers nodeOfThree).exec t [] = some t := rfl
  exact ⟨t, ht, hextents, extents_within_counters nodeOfThree hcounted hstamped ht hstay⟩

end EtcFS.Correctness
