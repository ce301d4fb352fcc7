import EtcFS.Ipc.Coherence

/-!
# The stages of a write

A property that every stage of a write keeps holds after the write, whichever path it takes.
-/

namespace EtcFS.Ipc

open EtcFS.Core Metadata Arena List Option Core.Store

inductive Phase where
  | idle
  | reserved
  | loaded
  | done
  deriving DecidableEq

structure WriteRule (c : FileConfig) (a : WriteAct) (I : Phase → FileState → Prop) : Prop where
  flush : ∀ {p st st'}, p ≠ .done → I p st → Flushed c st st' → I p st'
  cache : ∀ {p st} (m : Option InodeMeta), I p st → I p { st with cached := m }
  reserve : ∀ {st}, I .idle st → MayAllocate st.allocated a.req.data.length a.runs →
    I .reserved (st.reserve a.blocks)
  load : ∀ {st}, I .reserved st → I .loaded (st.writeThrough a false)
  unload : ∀ {st}, I .loaded st → I .reserved st
  hold : ∀ {st st'}, I .reserved st → Buffered c a (bufferedPayload a.req a.runs) st st' →
    I .done st'
  buffer : ∀ {st st'}, I .loaded st → Buffered c a [] st st' → I .done st'
  commit : ∀ {st st' blocks}, I .loaded st → st.pending = .none → Committed c a blocks st st' →
    I .done st'

def Phase.ofWritten (written : Bool) : Phase := if written then .loaded else .reserved

section

variable {c : FileConfig} {a : WriteAct} {I : Phase → FileState → Prop} {st : FileState}
  {m : InodeMeta}

variable {written : Bool}

theorem WriteRule.writeThrough (R : WriteRule c a I)
    (hI : I (.ofWritten written) st) : I .loaded (st.writeThrough a written) := by
  cases written with
  | true => exact hI
  | false => exact R.load hI

theorem WriteRule.toReserved (R : WriteRule c a I)
    (hI : I (.ofWritten written) st) : I .reserved st := by
  cases written with
  | true => exact R.unload hI
  | false => exact hI

theorem writeThrough_coherent (h : Coherent c st) (written : Bool) :
    Coherent c (st.writeThrough a written) := by
  cases written with
  | true => exact h
  | false => exact h.congr rfl rfl rfl rfl

theorem commitWriteOp_spec (R : WriteRule c a I) (hino : a.req.ino = c.ino)
    (hr : RunsFor a.req.data.length a.runs) (h : Coherent c st) (hm : Snapshot c st m)
    (hI : I (.ofWritten written) st) :
    ∃ st', st.commitWriteOp c a m written = some st' ∧ Coherent c st' ∧ I .done st' := by
  -- Both branches commit from the listing, with nothing buffered.
  have hfinish : ∀ u : FileState, Coherent c u → u.pending = .none →
      getInode u.etcd c.ino = some m.record → I (.ofWritten written) u →
      ∃ st', (u.writeThrough a written).commitWrite c a m.record (getExtents u.etcd c.ino) =
        some st' ∧ Coherent c st' ∧ I .done st' := by
    intro u hu hp hrec hIu
    have hetcd : (u.writeThrough a written).etcd = u.etcd := by cases written <;> rfl
    have hpend : (u.writeThrough a written).pending = .none := by cases written <;> exact hp
    obtain ⟨st', blocks, hst', hcoh, hcom⟩ := commitWrite_spec
      (writeThrough_coherent (a := a) hu written) hpend (hetcd ▸ hrec) hino hr
    exact ⟨st', hetcd ▸ hst', hcoh, R.commit (R.writeThrough hIu) hpend hcom⟩
  by_cases hp : st.pending.ops = []
  · have hnone := h.emptied hp
    rw [FileState.commitWriteOp, if_pos (Pending.isEmpty_iff.mpr hp), hm.extents_eq hp]
    refine hfinish st h hnone ?_ hI
    rw [← hm.record, getInode, getInode, get_shown_of_empty hp]
  · obtain ⟨u, hu, hflushed⟩ := flush_spec h
    rw [FileState.commitWriteOp, if_neg fun he => hp (Pending.isEmpty_iff.mp he), hu, bind_some]
    refine hfinish u hflushed.coherent hflushed.pending ?_ (R.flush ?_ hI hflushed)
    · rw [← hm.record, getInode, getInode, hflushed.get]
    · cases written <;> simp [Phase.ofWritten]

theorem bufferWriteOp_spec (R : WriteRule c a I) (hino : a.req.ino = c.ino)
    (hr : RunsFor a.req.data.length a.runs) {attempts : Nat}
    (h : Coherent c st) (hcached : st.cached = some m) (hI : I (.ofWritten written) st)
    (hlast : attempts = 0 → st.pending.ops = []) :
    ∃ st', FileState.bufferWriteOp c a (attempts + 1) st m written = some st' ∧
      Coherent c st' ∧ I .done st' := by
  induction attempts using Nat.strong_induction_on generalizing st m written with
  | _ attempts ih =>
    have hm := h.cached m hcached
    have hcommit := commitWriteOp_spec R hino hr h hm hI
    rw [FileState.bufferWriteOp]
    split
    · exact hcommit
    · rename_i hpath
      have hdef : (proposal c.node a.req a.runs m.record m.extents).deferredReclaim = [] := by
        by_contra hne
        exact hpath (.inr (.inr hne))
      split
      · exact hcommit
      · rename_i replay hreplay
        -- The payload is on the device by now unless this attempt keeps it in RAM.
        have hu : Coherent c (st.writeThrough a (written || a.hold attempts)) :=
          writeThrough_coherent h _
        have hpend : (st.writeThrough a (written || a.hold attempts)).pending = st.pending := by
          cases written <;> cases a.hold attempts <;> rfl
        have hcach : (st.writeThrough a (written || a.hold attempts)).cached = some m := by
          rw [← hcached]
          cases written <;> cases a.hold attempts <;> rfl
        have hIu : I (.ofWritten (written || !a.hold attempts))
            (st.writeThrough a (written || a.hold attempts)) := by
          cases written with
          | true => exact hI
          | false =>
            cases a.hold attempts with
            | true => exact hI
            | false => exact R.load hI
        dsimp only
        revert hu hpend hcach hIu
        generalize st.writeThrough a (written || a.hold attempts) = u
        intro hu hpend hcach hIu
        split
        · rename_i hfull
          have hne : attempts ≠ 0 := by
            intro h0
            have hemp := Pending.isEmpty_iff.mpr (hlast h0)
            rw [← hpend, hfull.1] at hemp
            cases hemp
          obtain ⟨k, rfl⟩ := Nat.exists_eq_succ_of_ne_zero hne
          obtain ⟨v, hv, hflushed⟩ := flush_spec hu
          obtain ⟨m', hm', hsnap⟩ := inodeMeta_spec hflushed.coherent
          have hIv := R.flush (by cases written <;> cases a.hold (k + 1) <;> simp [Phase.ofWritten])
            hIu hflushed
          simp only [hv, hm', bind_eq_bind, bind_some]
          refine ih k (Nat.lt_succ_self k) (hflushed.coherent.withSnapshot hsnap) rfl
            (R.cache _ hIv) fun _ => ?_
          rw [hflushed.pending]
          rfl
        · obtain ⟨hplan, hbuf⟩ := bufferWrite_spec hu.toPlanning hcach hino hr hdef hreplay
            (a.heldBytes (a.hold attempts)) (a.heldData (a.hold attempts))
          refine ⟨_, rfl, ⟨hplan, hu.lock⟩, ?_⟩
          cases hhold : a.hold attempts with
          | true =>
            rw [hhold] at hIu hbuf
            exact R.hold (R.toReserved hIu) hbuf
          | false =>
            rw [hhold, Bool.not_false, Bool.or_true] at hIu
            rw [hhold] at hbuf
            exact R.buffer hIu hbuf

def Allocatable (c : FileConfig) (st : FileState) (a : WriteAct) : Prop :=
  a.req.ino = c.ino ∧
    ∀ u, st.beforeWrite c a = some u → MayAllocate u.allocated a.req.data.length a.runs

theorem write_total (R : WriteRule c a I) (h : Coherent c st) (hI : I .idle st)
    (ha : Allocatable c st a) :
    ∃ st', st.write c a = some st' ∧ Coherent c st' ∧ I .done st' := by
  obtain ⟨hino, halloc⟩ := ha
  obtain ⟨u, hu, hcoh, hIu⟩ : ∃ u, st.beforeWrite c a = some u ∧ Coherent c u ∧ I .idle u := by
    unfold FileState.beforeWrite
    split
    · obtain ⟨u, hu, hflushed⟩ := flush_spec h
      exact ⟨u, hu, hflushed.coherent, R.flush (by simp) hI hflushed⟩
    · exact ⟨st, rfl, h, hI⟩
  obtain ⟨m, hm, hsnap⟩ := inodeMeta_spec hcoh
  have hmay := halloc u hu
  have hreserved : Coherent c (({ u with cached := some m } : FileState).reserve a.blocks) :=
    (hcoh.withSnapshot hsnap).congr rfl rfl rfl rfl
  obtain ⟨st', hst', hdone⟩ : ∃ st', FileState.bufferWriteOp c a 2
      (({ u with cached := some m } : FileState).reserve a.blocks) m false = some st' ∧
        Coherent c st' ∧ I .done st' :=
    bufferWriteOp_spec R hino hmay.1 hreserved rfl (R.reserve (R.cache (some m) hIu) hmay)
      (by simp)
  refine ⟨st', ?_, hdone⟩
  rw [FileState.write, if_pos hino]
  simp only [hu, hm, bind_eq_bind, bind_some, if_pos hmay]
  exact hst'

theorem write_spec (R : WriteRule c a I) (h : Coherent c st) (hI : I .idle st) {st' : FileState}
    (hw : st.write c a = some st') : Coherent c st' ∧ I .done st' := by
  have ha : Allocatable c st a := by
    simp only [FileState.write, ite_none_right_eq_some, bind_eq_bind, bind_eq_some_iff] at hw
    obtain ⟨hino, u, hu, ⟨m, v⟩, hm, hmay, -⟩ := hw
    refine ⟨hino, fun u' hu' => ?_⟩
    obtain rfl : u = u' := some.inj (hu.symm.trans hu')
    have hv : v.allocated = u.allocated := by
      unfold FileState.inodeMeta at hm
      split at hm
      · obtain ⟨-, rfl⟩ := Prod.mk.inj (some.inj hm)
        rfl
      · split at hm
        · obtain ⟨rec, -, hrec⟩ := map_eq_some_iff.mp hm
          obtain ⟨-, rfl⟩ := Prod.mk.inj hrec
          rfl
        · cases hm
    exact hv ▸ hmay
  obtain ⟨t, ht, hdone⟩ := write_total R h hI ha
  rw [hw] at ht
  exact some.inj ht ▸ hdone

end

/-! ## Recall, truncate and punch -/

section

variable {c : FileConfig} {st : FileState}

structure Unchanged (c : FileConfig) (st st' : FileState) : Prop where
  pending : st'.pending = .none
  live : st'.live c = st.live c
  device : st'.device = st.device
  allocated : st'.allocated = st.allocated
  freed : st'.freed = st.freed
  coherent : Coherent c st'

structure Cut (c : FileConfig) (start stop : Nat) (blocks : List Nat) (st st' : FileState) :
    Prop where
  pending : st'.pending = .none
  perm : (st'.live c).Perm ((st.live c).flatMap (cutBy c.node start stop))
  allocated : st'.allocated = release st.allocated blocks
  freed : st'.freed = st.freed ++ blocks
  plans : ∀ b ∈ blocks, ∃ e ∈ st.live c, e.Overlaps start stop ∧ b ∈ givenUpBlocks start stop e
  coherent : Coherent c st'

theorem coherent_of_idle (hp : st.pending = .none) (hc : st.cached = none)
    (hlock : (st.etcd.get (.lock c.ino .exclusive st.holder)).isSome = true)
    (hfile : ∃ rec, getInode st.etcd c.ino = some rec) : Coherent c st := by
  have hempty : st.pending.ops = [] := by rw [hp]; rfl
  refine ⟨⟨?_, by rw [hempty]; exact nodup_nil, ?_, ?_, ?_, fun _ => hempty, fun _ => hp⟩, hlock⟩
  · obtain ⟨rec, hrec⟩ := hfile
    exact ⟨rec, by rw [getInode, get_shown_of_empty hempty, ← getInode, hrec]⟩
  · rw [hempty]
    exact fun k hk => absurd rfl hk
  · rw [hp]
    exact fun x hx => absurd hx not_mem_nil
  · intro m hm
    rw [hc] at hm
    cases hm

theorem Flushed.empty {st' : FileState} (h : Flushed c st st') : st'.pending.ops = [] := by
  rw [h.pending]
  rfl

theorem Flushed.getInode {st' : FileState} (h : Flushed c st st') :
    ∃ rec, Metadata.getInode st'.etcd c.ino = some rec := by
  obtain ⟨rec, hrec⟩ := h.coherent.file
  rw [Metadata.getInode, get_shown_of_empty h.empty] at hrec
  exact ⟨rec, hrec⟩

theorem recall_spec (h : Coherent c st) (next : Holder) :
    ∃ u st', Flushed c st u ∧ st.recall c next = some st' ∧ Unchanged c u st' ∧
      getInode st'.shown c.ino = getInode u.shown c.ino := by
  obtain ⟨u, hu, hflushed⟩ := flush_spec h
  refine ⟨u, _, hflushed, by rw [FileState.recall, hu, map_some], ?_⟩
  have hget : ∀ k, (∀ holder, k ≠ .lock c.ino .exclusive holder) →
      ((u.etcd.commit [.delete (.lock c.ino .exclusive u.holder)]).commit
        [.put (.lock c.ino .exclusive next) c.node.id]).get k = u.etcd.get k := by
    intro k hk
    rw [get_commit_of_untouched, get_commit_of_untouched]
    · intro op hop
      rw [mem_singleton.mp hop]
      exact (hk _).symm
    · intro op hop
      rw [mem_singleton.mp hop]
      exact (hk _).symm
  refine ⟨⟨hflushed.pending, ?_, rfl, rfl, rfl, coherent_of_idle hflushed.pending rfl ?_ ?_⟩, ?_⟩
  · rw [live_of_empty hflushed.empty, live_of_empty (by exact hflushed.empty)]
    exact congrArg (map Extent.toExtentValue) (getExtents_congr fun _ => hget _ (by simp))
  · rw [get_commit]
    simp [effect]
  · obtain ⟨rec, hrec⟩ := hflushed.getInode
    exact ⟨rec, by rw [getInode, hget _ (by simp)]; exact hrec⟩
  · rw [getInode, getInode, get_shown_of_empty (by exact hflushed.empty),
      get_shown_of_empty hflushed.empty, hget _ (by simp)]

theorem cut_of_reclaimed {start stop : Nat} {r : Pass} (h : Coherent c st)
    (hp : st.pending = .none) (hr : Reclaimed c.node c.ino start stop st.etcd r) {etcd : Etcd}
    (hext : ∀ chunk, etcd.get (.extent c.ino chunk) = r.etcd.get (.extent c.ino chunk))
    (hlock : ∀ holder, etcd.get (.lock c.ino .exclusive holder) =
      r.etcd.get (.lock c.ino .exclusive holder))
    (hfile : ∃ rec, getInode etcd c.ino = some rec) :
    Cut c start stop r.freed st (st.afterPass { r with etcd := etcd }) := by
  have hempty : st.pending.ops = [] := by rw [hp]; rfl
  have hlive : st.live c = extentsOf st.etcd c.ino := live_of_empty hempty
  refine ⟨hp, ?_, rfl, rfl, ?_, coherent_of_idle hp rfl ?_ hfile⟩
  · rw [live_of_empty (by exact hempty), hlive]
    have hsame : extentsOf etcd c.ino = extentsOf r.etcd c.ino :=
      congrArg (map Extent.toExtentValue) (getExtents_congr hext)
    have hcontents := (contents_eq_getExtents r.etcd c.ino).symm.trans hr.contents
    rw [piecesOf, Multiset.coe_eq_coe] at hcontents
    rw [show (st.afterPass { r with etcd := etcd }).etcd = etcd from rfl, hsame, extentsOf,
      extentsOf, flatMap_map]
    exact hcontents
  · intro b hb
    obtain ⟨e, he, hov, -, hg⟩ := hr.freed b hb
    rw [hlive]
    exact ⟨_, mem_map_of_mem he, hov, hg⟩
  · have hsame := (hlock st.holder).trans (hr.frame _ (by simp))
    exact (congrArg isSome hsame).trans h.lock

theorem punch_spec (h : Coherent c st) {offset length : Nat}
    (hlen : 0 < length ∧ offset + length < offsetBound) :
    ∃ u st' blocks, Flushed c st u ∧ st.punch c offset length = some st' ∧
      Cut c offset (offset + length) blocks u st' := by
  obtain ⟨u, hu, hflushed⟩ := flush_spec h
  have hr := punchHole_reclaimed c.node c.ino offset (offset + length) u.etcd
  refine ⟨u, _, _, hflushed, ?_, cut_of_reclaimed hflushed.coherent hflushed.pending hr
    (fun _ => rfl) (fun _ => rfl) ?_⟩
  · rw [FileState.punch, if_pos hlen, hu, bind_eq_bind, bind_some]
    exact if_neg (by simp [hr.failed])
  · obtain ⟨rec, hrec⟩ := hflushed.getInode
    exact ⟨rec, by rw [getInode, hr.frame _ (by simp)]; exact hrec⟩

theorem setattr_spec (h : Coherent c st) {valid : UInt32} (f : SetattrFields) (now : Time)
    (queued : Option TimeUpdate) (hsel : Selects valid fattrSize)
    (hin : ∀ e ∈ st.live c, e.logOff < maxOffset) :
    ∃ u st', Flushed c st u ∧ st.setattr c valid f now queued = some st' ∧
      ((∃ blocks, Cut c f.size maxOffset blocks u st') ∨ Unchanged c u st') := by
  obtain ⟨u, hu, hflushed⟩ := flush_spec h
  obtain ⟨rec, hrec⟩ := hflushed.getInode
  have hin' : ∀ e ∈ getExtents u.etcd c.ino, e.logOff < maxOffset := by
    intro e he
    refine hin e.toExtentValue ?_
    rw [← hflushed.live_eq, live_of_empty hflushed.empty]
    exact mem_map_of_mem he
  -- The record is where the pass found it, so the pinned put goes in.
  have hput : ∀ (r : Pass) (v : InodeRecord), (∀ k, (∀ x, k ≠ .extent c.ino x) →
      r.etcd.get k = u.etcd.get k) →
      r.etcd.txn [.modRevisionEq (.inode c.ino) (u.etcd.modRevision (.inode c.ino))]
        [.put (.inode c.ino) v] = some (r.etcd.commit [.put (.inode c.ino) v]) := by
    intro r v hframe
    refine txn_of_holds _ fun x hx => ?_
    rw [mem_singleton.mp hx, holds_modRevisionEq, Store.modRevision, Store.modRevision,
      hframe _ (by simp)]
  have hother : ∀ (r : Pass) (v : InodeRecord) (k : Key), k ≠ .inode c.ino →
      (r.etcd.commit [.put (.inode c.ino) v]).get k = r.etcd.get k := by
    intro r v k hk
    refine get_commit_of_untouched fun op hop => ?_
    rw [mem_singleton.mp hop]
    exact hk.symm
  have hnew : ∀ (r : Pass) (v : InodeRecord),
      getInode (r.etcd.commit [.put (.inode c.ino) v]) c.ino = some v := by
    intro r v
    rw [getInode, get_commit]
    simp [effect]
  rw [FileState.setattr, if_pos hsel, hu]
  simp only [bind_eq_bind, bind_some, hrec]
  generalize (queued.map fun x => x.apply rec).getD rec = record
  by_cases hsmall : f.size < record.size
  · have hr := truncate_reclaimed c.node f.size hin'
    have hcut : Cut c f.size maxOffset _ u (u.afterPass { truncate c.node c.ino f.size u.etcd with
        etcd := (truncate c.node c.ino f.size u.etcd).etcd.commit
          [.put (.inode c.ino) (applySetattr record valid f now)] }) :=
      cut_of_reclaimed hflushed.coherent hflushed.pending hr (fun _ => hother _ _ _ (by simp))
        (fun _ => hother _ _ _ (by simp)) ⟨_, hnew _ _⟩
    refine ⟨u, _, hflushed, ?_, .inl ⟨_, hcut⟩⟩
    rw [if_pos hsmall, if_neg (by simp [hr.failed]), hput _ _ hr.frame, map_some]
  · refine ⟨u, u.afterPass ⟨u.etcd.commit [.put (.inode c.ino) (applySetattr record valid f now)],
      0, [], false⟩, hflushed, ?_, .inr ?_⟩
    · rw [if_neg hsmall, if_neg (by simp), hput _ _ (fun _ _ => rfl), map_some]
    · refine ⟨hflushed.pending, ?_, rfl, ?_, append_nil _,
        coherent_of_idle hflushed.pending rfl ?_ ⟨_, hnew ⟨u.etcd, 0, [], false⟩ _⟩⟩
      · rw [live_of_empty hflushed.empty, live_of_empty (by exact hflushed.empty)]
        exact congrArg (map Extent.toExtentValue)
          (getExtents_congr fun _ => hother ⟨u.etcd, 0, [], false⟩ _ _ (by simp))
      · funext b
        simp [FileState.afterPass, FileState.free, release]
      · have hsame := hother ⟨u.etcd, 0, [], false⟩ (applySetattr record valid f now)
          (.lock c.ino .exclusive u.holder) (by simp)
        exact (congrArg isSome hsame).trans hflushed.coherent.lock

structure Opened (c : FileConfig) (st : FileState) : Prop where
  pending : st.pending = .none
  cached : st.cached = none
  lock : (st.etcd.get (.lock c.ino .exclusive st.holder)).isSome = true
  file : ∃ rec, getInode st.etcd c.ino = some rec
  extents : getExtents st.etcd c.ino = []
  freed : st.freed = []

theorem Opened.coherent (h : Opened c st) : Coherent c st :=
  coherent_of_idle h.pending h.cached h.lock h.file

theorem soloFile_opened : Opened soloConfig soloFile where
  pending := rfl
  cached := rfl
  lock := by decide
  file := ⟨regularFile 7, by decide⟩
  extents := by decide
  freed := rfl

end

/-! ## What is buffered after a write -/

section

variable {c : FileConfig} {a : WriteAct} {st t : FileState} {P : Pending → Prop}

theorem inodeMeta_pending {m : InodeMeta} (h : st.inodeMeta c = some (m, t)) :
    t.pending = st.pending := by
  unfold FileState.inodeMeta at h
  split at h
  · cases h
    rfl
  · obtain ⟨-, h⟩ := ite_none_right_eq_some.mp h
    obtain ⟨rec, -, h⟩ := map_eq_some_iff.mp h
    cases h
    rfl

theorem writeThrough_pending (st : FileState) (a : WriteAct) (written : Bool) :
    (st.writeThrough a written).pending = st.pending := by
  cases written <;> rfl

theorem commitWrite_pending {rec : InodeRecord} {existing : List Extent}
    (h : st.commitWrite c a rec existing = some t) : t.pending = st.pending := by
  rcases or_eq_some_iff.mp h with h | ⟨-, h⟩ <;>
    · obtain ⟨r, -, rfl⟩ := map_eq_some_iff.mp h
      rfl

theorem flush_pending (hnone : P .none) (hst : P st.pending) (h : st.flush c = some t) :
    P t.pending := by
  unfold FileState.flush at h
  split at h
  · cases h
    exact hst
  · obtain ⟨etcd, -, rfl⟩ := map_eq_some_iff.mp h
    exact hnone

theorem commitWriteOp_pending (hnone : P .none) {m : InodeMeta} {written : Bool}
    (hst : P st.pending) (h : st.commitWriteOp c a m written = some t) : P t.pending := by
  unfold FileState.commitWriteOp at h
  split at h
  · rwa [commitWrite_pending h, writeThrough_pending]
  · obtain ⟨u, hu, h⟩ := bind_eq_some_iff.mp h
    rw [commitWrite_pending h, writeThrough_pending]
    exact flush_pending hnone hst hu

/-- A property of the buffer that holds of the empty one and that a write keeps where
it joins its proposal holds after every write. -/
theorem write_pending (hnone : P .none)
    (hjoin : ∀ (u : FileState) (m : InodeMeta) replay bytes data, P u.pending →
      ¬u.Full c (proposal c.node a.req a.runs m.record m.extents) bytes →
        P (u.bufferWrite a (proposal c.node a.req a.runs m.record m.extents) replay bytes
          data).pending)
    (hst : P st.pending) (h : st.write c a = some t) : P t.pending := by
  have hop : ∀ (attempts : Nat) {u : FileState} {m : InodeMeta} {written : Bool}, P u.pending →
      FileState.bufferWriteOp c a attempts u m written = some t → P t.pending := by
    intro attempts
    induction attempts with
    | zero => exact fun _ h => by cases h
    | succ attempts ih =>
      intro u m written hu h
      unfold FileState.bufferWriteOp at h
      dsimp only at h
      have hthrough : P (u.writeThrough a (written || a.hold attempts)).pending := by
        rwa [writeThrough_pending]
      split at h
      · exact commitWriteOp_pending hnone hu h
      split at h
      · exact commitWriteOp_pending hnone hu h
      split at h
      · obtain ⟨v, hv, h⟩ := bind_eq_some_iff.mp h
        obtain ⟨⟨m', w⟩, hw, h⟩ := bind_eq_some_iff.mp h
        refine ih ?_ h
        rw [inodeMeta_pending hw]
        exact flush_pending hnone hthrough hv
      · rename_i hfull
        cases h
        exact hjoin _ m _ _ _ hthrough hfull
  simp only [FileState.write, ite_none_right_eq_some, bind_eq_bind, bind_eq_some_iff] at h
  obtain ⟨-, u, hu, ⟨m, v⟩, hm, -, h⟩ := h
  refine hop _ ?_ h
  rw [show (v.reserve a.blocks).pending = v.pending from rfl, inodeMeta_pending hm]
  unfold FileState.beforeWrite at hu
  split at hu
  · exact flush_pending hnone hst hu
  · cases hu
    exact hst

end

end EtcFS.Ipc
