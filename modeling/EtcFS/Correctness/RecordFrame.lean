import EtcFS.Ipc.Coherence

/-!
# What publishing a write does to the inode record

A write that grows its file puts the whole record it has cached. Operations that change other fields
of the record take no inode lock.
-/

namespace EtcFS.Correctness

open EtcFS.Core Metadata Arena Ipc Option List

structure RecordState where
  file : FileState
  past : List Etcd
  writes : List WriteReq

inductive RecordStep where
  /-- `GetInodeAndExtents`, a serializable read that may be this many transactions old. -/
  | read (age : Nat)
  /-- A write joins the buffer. -/
  | buffer (a : WriteAct)
  /-- The buffer is published. -/
  | flush
  /-- A synchronous write commits, planned from the cached extents or from a fresh listing. -/
  | commit (a : WriteAct) (relist : Bool)
  /-- A setattr, link, unlink, rename or timestamp publication on the inode, from any node. -/
  | record (op : RecordOp)
  /-- Any other transaction, such as a peer's write. -/
  | other (ops : List (Op Val))

def RecordState.committed (st : RecordState) (file : FileState) (writes : List WriteReq) :
    RecordState :=
  ⟨file, st.file.etcd :: st.past, writes⟩

def recordRace (c : FileConfig) : Machine RecordState RecordStep where
  step st
    | .read age =>
      if st.file.pending.isEmpty then do
        let s ← (st.file.etcd :: st.past)[age]?
        let record ← getInode s c.ino
        pure { st with
          file := { st.file with cached := some ⟨record, getExtents s c.ino⟩ } }
      else none
    | .buffer a => (st.file.buffered c a).map fun file =>
      { st with file := file, writes := st.writes ++ [a.req] }
    | .flush => (st.file.flush c).map fun file => st.committed file []
    | .commit a relist =>
      if st.file.pending.isEmpty ∧ a.req.ino = c.ino ∧ RunsFor a.req.data.length a.runs then do
        let m ← st.file.cached
        let extents := if relist then getExtents st.file.etcd c.ino else m.extents
        let r ← publishWrite c.node a.req a.runs m.record extents st.file.etcd
        pure (st.committed (st.file.afterCommit c a m.record extents r) [])
      else none
    | .record op => (op.commit c.ino st.file.etcd).map fun etcd =>
      st.committed { st.file with etcd := etcd } st.writes
    | .other ops => some (st.committed { st.file with etcd := st.file.etcd.commit ops } st.writes)

def SameFrame (r r' : InodeRecord) : Prop :=
  { r with size := 0, mode := 0 } = { r' with size := 0, mode := 0 }

def DropsOnly (writes : List WriteReq) (mode mode' : UInt32) : Prop :=
  mode' = mode ∨ ∃ w ∈ writes, mode' = clearSetIDOnWrite mode w.uid

def KeepsFrame (writes : List WriteReq) (before after : Option InodeRecord) : Prop :=
  after = before ∨ ∃ r r', before = some r ∧ after = some r' ∧ SameFrame r r' ∧
    DropsOnly writes r.mode r'.mode

def FramesRecord (c : FileConfig) (s : RecordState) (step : RecordStep) (t : RecordState) : Prop :=
  match step with
  | .flush => KeepsFrame s.writes (getInode s.file.etcd c.ino) (getInode t.file.etcd c.ino)
  | .commit a _ => KeepsFrame [a.req] (getInode s.file.etcd c.ino) (getInode t.file.etcd c.ino)
  | _ => True

def RecordStands (c : FileConfig) (s : RecordState) (cached : InodeRecord)
    (writes : List WriteReq) (mode : UInt32) : Prop :=
  ∃ r, getInode s.file.etcd c.ino = some r ∧ SameFrame r cached ∧ DropsOnly writes r.mode mode

def RecordUnmoved (c : FileConfig) (s : RecordState) (step : RecordStep) : Prop :=
  ∀ m, s.file.cached = some m →
    match step with
    | .flush => effect (.inode c.ino) s.file.pending.ops ≠ none →
      RecordStands c s m.record s.writes m.record.mode
    | .commit a _ => PutsRecord a.req m.record →
      RecordStands c s m.record [a.req] (clearSetIDOnWrite m.record.mode a.req.uid)
    | _ => True

/-! ## The record of the buffer -/

structure RecordInv (c : FileConfig) (st : RecordState) : Prop where
  keys_nodup : (st.file.pending.ops.map Op.key).Nodup
  record : effect (.inode c.ino) st.file.pending.ops ≠ none →
    ∃ m, st.file.cached = some m ∧
      effect (.inode c.ino) st.file.pending.ops = some (some m.record)

section

variable {c : FileConfig} {s t : RecordState}

theorem RecordInv.of_empty {st : RecordState} (h : st.file.pending.ops = []) : RecordInv c st where
  keys_nodup := by
    rw [h]
    exact nodup_nil
  record := by
    intro hne
    rw [h] at hne
    exact absurd rfl hne

theorem RecordInv.congr {st st' : RecordState} (h : RecordInv c st)
    (hp : st'.file.pending = st.file.pending) (hm : st'.file.cached = st.file.cached) :
    RecordInv c st' where
  keys_nodup := by
    rw [hp]
    exact h.keys_nodup
  record := by
    rw [hp, hm]
    exact h.record

/-- What a synchronous commit finds and what it leaves. -/
theorem commit_eq {a : WriteAct} {relist : Bool}
    (hstep : (recordRace c).step s (.commit a relist) = some t) :
    ∃ m existing r, s.file.cached = some m ∧ s.file.pending.ops = [] ∧ a.req.ino = c.ino ∧
      RunsFor a.req.data.length a.runs ∧
      publishWrite c.node a.req a.runs m.record existing s.file.etcd = some r ∧
      getInode r.etcd c.ino = (if PutsRecord a.req m.record then some (updatedRecord a.req m.record)
        else getInode s.file.etcd c.ino) ∧
      t = s.committed (s.file.afterCommit c a m.record existing r) [] := by
  obtain ⟨⟨hempty, hino, hr⟩, hstep⟩ := ite_none_right_eq_some.mp hstep
  obtain ⟨m, hm, hstep⟩ := bind_eq_some_iff.mp hstep
  obtain ⟨r, hpub, hstep⟩ := bind_eq_some_iff.mp hstep
  exact ⟨m, _, r, hm, Pending.isEmpty_iff.mp hempty, hino, hr, hpub,
    hino ▸ publishWrite_getInode hr hpub, (some.inj hstep).symm⟩

theorem RecordInv.buffer (h : RecordInv c s) {a : WriteAct}
    (hstep : (recordRace c).step s (.buffer a) = some t) : RecordInv c t := by
  obtain ⟨file, hb, rfl⟩ := map_eq_some_iff.mp hstep
  obtain ⟨m, replay, hm, -, -, -, -, hreplay, rfl⟩ := buffered_eq hb
  obtain ⟨hnodup, hops⟩ := foldl_setOp h.keys_nodup
    (proposal c.node a.req a.runs m.record m.extents).ops
  refine ⟨hnodup, fun hne => ⟨replay.apply m 0, ?_, ?_⟩⟩
  · simp only [FileState.bufferWrite, hm, map_some]
  · refine (hops (.inode c.ino)).trans ?_
    have hne := fun hnone => hne ((hops (.inode c.ino)).trans hnone)
    rw [effect_append] at hne ⊢
    rcases replayTxn_record hreplay with ⟨hnone, hsame⟩ | hput
    · rw [hnone, none_or] at hne ⊢
      obtain ⟨m', hm', heff⟩ := h.record hne
      obtain rfl : m = m' := some.inj (hm.symm.trans hm')
      exact heff.trans (congrArg (fun r => some (some r)) hsame.symm)
    · rw [hput, some_or]
      rfl

theorem keepsFrame_put_iff {m rec : InodeRecord} {writes : List WriteReq}
    (hframe : SameFrame m rec) : KeepsFrame writes (getInode s.file.etcd c.ino) (some rec) ↔
      RecordStands c s m writes rec.mode := by
  constructor
  · rintro (hsame | ⟨r, r', hr, hr', hf, hmode⟩)
    · exact ⟨rec, hsame.symm, hframe.symm, .inl rfl⟩
    · cases hr'
      exact ⟨r, hr, hf.trans hframe.symm, hmode⟩
  · rintro ⟨r, hr, hf, hmode⟩
    exact .inr ⟨r, rec, hr, rfl, hf.trans hframe, hmode⟩

theorem flush_getInode {st st' : FileState} (h : st.flush c = some st') :
    getInode st'.etcd c.ino = getInode st.shown c.ino ∧ st'.pending.ops = [] := by
  unfold FileState.flush at h
  split at h
  · rename_i hempty
    cases h
    have hops := Pending.isEmpty_iff.mp hempty
    exact ⟨congrArg (Option.map Versioned.value) (get_shown_of_empty hops _).symm, hops⟩
  · obtain ⟨etcd, htxn, rfl⟩ := map_eq_some_iff.mp h
    refine ⟨?_, rfl⟩
    rw [FileState.flushCommitted, (Store.txn_eq_some_iff.mp htxn).2]
    rfl

theorem flush_frames_iff (h : RecordInv c s) (hstep : (recordRace c).step s .flush = some t) :
    FramesRecord c s .flush t ↔ RecordUnmoved c s .flush := by
  obtain ⟨file, hflush, rfl⟩ := map_eq_some_iff.mp hstep
  obtain ⟨hrec, -⟩ := flush_getInode hflush
  have hafter : getInode (s.committed file []).file.etcd c.ino = getInode s.file.shown c.ino := hrec
  rw [FramesRecord, hafter, getInode, getInode, get_shown]
  by_cases hnone : effect (.inode c.ino) s.file.pending.ops = none
  · rw [hnone]
    exact ⟨fun _ _ _ hne => absurd hnone hne, fun _ => .inl rfl⟩
  · obtain ⟨m, hm, heff⟩ := h.record hnone
    rw [heff]
    refine (keepsFrame_put_iff rfl).trans ⟨fun hs m' hm' _ => ?_, fun hs => hs m hm hnone⟩
    obtain rfl : m = m' := some.inj (hm.symm.trans hm')
    exact hs

theorem commit_frames_iff {a : WriteAct} {relist : Bool}
    (hstep : (recordRace c).step s (.commit a relist) = some t) :
    FramesRecord c s (.commit a relist) t ↔ RecordUnmoved c s (.commit a relist) := by
  obtain ⟨m, existing, r, hm, -, -, -, -, hafter, rfl⟩ := commit_eq hstep
  have hunmoved : RecordUnmoved c s (.commit a relist) ↔ (PutsRecord a.req m.record →
      RecordStands c s m.record [a.req] (clearSetIDOnWrite m.record.mode a.req.uid)) := by
    refine ⟨fun h => h m hm, fun h m' hm' => ?_⟩
    obtain rfl : m = m' := some.inj (hm.symm.trans hm')
    exact h
  rw [hunmoved]
  refine Iff.trans (b := KeepsFrame [a.req] (getInode s.file.etcd c.ino)
    (getInode r.etcd c.ino)) Iff.rfl ?_
  rw [hafter]
  by_cases hput : PutsRecord a.req m.record
  · rw [if_pos hput]
    exact (keepsFrame_put_iff rfl).trans ⟨fun h _ => h, fun h => h hput⟩
  · rw [if_neg hput]
    exact ⟨fun _ h => absurd h hput, fun _ => .inl rfl⟩

theorem RecordInv.step (h : RecordInv c s) {step : RecordStep}
    (hstep : (recordRace c).step s step = some t) : RecordInv c t := by
  cases step with
  | read age =>
    obtain ⟨hempty, hstep⟩ := ite_none_right_eq_some.mp hstep
    obtain ⟨s₀, -, hstep⟩ := bind_eq_some_iff.mp hstep
    obtain ⟨record, -, hstep⟩ := bind_eq_some_iff.mp hstep
    cases hstep
    exact RecordInv.of_empty (Pending.isEmpty_iff.mp hempty)
  | buffer a => exact h.buffer hstep
  | flush =>
    obtain ⟨file, hflush, rfl⟩ := map_eq_some_iff.mp hstep
    exact RecordInv.of_empty (flush_getInode hflush).2
  | commit a relist =>
    obtain ⟨m, existing, r, -, hops, -, -, -, -, rfl⟩ := commit_eq hstep
    exact RecordInv.of_empty hops
  | record op =>
    obtain ⟨etcd, -, rfl⟩ := map_eq_some_iff.mp hstep
    exact h.congr rfl rfl
  | other ops =>
    cases hstep
    exact h.congr rfl rfl

end

/-- From an entry with an empty buffer and whatever store, a run of writes,
flushes and record changes keeps the frame of the record at every publication
exactly when at every publication the record stands. -/
theorem along_framesRecord_iff {c : FileConfig} {s : RecordState}
    (hempty : s.file.pending.ops = []) (steps : List RecordStep) :
    (recordRace c).Along (FramesRecord c) s steps ↔
      (recordRace c).Along (fun s step _ => RecordUnmoved c s step) s steps := by
  have hinv : RecordInv c s := RecordInv.of_empty hempty
  refine Machine.along_iff (fun s step t h _ hstep => h.step hstep) ?_ hinv steps
  intro s step t h hstep
  cases step with
  | flush => exact flush_frames_iff h hstep
  | commit a relist => exact commit_frames_iff hstep
  | read | buffer | record | other =>
    simp only [FramesRecord, RecordUnmoved, implies_true]

/-! ## A link is lost -/

def soloEntry : RecordState := ⟨soloFile, [], []⟩

def linkUnderWrite : List RecordStep :=
  [.read 0, .buffer (soloWrite false 0 [1] 0 one_byte_ne one_byte_bound), .record (.link 5), .flush]

/-- The equivalence at the run that links the file under a buffered write. -/
theorem along_framesRecord_linkUnderWrite :
    (recordRace soloConfig).Along (FramesRecord soloConfig) soloEntry linkUnderWrite ↔
      (recordRace soloConfig).Along (fun s step _ => RecordUnmoved soloConfig s step) soloEntry
        linkUnderWrite :=
  along_framesRecord_iff rfl linkUnderWrite

/-- The flush puts the record as it was before the link: its link count is one
again, with two names in the namespace. -/
theorem link_reverted :
    ∃ s t, (recordRace soloConfig).exec soloEntry (linkUnderWrite.take 3) = some s ∧
      (recordRace soloConfig).step s .flush = some t ∧
      (getInode s.file.etcd soloConfig.ino).map InodeRecord.nlink = some 2 ∧
      (getInode t.file.etcd soloConfig.ino).map InodeRecord.nlink = some 1 ∧
      ¬ FramesRecord soloConfig s .flush t := by
  have hrun : ((recordRace soloConfig).exec soloEntry (linkUnderWrite.take 3)).bind (fun s =>
      ((recordRace soloConfig).step s .flush).map fun t =>
        ((getInode s.file.etcd soloConfig.ino).map InodeRecord.nlink,
          (getInode t.file.etcd soloConfig.ino).map InodeRecord.nlink)) =
      some (some 2, some 1) := by
    decide +kernel
  obtain ⟨s, hs, hrun⟩ := bind_eq_some_iff.mp hrun
  obtain ⟨t, ht, hlinks⟩ := map_eq_some_iff.mp hrun
  obtain ⟨hbefore, hafter⟩ := Prod.mk.inj hlinks
  refine ⟨s, t, hs, ht, hbefore, hafter, ?_⟩
  rintro (hsame | ⟨r, r', hr, hr', hframe, -⟩)
  · have hlink := congrArg (Option.map InodeRecord.nlink) hsame
    rw [hbefore, hafter] at hlink
    cases hlink
  · rw [hr] at hbefore
    rw [hr'] at hafter
    simp only [SameFrame, InodeRecord.mk.injEq] at hframe
    rw [map_some, Option.some.injEq] at hbefore hafter
    have hlink : r.nlink = r'.nlink := by tauto
    rw [hbefore, hafter] at hlink
    exact absurd hlink (by decide)

end EtcFS.Correctness
