import EtcFS.Correctness.RecordFrame

/-!
# The size a reply carries

LOOKUP, GETATTR and READDIRPLUS add the buffer to the record, LINK publishes it first, and SETATTR
answers from the record alone.
-/

namespace EtcFS.Correctness

open EtcFS.Core Metadata Arena Ipc Option Core.Store List

inductive AttrCall where
  /-- The record has been read, at this revision of its key. -/
  | reading (record : InodeRecord) (rev : Nat)
  /-- A LINK has published the buffer. -/
  | linking

structure ServeState where
  race : RecordState
  acked : Nat
  calls : Nat → Option AttrCall

inductive ServeStep where
  /-- The snapshot is loaded, a write is buffered or committed, the buffer is published,
  or some transaction changes the record. -/
  | file (step : RecordStep)
  /-- The buffer is published and the lock key given up, to be taken under a new token. -/
  | recall (next : Holder)
  /-- LOOKUP, GETATTR, READDIRPLUS or SETATTR reads the record. -/
  | start (i : Nat)
  /-- A SETATTR whose record has moved reads it again. -/
  | reread (i : Nat)
  /-- LOOKUP, GETATTR or READDIRPLUS replies. -/
  | lookReply (i : Nat) (queued : Option TimeUpdate)
  /-- `deferSetattrTimes` replies. -/
  | deferReply (i : Nat) (valid : UInt32) (f : SetattrFields) (now : Time)
      (queued : Option TimeUpdate)
  /-- `commitSetattr` commits and replies. -/
  | commitReply (i : Nat) (valid : UInt32) (f : SetattrFields) (now : Time)
      (queued : Option TimeUpdate)
  /-- LINK publishes the buffer. -/
  | linkFlush (i : Nat)
  /-- `AtomicLink` commits and LINK replies. -/
  | linkReply (i : Nat) (now : Time)

def Unpublished (c : FileConfig) (st : FileState) : Prop :=
  effect (.inode c.ino) st.pending.ops ≠ none
  deriving Decidable

def setattrRecord (record : InodeRecord) (valid : UInt32) (f : SetattrFields) (now : Time)
    (queued : Option TimeUpdate) : InodeRecord :=
  applySetattr ((queued.map fun u => u.apply record).getD record) valid f now

namespace ServeState

def setCall (s : ServeState) (i : Nat) (call : Option AttrCall) : ServeState :=
  { s with calls := Function.update s.calls i call }

def readFor (c : FileConfig) (s : ServeState) (i : Nat) : Option ServeState :=
  (getInode s.race.file.etcd c.ino).map fun record =>
    s.setCall i (some (.reading record (s.race.file.etcd.modRevision (.inode c.ino))))

def answered (s : ServeState) (i : Nat) (etcd : Etcd) : ServeState :=
  { s.setCall i none with
    race := s.race.committed { s.race.file with etcd := etcd } s.race.writes }

end ServeState

def ackedAfter (acked : Nat) : RecordStep → Nat
  | .buffer a | .commit a _ => max acked a.req.stop
  | .read _ | .flush | .record _ | .other _ => acked

def KeepsSize (c : FileConfig) (s : RecordState) : RecordStep → Prop
  | .record op => ∀ r ∈ getInode s.file.etcd c.ino, ∀ r' ∈ op.apply r,
      r'.map InodeRecord.size = some r.size
  | .other _ => False
  | .read _ | .buffer _ | .flush | .commit _ _ => True

instance (c : FileConfig) (s : RecordState) (step : RecordStep) :
    Decidable (KeepsSize c s step) := by
  cases step <;> simp only [KeepsSize] <;> infer_instance

def serveFile (c : FileConfig) : Machine ServeState ServeStep where
  step s
    | .file step =>
      if KeepsSize c s.race step then
        ((recordRace c).step s.race step).map fun race =>
          { s with race := race, acked := ackedAfter s.acked step }
      else none
    | .recall next => (s.race.file.recall c next).map fun file =>
      { s with race := s.race.committed file [] }
    | .start i => s.readFor c i
    | .reread i =>
      match s.calls i with
      | some (.reading _ _) => s.readFor c i
      | _ => none
    | .lookReply i _ | .deferReply i _ _ _ _ =>
      match s.calls i with
      | some (.reading _ _) => some (s.setCall i none)
      | _ => none
    | .commitReply i valid f now queued =>
      match s.calls i with
      | some (.reading record rev) =>
        if Selects valid fattrSize then none
        else
          (s.race.file.etcd.txn [.modRevisionEq (.inode c.ino) rev]
            [.put (.inode c.ino) (setattrRecord record valid f now queued)]).map (s.answered i)
      | _ => none
    | .linkFlush i => (s.race.file.flush c).map fun file =>
      { s.setCall i (some .linking) with race := s.race.committed file [] }
    | .linkReply i now =>
      match s.calls i with
      | some .linking =>
        ((RecordOp.link now).commit c.ino s.race.file.etcd).map (s.answered i)
      | _ => none

def reply (c : FileConfig) (s : ServeState) : ServeStep → Option InodeRecord
  | .lookReply i queued =>
    match s.calls i with
    | some (.reading record _) => some (s.race.file.withPending record queued)
    | _ => none
  | .deferReply i valid f now queued | .commitReply i valid f now queued =>
    match s.calls i with
    | some (.reading record _) =>
      if Selects valid fattrSize then none
      else some (setattrRecord record valid f now queued)
    | _ => none
  | .linkReply i now =>
    match s.calls i with
    | some .linking => (getInode s.race.file.etcd c.ino).bind fun record =>
        ((RecordOp.link now).apply record).join
    | _ => none
  | .file _ | .recall _ | .start _ | .reread _ | .linkFlush _ => none

def ReportsSize (c : FileConfig) (s : ServeState) (step : ServeStep) (_ : ServeState) : Prop :=
  ∀ record ∈ reply c s step, s.acked ≤ record.size
  deriving Decidable

def storedSize (c : FileConfig) (st : FileState) : Option Nat :=
  (getInode st.etcd c.ino).map InodeRecord.size

def ReadSize (c : FileConfig) (s : ServeState) (i : Nat) : Prop :=
  ∀ call ∈ s.calls i, match call with
    | .reading record _ => storedSize c s.race.file = some record.size
    | .linking => True

instance (c : FileConfig) (s : ServeState) (i : Nat) : Decidable (ReadSize c s i) := by
  unfold ReadSize
  refine @decidableForallMem _ _ ?_ _
  intro call
  cases call <;> infer_instance

def GrowthPublished (c : FileConfig) (st : FileState) : Prop :=
  ∀ m ∈ st.cached, storedSize c st = some m.record.size
  deriving Decidable

def AnswersInFull (c : FileConfig) (s : ServeState) (step : ServeStep) (_ : ServeState) : Prop :=
  match step with
  | .file (.read age) => ∀ old ∈ (s.race.file.etcd :: s.race.past)[age]?,
      (getInode old c.ino).map InodeRecord.size = storedSize c s.race.file
  | .lookReply i _ => s.race.file.pending.isEmpty = false ∨ ReadSize c s i
  | .deferReply i _ _ _ _ => GrowthPublished c s.race.file ∧ ReadSize c s i
  | .commitReply _ _ _ _ _ | .linkReply _ _ => GrowthPublished c s.race.file
  | _ => True

instance (c : FileConfig) (s : ServeState) (step : ServeStep) (t : ServeState) :
    Decidable (AnswersInFull c s step t) := by
  unfold AnswersInFull
  split <;> infer_instance

/-! ## Where the size is -/

/-- The buffer is empty, and etcd has the size. -/
structure SizePublished (c : FileConfig) (st : FileState) (acked : Nat) : Prop where
  ops : st.pending.ops = []
  size : ∃ n, storedSize c st = some n ∧ acked ≤ n ∧ ∀ m ∈ st.cached, m.record.size = n

structure Sized (c : FileConfig) (s : RecordState) (acked : Nat) : Prop where
  inv : RecordInv c s
  held : s.file.pending.isEmpty = false → ∃ m, s.file.cached = some m
  published : ¬ Unpublished c s.file → ∃ n, storedSize c s.file = some n ∧ acked ≤ n ∧
    ∀ m ∈ s.file.cached, m.record.size = n
  unpublished : Unpublished c s.file → ∀ m ∈ s.file.cached, acked ≤ m.record.size

section

variable {c : FileConfig} {s t : RecordState} {acked : Nat}

variable {st : FileState}

theorem not_unpublished_of_empty (h : st.pending.ops = []) : ¬ Unpublished c st := by
  rw [Unpublished, h, not_not]
  rfl

theorem Sized.cached (h : Sized c s acked) {m : InodeMeta} (hm : s.file.cached = some m) :
    acked ≤ m.record.size := by
  by_cases hu : Unpublished c s.file
  · exact h.unpublished hu m hm
  · obtain ⟨n, -, hle, hsize⟩ := h.published hu
    rw [hsize m hm]
    exact hle

theorem SizePublished.sized (h : SizePublished c s.file acked) : Sized c s acked where
  inv := RecordInv.of_empty h.ops
  held := by
    intro hne
    rw [Pending.isEmpty_iff.mpr h.ops] at hne
    cases hne
  published := fun _ => h.size
  unpublished := fun hu => absurd hu (not_unpublished_of_empty h.ops)

theorem Sized.congr (h : Sized c s acked) (hp : t.file.pending = s.file.pending)
    (hm : t.file.cached = s.file.cached) (hn : storedSize c t.file = storedSize c s.file) :
    Sized c t acked where
  inv := h.inv.congr hp hm
  held := by
    rw [hp, hm]
    exact h.held
  published := by
    rw [Unpublished, hp, hn, hm]
    exact h.published
  unpublished := by
    rw [Unpublished, hp, hm]
    exact h.unpublished

theorem flush_cached {st' : FileState} (h : st.flush c = some st') :
    st'.cached.map InodeMeta.record = st.cached.map InodeMeta.record := by
  unfold FileState.flush at h
  split at h
  · cases h
    rfl
  · obtain ⟨etcd, -, rfl⟩ := map_eq_some_iff.mp h
    simp only [FileState.flushCommitted, Option.map_map]
    rfl

theorem Sized.flush (h : Sized c s acked) {file : FileState} (hf : s.file.flush c = some file) :
    SizePublished c file acked := by
  obtain ⟨hrec, hops⟩ := flush_getInode hf
  have hcached := flush_cached hf
  refine ⟨hops, ?_⟩
  have hmem : ∀ m ∈ file.cached, ∃ m₀ ∈ s.file.cached, m₀.record = m.record := by
    intro m hm
    have hsome : s.file.cached.map InodeMeta.record = some m.record := by
      rw [← hcached, show file.cached = some m from hm]
      rfl
    obtain ⟨m₀, hm₀, he⟩ := map_eq_some_iff.mp hsome
    exact ⟨m₀, hm₀, he⟩
  rw [storedSize, hrec, getInode, get_shown]
  by_cases hu : Unpublished c s.file
  · obtain ⟨m, hm, heff⟩ := h.inv.record hu
    refine ⟨m.record.size, by rw [heff]; rfl, h.unpublished hu m hm, ?_⟩
    intro m' hm'
    obtain ⟨m₀, hm₀, he⟩ := hmem m' hm'
    obtain rfl : m₀ = m := some.inj (hm₀.symm.trans hm)
    rw [he]
  · obtain ⟨n, hn, hle, hsize⟩ := h.published hu
    rw [Unpublished, not_not] at hu
    refine ⟨n, by rw [hu]; exact hn, hle, ?_⟩
    intro m' hm'
    obtain ⟨m₀, hm₀, he⟩ := hmem m' hm'
    rw [← he]
    exact hsize m₀ hm₀

theorem replay_record {n : Node} {w : WriteReq} {runs : List Run} {record : InodeRecord}
    {existing : List Extent} {replay : TxnReplay} (hr : RunsFor w.data.length runs)
    (h : replayTxn w.ino record (proposal n w runs record existing).ops = some replay) :
    replay.record = updatedRecord w record := by
  have heff : effect (.inode w.ino) (proposal n w runs record existing).ops = _ :=
    effect_inode_proposal hr
  rcases replayTxn_record h with ⟨hnone, hsame⟩ | hput
  · rw [heff] at hnone
    split at hnone
    · cases hnone
    · rename_i hnot
      rw [hsame, updatedRecord_of_not_puts hnot]
  · rw [heff] at hput
    split at hput
    · exact (some.inj (some.inj hput)).symm
    · cases hput

theorem Sized.buffer (h : Sized c s acked) {a : WriteAct}
    (hstep : (recordRace c).step s (.buffer a) = some t) :
    Sized c t (max acked a.req.stop) := by
  have hinv := h.inv.buffer hstep
  obtain ⟨file, hb, rfl⟩ := map_eq_some_iff.mp hstep
  obtain ⟨m, replay, hm, hino, hr, -, -, hreplay, rfl⟩ := buffered_eq hb
  rw [← hino] at hreplay
  have hcached : ∀ m' ∈ s.file.cached.map fun m => replay.apply m 0,
      m'.record.size = max m.record.size a.req.stop := by
    intro m' hm'
    rw [hm] at hm'
    cases hm'
    exact congrArg InodeRecord.size (replay_record hr hreplay)
  -- what the buffer holds of the record: the write's put, or what it held before
  have heff : effect (.inode c.ino) (proposal c.node a.req a.runs m.record m.extents).ops = _ :=
    hino ▸ effect_inode_proposal hr
  have hops := (foldl_setOp h.inv.keys_nodup
    (proposal c.node a.req a.runs m.record m.extents).ops).2 (.inode c.ino)
  rw [effect_append, heff] at hops
  have hnot : ∀ {file : FileState}, file.pending.ops =
      (proposal c.node a.req a.runs m.record m.extents).ops.foldl setOp s.file.pending.ops →
      ¬ Unpublished c file → ¬ PutsRecord a.req m.record ∧ ¬ Unpublished c s.file := by
    intro file hp hu
    rw [Unpublished, not_not, hp, hops] at hu
    split at hu
    · cases hu
    · rename_i hputs
      exact ⟨hputs, not_not.mpr hu⟩
  refine ⟨hinv, fun _ => ⟨replay.apply m 0, by simp [FileState.bufferWrite, hm]⟩, ?_, ?_⟩
  · intro hu
    obtain ⟨hputs, hold⟩ := hnot rfl hu
    obtain ⟨n, hn, hle, hsize⟩ := h.published hold
    have hstop := not_lt.mp (not_or.mp hputs).1
    have hn' := hsize m hm
    refine ⟨n, hn, by omega, fun m' hm' => ?_⟩
    rw [hcached m' hm']
    omega
  · intro _ m' hm'
    have hle := h.cached hm
    rw [hcached m' hm']
    omega

theorem Sized.commit (h : Sized c s acked) {a : WriteAct} {relist : Bool}
    (hstep : (recordRace c).step s (.commit a relist) = some t) :
    SizePublished c t.file (max acked a.req.stop) := by
  obtain ⟨m, existing, r, hm, hops, hino, hr, -, hafter, rfl⟩ := commit_eq hstep
  obtain ⟨n, hn, hle, hsize⟩ := h.published (not_unpublished_of_empty hops)
  have hn' := hsize m hm
  refine ⟨hops, max m.record.size a.req.stop, ?_, by omega, ?_⟩
  · refine (congrArg (Option.map InodeRecord.size) hafter).trans ?_
    split
    · rfl
    · rename_i hputs
      have hstop := not_lt.mp (not_or.mp hputs).1
      refine hn.trans (congrArg some ?_)
      omega
  · intro m' hm'
    obtain ⟨-, hm'⟩ := ite_none_right_eq_some.mp hm'
    obtain ⟨replay, hreplay, rfl⟩ := map_eq_some_iff.mp hm'
    rw [← hino] at hreplay
    exact congrArg InodeRecord.size (replay_record hr hreplay)

theorem storedSize_record {op : RecordOp} {etcd : Etcd}
    (hkeep : ∀ r ∈ getInode st.etcd c.ino, ∀ r' ∈ op.apply r, r'.map InodeRecord.size = some r.size)
    (h : op.commit c.ino st.etcd = some etcd) :
    storedSize c { st with etcd := etcd } = storedSize c st := by
  obtain ⟨r, hr, h⟩ := bind_eq_some_iff.mp h
  obtain ⟨r', hr', h⟩ := bind_eq_some_iff.mp h
  obtain ⟨-, rfl⟩ := txn_eq_some_iff.mp h
  have hsize := hkeep r hr r' hr'
  rw [storedSize, storedSize, hr, getInode, get_commit]
  cases r' with
  | none => cases hsize
  | some r' =>
    simp only [putRecord, effect, Op.effect_put_self, none_or, elim_some, map_some]
    exact hsize

theorem storedSize_put {r record : InodeRecord}
    (hr : getInode st.etcd c.ino = some r) (hsize : record.size = r.size) :
    storedSize c { st with etcd := st.etcd.commit [.put (.inode c.ino) record] } =
      storedSize c st := by
  rw [storedSize, storedSize, hr, getInode, get_commit]
  simp only [effect, Op.effect_put_self, none_or, elim_some, map_some, hsize]

theorem Sized.step (h : Sized c s acked) {step : RecordStep} (hkeep : KeepsSize c s step)
    (hread : ∀ age, step = .read age → ∀ old ∈ (s.file.etcd :: s.past)[age]?,
      (getInode old c.ino).map InodeRecord.size = storedSize c s.file)
    (hstep : (recordRace c).step s step = some t) : Sized c t (ackedAfter acked step) := by
  cases step with
  | read age =>
    obtain ⟨hempty, hstep⟩ := ite_none_right_eq_some.mp hstep
    obtain ⟨old, hold, hstep⟩ := bind_eq_some_iff.mp hstep
    obtain ⟨record, hrec, hstep⟩ := bind_eq_some_iff.mp hstep
    cases hstep
    have hops := Pending.isEmpty_iff.mp hempty
    obtain ⟨n, hn, hle, -⟩ := h.published (not_unpublished_of_empty hops)
    refine SizePublished.sized ⟨hops, n, hn, hle, ?_⟩
    intro m hm
    cases hm
    have hsize := hread age rfl old hold
    rw [hrec, hn] at hsize
    exact some.inj hsize
  | buffer a => exact h.buffer hstep
  | flush =>
    obtain ⟨file, hflush, rfl⟩ := map_eq_some_iff.mp hstep
    exact (h.flush hflush).sized
  | commit a relist => exact (h.commit hstep).sized
  | record op =>
    obtain ⟨etcd, hcommit, rfl⟩ := map_eq_some_iff.mp hstep
    exact h.congr rfl rfl (storedSize_record hkeep hcommit)
  | other ops => exact absurd hkeep id

theorem Sized.recall (h : Sized c s acked) {next : Holder} {file : FileState}
    (hr : s.file.recall c next = some file) : Sized c (s.committed file []) acked := by
  obtain ⟨file', hflush, rfl⟩ := map_eq_some_iff.mp hr
  obtain ⟨hops, n, hn, hle, -⟩ := h.flush hflush
  refine SizePublished.sized ⟨hops, n, ?_, hle, by simp [RecordState.committed]⟩
  rw [storedSize, getInode, RecordState.committed, get_commit_of_untouched (by simp [Op.key]),
    get_commit_of_untouched (by simp [Op.key])]
  exact hn

theorem Sized.stored (h : Sized c s acked) (hg : GrowthPublished c s.file) :
    ∃ n, storedSize c s.file = some n ∧ acked ≤ n := by
  cases hm : s.file.cached with
  | some m => exact ⟨m.record.size, hg m hm, h.cached hm⟩
  | none =>
    have hempty : s.file.pending.isEmpty = true := by
      by_contra hne
      obtain ⟨m, hm'⟩ := h.held (Bool.eq_false_iff.mpr hne)
      rw [hm] at hm'
      cases hm'
    obtain ⟨n, hn, hle, -⟩ :=
      h.published (not_unpublished_of_empty (Pending.isEmpty_iff.mp hempty))
    exact ⟨n, hn, hle⟩

end

/-! ## What happens to the store -/

section

variable {c : FileConfig}

theorem flush_later {st st' : FileState} (h : st.flush c = some st') : st.etcd.Later st'.etcd := by
  unfold FileState.flush at h
  split at h
  · cases h
    exact .refl _
  · obtain ⟨etcd, htxn, rfl⟩ := map_eq_some_iff.mp h
    rw [FileState.flushCommitted, (txn_eq_some_iff.mp htxn).2]
    exact (Store.Later.refl _).commit _

theorem record_later {op : RecordOp} {ino : Nat} {etcd etcd' : Etcd}
    (h : op.commit ino etcd = some etcd') : etcd.Later etcd' := by
  obtain ⟨r, -, h⟩ := bind_eq_some_iff.mp h
  obtain ⟨r', -, h⟩ := bind_eq_some_iff.mp h
  obtain ⟨-, rfl⟩ := txn_eq_some_iff.mp h
  exact (Store.Later.refl _).commit _

theorem recordRace_later {s t : RecordState} {step : RecordStep}
    (hstep : (recordRace c).step s step = some t) : s.file.etcd.Later t.file.etcd := by
  cases step with
  | read age =>
    obtain ⟨-, hstep⟩ := ite_none_right_eq_some.mp hstep
    obtain ⟨old, -, hstep⟩ := bind_eq_some_iff.mp hstep
    obtain ⟨record, -, hstep⟩ := bind_eq_some_iff.mp hstep
    cases hstep
    exact .refl _
  | buffer a =>
    obtain ⟨file, hb, rfl⟩ := map_eq_some_iff.mp hstep
    obtain ⟨m, replay, -, -, -, -, -, -, rfl⟩ := buffered_eq hb
    exact .refl _
  | flush =>
    obtain ⟨file, hflush, rfl⟩ := map_eq_some_iff.mp hstep
    exact flush_later hflush
  | commit a relist =>
    obtain ⟨m, existing, r, -, -, -, -, hpub, -, rfl⟩ := commit_eq hstep
    exact publishWrite_later hpub
  | record op =>
    obtain ⟨etcd, hcommit, rfl⟩ := map_eq_some_iff.mp hstep
    exact record_later hcommit
  | other ops =>
    cases hstep
    exact (Store.Later.refl _).commit _

end

/-! ## The calls -/

def AttrCall.WasRead (c : FileConfig) (etcd : Etcd) : AttrCall → Prop
  | .reading record rev => ∃ (old : Etcd) (v : Versioned InodeRecord),
      old.Later etcd ∧ old.get (.inode c.ino) = some v ∧ v.value = record ∧ v.modRevision = rev
  | .linking => True

structure Serves (c : FileConfig) (s : ServeState) : Prop where
  sized : Sized c s.race s.acked
  calls : ∀ i call, s.calls i = some call → call.WasRead c s.race.file.etcd

section

variable {c : FileConfig} {s t : ServeState}

theorem AttrCall.WasRead.later {etcd etcd' : Etcd} {call : AttrCall}
    (h : call.WasRead c etcd) (hl : etcd.Later etcd') : call.WasRead c etcd' := by
  cases call with
  | reading record rev =>
    obtain ⟨old, v, hold, hv⟩ := h
    exact ⟨old, v, hold.trans hl, hv⟩
  | linking => trivial

variable {record : InodeRecord} {i : Nat} {now : Time} {queued : Option TimeUpdate}

theorem AttrCall.WasRead.getInode_of_pinned {etcd : Etcd} {rev : Nat}
    (h : (AttrCall.reading record rev).WasRead c etcd)
    (hpin : etcd.holds (.modRevisionEq (.inode c.ino) rev) = true) :
    getInode etcd c.ino = some record := by
  obtain ⟨old, v, hold, hv, rfl, rfl⟩ := h
  rw [getInode, hold.get_of_modRevision_eq hv (holds_modRevisionEq.mp hpin)]
  rfl

theorem Serves.of_race (h : Serves c s) {race : RecordState} {acked : Nat}
    (hsized : Sized c race acked) (hl : s.race.file.etcd.Later race.file.etcd) :
    Serves c { s with race := race, acked := acked } where
  sized := hsized
  calls := fun i call hc => (h.calls i call hc).later hl

theorem Serves.setCall (h : Serves c s) {call : Option AttrCall}
    (hcall : ∀ x ∈ call, AttrCall.WasRead c s.race.file.etcd x) : Serves c (s.setCall i call) where
  sized := h.sized
  calls := by
    intro j x hx
    by_cases hj : j = i
    · subst hj
      simp only [ServeState.setCall, Function.update_self] at hx
      exact hcall x hx
    · simp only [ServeState.setCall, Function.update_of_ne hj] at hx
      exact h.calls j x hx

theorem Serves.readFor (h : Serves c s) (hstep : s.readFor c i = some t) : Serves c t := by
  obtain ⟨record, hrec, rfl⟩ := map_eq_some_iff.mp hstep
  refine h.setCall ?_
  intro x hx
  cases hx
  obtain ⟨v, hv, rfl⟩ := map_eq_some_iff.mp hrec
  refine ⟨_, v, .refl _, hv, rfl, ?_⟩
  rw [Store.modRevision, hv]
  rfl

theorem Serves.answered (h : Serves c s) {etcd : Etcd}
    (hsize : storedSize c { s.race.file with etcd := etcd } = storedSize c s.race.file)
    (hl : s.race.file.etcd.Later etcd) : Serves c (s.answered i etcd) :=
  (h.setCall (by simp)).of_race (h.sized.congr rfl rfl hsize) hl

theorem setattrRecord_size {valid : UInt32} {f : SetattrFields}
    (hvalid : ¬ Selects valid fattrSize) :
    (setattrRecord record valid f now queued).size = record.size := by
  simp only [setattrRecord, applySetattr, if_neg hvalid, size_queued]

theorem link_size {next : Option InodeRecord} (h : (RecordOp.link now).apply record = some next) :
    next.map InodeRecord.size = some record.size := by
  obtain ⟨-, h⟩ := ite_none_left_eq_some.mp h
  cases h
  rfl

theorem Serves.step (h : Serves c s) {step : ServeStep} (hfull : AnswersInFull c s step t)
    (hstep : (serveFile c).step s step = some t) : Serves c t := by
  cases step with
  | file step =>
    obtain ⟨hkeep, hstep⟩ := ite_none_right_eq_some.mp hstep
    obtain ⟨race, hrace, rfl⟩ := map_eq_some_iff.mp hstep
    refine h.of_race (h.sized.step hkeep ?_ hrace) (recordRace_later hrace)
    rintro age rfl
    exact hfull
  | «recall» next =>
    obtain ⟨file, hrecall, rfl⟩ := map_eq_some_iff.mp hstep
    refine h.of_race (h.sized.recall hrecall) ?_
    obtain ⟨file', hflush, rfl⟩ := map_eq_some_iff.mp hrecall
    exact ((flush_later hflush).commit _).commit _
  | start i => exact h.readFor hstep
  | reread i =>
    simp only [serveFile] at hstep
    split at hstep
    · exact h.readFor hstep
    · cases hstep
  | lookReply i queued | deferReply i valid f now queued =>
    simp only [serveFile] at hstep
    split at hstep
    · cases hstep
      exact h.setCall (by simp)
    · cases hstep
  | commitReply i valid f now queued =>
    simp only [serveFile] at hstep
    split at hstep
    · rename_i record rev hcall
      obtain ⟨hvalid, hstep⟩ := ite_none_left_eq_some.mp hstep
      obtain ⟨etcd, htxn, rfl⟩ := map_eq_some_iff.mp hstep
      obtain ⟨hpin, rfl⟩ := txn_eq_some_iff.mp htxn
      have hrec := (h.calls i _ hcall).getInode_of_pinned (hpin _ (mem_singleton_self _))
      exact h.answered (storedSize_put hrec (setattrRecord_size hvalid))
        ((Store.Later.refl _).commit _)
    · cases hstep
  | linkFlush i =>
    obtain ⟨file, hflush, rfl⟩ := map_eq_some_iff.mp hstep
    have hsized : Sized c (s.race.committed file []) s.acked := (h.sized.flush hflush).sized
    exact (h.setCall (by simp [AttrCall.WasRead])).of_race hsized (flush_later hflush)
  | linkReply i now =>
    simp only [serveFile] at hstep
    split at hstep
    · obtain ⟨etcd, hcommit, rfl⟩ := map_eq_some_iff.mp hstep
      have hsize := storedSize_record (fun _ _ _ hnext => link_size hnext) hcommit
      exact h.answered hsize (record_later hcommit)
    · cases hstep

theorem withPending_size {st : FileState} :
    (st.withPending record queued).size = st.pendingSize.getD record.size := by
  cases queued with
  | none => rfl
  | some u =>
    simp only [FileState.withPending, map_some, getD_some, TimeUpdate.apply]
    split
    · rfl
    · split <;> rfl

theorem Serves.lookReply (h : Serves c s)
    (hfull : s.race.file.pending.isEmpty = false ∨ ReadSize c s i) :
    ReportsSize c s (.lookReply i queued) t := by
  intro r hr
  simp only [reply] at hr
  split at hr
  · rename_i record rev hcall
    cases hr
    rw [withPending_size, FileState.pendingSize]
    by_cases hempty : s.race.file.pending.isEmpty = true
    · rw [if_pos hempty, getD_none]
      have hsize : storedSize c s.race.file = some record.size := by
        rcases hfull with hne | hread
        · rw [hempty] at hne
          cases hne
        · exact hread _ hcall
      obtain ⟨n, hn, hle, -⟩ :=
        h.sized.published (not_unpublished_of_empty (Pending.isEmpty_iff.mp hempty))
      rw [hsize] at hn
      cases hn
      exact hle
    · obtain ⟨m, hm⟩ := h.sized.held (Bool.eq_false_iff.mpr hempty)
      rw [if_neg hempty, hm]
      exact h.sized.cached hm
  · cases hr

theorem Serves.setattrReply (h : Serves c s) {valid : UInt32} {f : SetattrFields}
    (hg : GrowthPublished c s.race.file) (hread : ReadSize c s i) :
    ReportsSize c s (.commitReply i valid f now queued) t := by
  intro r hr
  simp only [reply] at hr
  split at hr
  · rename_i record rev hcall
    obtain ⟨hvalid, hr⟩ := ite_none_left_eq_some.mp hr
    cases hr
    obtain ⟨n, hn, hle⟩ := h.sized.stored hg
    have hsize : storedSize c s.race.file = some record.size := hread _ hcall
    rw [hsize] at hn
    cases hn
    rw [setattrRecord_size hvalid]
    exact hle
  · cases hr

theorem Serves.readSize_of_commit (h : Serves c s) {valid : UInt32} {f : SetattrFields}
    (hstep : (serveFile c).step s (.commitReply i valid f now queued) = some t) :
    ReadSize c s i := by
  intro call hcall
  simp only [serveFile, show s.calls i = some call from hcall] at hstep
  cases call with
  | linking => trivial
  | reading record rev =>
    obtain ⟨-, hstep⟩ := ite_none_left_eq_some.mp hstep
    obtain ⟨etcd, htxn, -⟩ := map_eq_some_iff.mp hstep
    have hpin := (txn_eq_some_iff.mp htxn).1 _ (List.mem_singleton_self _)
    exact congrArg (Option.map InodeRecord.size) ((h.calls i _ hcall).getInode_of_pinned hpin)

theorem Serves.linkReply (h : Serves c s)
    (hg : GrowthPublished c s.race.file) : ReportsSize c s (.linkReply i now) t := by
  intro r hr
  simp only [reply] at hr
  split at hr
  · obtain ⟨record, hrec, hr⟩ := bind_eq_some_iff.mp hr
    obtain ⟨n, hn, hle⟩ := h.sized.stored hg
    rw [storedSize, hrec] at hn
    cases hn
    have hsize := link_size (join_eq_some_iff.mp hr)
    obtain hsize := some.inj hsize
    rw [hsize]
    exact hle
  · cases hr

theorem Serves.reportsSize (h : Serves c s) {step : ServeStep} (hfull : AnswersInFull c s step t)
    (hstep : (serveFile c).step s step = some t) : ReportsSize c s step t := by
  cases step with
  | lookReply i queued => exact h.lookReply hfull
  | deferReply i valid f now queued => exact h.setattrReply (t := t) hfull.1 hfull.2
  | commitReply i valid f now queued => exact h.setattrReply hfull (h.readSize_of_commit hstep)
  | linkReply i now => exact h.linkReply hfull
  | file _ | «recall» _ | start _ | reread _ | linkFlush _ =>
    intro r hr
    cases hr

structure ServeState.Idle (c : FileConfig) (s : ServeState) : Prop where
  stored : ∃ n, storedSize c s.race.file = some n ∧ s.acked ≤ n
  pending : s.race.file.pending.isEmpty = true
  cached : s.race.file.cached = none
  calls : ∀ i, s.calls i = none

theorem ServeState.Idle.serves (h : s.Idle c) : Serves c s where
  sized := by
    obtain ⟨n, hn, hle⟩ := h.stored
    refine SizePublished.sized ⟨Pending.isEmpty_iff.mp h.pending, n, hn, hle, ?_⟩
    rw [h.cached]
    simp
  calls := by
    intro i call hc
    rw [h.calls i] at hc
    cases hc

end

/-- Along every run whose replies are answered in full, no reply reports a size that an
acknowledged write goes beyond. -/
theorem along_reportsSize {c : FileConfig} {s : ServeState} (h : s.Idle c)
    {steps : List ServeStep} (hfull : (serveFile c).Along (AnswersInFull c) s steps) :
    (serveFile c).Along (ReportsSize c) s steps := by
  refine Machine.Along.of_invariant (I := Serves c) ?_ h.serves hfull
  intro s step t hs hf hstep
  exact ⟨hs.step hf hstep, hs.reportsSize hf hstep⟩

def soloServe : ServeState := ⟨soloEntry, 0, fun _ => none⟩

def bufferThree : List ServeStep :=
  [.file (.read 0),
    .file (.buffer (soloWrite false 0 [1, 2, 3] 0 three_bytes_ne three_bytes_bound))]

def chmodReply (i : Nat) : ServeStep := .commitReply i fattrMode ⟨0, 0o600, 0, 0, 0, 0, 0⟩ 5 none

/-- The file is written, looked up and published, and then it is given another mode and
another name. -/
theorem along_reportsSize_published :
    (serveFile soloConfig).Along (ReportsSize soloConfig) soloServe
      (bufferThree ++ [.start 0, .lookReply 0 none, .file .flush, .start 1, chmodReply 1,
        .linkFlush 2, .linkReply 2 6]) :=
  along_reportsSize
    ⟨⟨0, by decide +kernel, le_rfl⟩, by decide +kernel, rfl, fun _ => rfl⟩
    (by decide +kernel)

/-- A chmod right after a buffered write of three bytes replies with the size that etcd
has, which is zero. A GETATTR that reads the record while the bytes are buffered, and looks
for them once they are published, misses them too. -/
theorem chmod_reports_short :
    (∃ s t r, (serveFile soloConfig).exec soloServe (bufferThree ++ [.start 0]) = some s ∧
      (serveFile soloConfig).step s (chmodReply 0) = some t ∧
      reply soloConfig s (chmodReply 0) = some r ∧ s.acked = 3 ∧ r.size = 0) ∧
    ¬ (serveFile soloConfig).Along (ReportsSize soloConfig) soloServe
      (bufferThree ++ [.start 0, .file .flush, .lookReply 0 none]) := by
  refine ⟨?_, by decide +kernel⟩
  have hrun : ((serveFile soloConfig).exec soloServe (bufferThree ++ [.start 0])).bind (fun s =>
      ((serveFile soloConfig).step s (chmodReply 0)).bind fun _ =>
        (reply soloConfig s (chmodReply 0)).map fun r => (s.acked, r.size)) = some (3, 0) := by
    decide +kernel
  obtain ⟨s, hs, hrun⟩ := bind_eq_some_iff.mp hrun
  obtain ⟨t, ht, hrun⟩ := bind_eq_some_iff.mp hrun
  obtain ⟨r, hr, hsizes⟩ := map_eq_some_iff.mp hrun
  obtain ⟨hacked, hsize⟩ := Prod.mk.inj hsizes
  exact ⟨s, t, r, hs, ht, hr, hacked, hsize⟩

end EtcFS.Correctness
