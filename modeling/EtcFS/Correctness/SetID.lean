import EtcFS.Correctness.RecordFrame

/-!
# Set-ID bits under writes

Whether a file has set-ID bits is read off the cached record, and a write that does not put the
record leaves them.
-/

namespace EtcFS.Correctness

open EtcFS.Core Metadata Ipc Option

def SetIDCleared (mode : UInt32) : Prop :=
  mode &&& sISUID = 0 ∧ (mode &&& sIXGRP ≠ 0 → mode &&& sISGID = 0)
  deriving Decidable

section

theorem and_not_and_self (x a : UInt32) : x &&& ~~~a &&& a = 0 := by
  rw [UInt32.and_assoc, UInt32.not_and_self, UInt32.and_zero]

theorem and_not_eq_self_iff {x a : UInt32} : x &&& ~~~a = x ↔ x &&& a = 0 := by
  constructor
  · intro h
    rw [← h]
    exact and_not_and_self x a
  · intro h
    have hbits : x.toBitVec &&& a.toBitVec = 0 := congrArg UInt32.toBitVec h
    apply UInt32.toBitVec_inj.mp
    rw [UInt32.toBitVec_and, UInt32.toBitVec_not]
    ext i hi
    have hbit := congrArg (·[i]) hbits
    simp only [BitVec.getElem_and, BitVec.getElem_not] at hbit ⊢
    cases hx : x.toBitVec[i] <;> simp_all

variable {mode uid : UInt32}

theorem setIDCleared_clearSetIDOnWrite (huid : uid ≠ 0) :
    SetIDCleared (clearSetIDOnWrite mode uid) := by
  rw [clearSetIDOnWrite, if_neg huid]
  by_cases hgroup : mode &&& ~~~sISUID &&& sIXGRP = 0
  · rw [if_neg (not_not.mpr hgroup)]
    exact ⟨and_not_and_self mode sISUID, fun h => absurd hgroup h⟩
  · rw [if_pos hgroup]
    refine ⟨?_, fun _ => and_not_and_self _ sISGID⟩
    calc mode &&& ~~~sISUID &&& ~~~sISGID &&& sISUID
        = mode &&& ~~~sISUID &&& sISUID &&& ~~~sISGID := by
          rw [UInt32.and_assoc, UInt32.and_comm (~~~sISGID), ← UInt32.and_assoc]
      _ = 0 := by rw [and_not_and_self, UInt32.zero_and]

theorem clearSetIDOnWrite_eq_self_iff (huid : uid ≠ 0) :
    clearSetIDOnWrite mode uid = mode ↔ SetIDCleared mode := by
  constructor
  · intro h
    rw [← h]
    exact setIDCleared_clearSetIDOnWrite huid
  · rintro ⟨huser, hgroup⟩
    rw [clearSetIDOnWrite, if_neg huid, and_not_eq_self_iff.mpr huser]
    dsimp only
    split
    case isTrue hx => exact and_not_eq_self_iff.mpr (hgroup hx)
    case isFalse => rfl

end

def OwesDrop (uid : UInt32) (record : InodeRecord) : Prop :=
  clearSetIDOnWrite record.mode uid ≠ record.mode

theorem not_owesDrop_iff {uid : UInt32} {record : InodeRecord} :
    ¬OwesDrop uid record ↔ (uid ≠ 0 → SetIDCleared record.mode) := by
  rw [OwesDrop, not_not]
  by_cases huid : uid = 0
  · simp [clearSetIDOnWrite, huid]
  · simp only [clearSetIDOnWrite_eq_self_iff huid, ne_eq, huid, not_false_eq_true, forall_true_left]

def DropsSetID (c : FileConfig) (step : RecordStep) (t : RecordState) : Prop :=
  match step with
  | .buffer a | .commit a _ =>
    a.req.uid ≠ 0 → ∀ r ∈ getInode t.file.etcd c.ino, SetIDCleared r.mode
  | .read _ | .flush | .record _ | .other _ => True

instance (c : FileConfig) (t : RecordState) : ∀ step, Decidable (DropsSetID c step t)
  | .buffer a | .commit a _ => inferInstanceAs (Decidable
      (a.req.uid ≠ 0 → ∀ r ∈ getInode t.file.etcd c.ino, SetIDCleared r.mode))
  | .read _ | .flush | .record _ | .other _ => isTrue trivial

def SnapshotShows (c : FileConfig) (s : RecordState) (step : RecordStep) : Prop :=
  ∀ m ∈ s.file.cached, ∀ r ∈ getInode s.file.etcd c.ino,
    match step with
    | .buffer a => OwesDrop a.req.uid r → OwesDrop a.req.uid m.record
    | .commit a _ => OwesDrop a.req.uid r → PutsRecord a.req m.record
    | .read _ | .flush | .record _ | .other _ => True

section

variable {c : FileConfig} {s t : RecordState}

theorem buffer_drops_iff {a : WriteAct} (hstep : (recordRace c).step s (.buffer a) = some t) :
    DropsSetID c (.buffer a) t ↔ SnapshotShows c s (.buffer a) := by
  obtain ⟨file, hb, rfl⟩ := map_eq_some_iff.mp hstep
  obtain ⟨m, replay, hm, -, -, hmode, -, -, rfl⟩ := buffered_eq hb
  rw [modeChanged_proposal, decide_eq_false_iff_not, not_not] at hmode
  have hnot : ¬OwesDrop a.req.uid m.record := not_not.mpr hmode
  constructor
  · intro h _ _ r hr howes
    exact absurd howes (not_owesDrop_iff.mpr fun huid => h huid r hr)
  · intro h huid r hr
    exact not_owesDrop_iff.mp (fun howes => hnot (h m hm r hr howes)) huid

theorem commit_drops_iff {a : WriteAct} {relist : Bool}
    (hstep : (recordRace c).step s (.commit a relist) = some t) :
    DropsSetID c (.commit a relist) t ↔ SnapshotShows c s (.commit a relist) := by
  obtain ⟨m, existing, r, hm, -, -, -, -, hafter, rfl⟩ := commit_eq hstep
  by_cases hput : PutsRecord a.req m.record
  · rw [if_pos hput] at hafter
    refine iff_of_true (fun huid r' hr' => ?_) fun m' hm' _ _ _ => ?_
    · obtain rfl := some.inj (hafter.symm.trans hr')
      exact setIDCleared_clearSetIDOnWrite huid
    · obtain rfl := some.inj (hm.symm.trans hm')
      exact hput
  · rw [if_neg hput] at hafter
    constructor
    · intro h _ _ r' hr' howes
      exact absurd howes (not_owesDrop_iff.mpr fun huid => h huid r' (hafter.trans hr'))
    · intro h huid r' hr'
      exact not_owesDrop_iff.mp (fun howes => hput (h m hm r' (hafter.symm.trans hr') howes)) huid

end

/-- The set-ID bits are gone at every acknowledgement of an unprivileged write in
exactly the runs in which every such write sees in its snapshot that there are bits
to drop, or puts the record anyway. -/
theorem along_dropsSetID_iff (c : FileConfig) (s : RecordState) (steps : List RecordStep) :
    (recordRace c).Along (fun _ step t => DropsSetID c step t) s steps ↔
      (recordRace c).Along (fun s step _ => SnapshotShows c s step) s steps := by
  refine Machine.along_iff (I := fun _ => True) (fun _ _ _ _ _ _ => trivial) ?_ trivial steps
  intro s step t _ hstep
  cases step with
  | buffer a => exact buffer_drops_iff hstep
  | commit a relist => exact commit_drops_iff hstep
  | read | flush | record | other => simp only [DropsSetID, SnapshotShows, implies_true]

def userWrite (block : Nat) : WriteAct where
  req := ⟨7, 0, [1], 1000, one_byte_ne, one_byte_bound⟩
  runs := [⟨block * blockSize, blockSize⟩]
  sync := false
  hold := fun _ => true

def chmod (mode : UInt32) : RecordOp := .setattr fattrMode ⟨0, mode, 0, 0, 0, 0, 0⟩ 5 none

def chmodBetweenWrites : List RecordStep :=
  [.read 0, .buffer (userWrite 0), .record (chmod 0o4755), .buffer (userWrite 1)]

/-- The second write is acknowledged and the bit stands. -/
theorem chmod_between_writes_keeps_setID :
    (((recordRace soloConfig).exec soloEntry chmodBetweenWrites).bind fun s =>
      (getInode s.file.etcd soloConfig.ino).map fun r => r.mode &&& sISUID) = some sISUID ∧
    ¬(recordRace soloConfig).Along (fun _ step t => DropsSetID soloConfig step t) soloEntry
      chmodBetweenWrites := by
  decide +kernel

end EtcFS.Correctness
