import EtcFS.Ipc.TimeQueue

/-!
# The status clock under queued updates

A touch is tested against the modification time alone and sets both clocks, so a status change after
the touch is set back.
-/

namespace EtcFS.Correctness

open EtcFS.Core Metadata Ipc Option List

def TakesBack (u : TimeUpdate) (record : InodeRecord) : Prop :=
  ∃ t ∈ u.bump, u.mtime.getD record.mtime < t ∧ t < record.ctime

variable {u : TimeUpdate} {record record' : InodeRecord} {s s' : Etcd} {ino : Nat}

theorem ctime_le_apply_iff : record.ctime ≤ (u.apply record).ctime ↔ ¬ TakesBack u record := by
  have hkept : record.ctime ≤ forward record.ctime u.ctime := le_forward _ _
  cases hb : u.bump with
  | none =>
    have hback : ¬ TakesBack u record := by
      rintro ⟨t, ht, -⟩
      rw [hb] at ht
      cases ht
    simp only [TimeUpdate.apply, hb]
    exact iff_of_true hkept hback
  | some t =>
    have hback : TakesBack u record ↔ u.mtime.getD record.mtime < t ∧ t < record.ctime := by
      simp only [TakesBack, hb, mem_some_iff, exists_eq_left']
    rw [hback]
    simp only [TimeUpdate.apply, hb]
    split
    · rename_i hlt
      rw [and_iff_right hlt]
      exact Int.not_lt.symm
    · rename_i hnot
      exact iff_of_true hkept fun h => hnot h.1

theorem publishTimes_record {due : List (Nat × TimeUpdate)} {read : Nat → Etcd}
    (hread : ∀ d ∈ due, (read d.1).Later s) (h : publishTimes due read s = some s')
    (hs : getInode s ino = some record) (hs' : getInode s' ino = some record') :
    record' = record ∨ ∃ u, (ino, u) ∈ due ∧ record' = u.apply record := by
  obtain ⟨-, htxn⟩ := ite_none_left_eq_some.mp h
  obtain ⟨hholds, rfl⟩ := Store.txn_eq_some_iff.mp htxn
  obtain ⟨v', hv', rfl⟩ := map_eq_some_iff.mp hs'
  obtain ⟨v, hv, rfl⟩ := map_eq_some_iff.mp hs
  rcases Store.get_commit_cases hv' with ⟨hold, -⟩ | ⟨hput, -⟩
  · rw [hv] at hold
    cases hold
    exact .inl rfl
  · -- The put comes with a comparison on the revision it was computed from.
    obtain ⟨part, hpart, hop⟩ := mem_map.mp hput
    have hcmp := hholds part.1 (mem_map_of_mem hpart)
    obtain ⟨d, hd, hmem⟩ := mem_flatMap.mp hpart
    rw [timesOps] at hmem
    split at hmem
    · cases hmem
    · rename_i old rev hold
      split at hmem
      · obtain rfl := mem_singleton.mp hmem
        injection hop with hkey hvalue
        obtain rfl : d.1 = ino := Key.inode.inj hkey
        have hnow := (hread d hd).get_of_modRevision_eq hold (Store.holds_modRevisionEq.mp hcmp)
        rw [hv] at hnow
        cases hnow
        exact .inr ⟨d.2, hd, hvalue.symm⟩
      · cases hmem

/-- Applying an update keeps the status clock from going back exactly if it does not take
it back. So does a transaction that publishes it with any others, read at any times before,
and a setattr that it is folded into, unless the setattr moves the status clock itself. -/
theorem ctime_kept (u : TimeUpdate) (record : InodeRecord) :
    (record.ctime ≤ (u.apply record).ctime ↔ ¬ TakesBack u record) ∧
    (∀ (due : List (Nat × TimeUpdate)) (read : Nat → Etcd) (s s' : Etcd) (ino : Nat)
        (record' : InodeRecord), (∀ d ∈ due, (read d.1).Later s) →
      publishTimes due read s = some s' → getInode s ino = some record →
      getInode s' ino = some record' → (∀ v, (ino, v) ∈ due → v = u) →
      ¬ TakesBack u record → record.ctime ≤ record'.ctime) ∧
    ∀ (valid : UInt32) (f : SetattrFields) (now : Time) (record' : InodeRecord),
      ¬ Selects valid (fattrMode ||| fattrUID ||| fattrGID ||| fattrSize) →
      ¬ Selects valid fattrCtime →
      RecordOp.apply record (.setattr valid f now (some u)) = some (some record') →
      (record.ctime ≤ record'.ctime ↔ ¬ TakesBack u record) := by
  refine ⟨ctime_le_apply_iff, ?_, ?_⟩
  · intro due read s s' ino record' hread hpublish hs hs' honly hback
    rcases publishTimes_record hread hpublish hs hs' with rfl | ⟨v, hv, rfl⟩
    · exact Int.le_refl _
    · rw [honly v hv]
      exact ctime_le_apply_iff.mpr hback
  · intro valid f now record' hstatus hctime happly
    obtain rfl := some.inj (some.inj happly)
    have hsame : (applySetattr (u.apply record) valid f now).ctime = (u.apply record).ctime := by
      simp only [applySetattr, hstatus, hctime, false_and, if_false]
    exact (iff_of_eq (congrArg (record.ctime ≤ ·) hsame)).trans ctime_le_apply_iff

def oldRecord : InodeRecord :=
  { regularFile 7 with mode := 0o040755, nlink := 2, atime := 10, mtime := 10, ctime := 10 }

def oldDirectory : Etcd := Store.empty.commit [.put (.inode 7) oldRecord]

/-- A touch at 50 moves every clock of the directory on, alone or with a new access time. -/
theorem ctime_kept_touch :
    ∃ s' record record', getInode oldDirectory 7 = some oldRecord ∧
      publishTimes [(7, (TimeCall.touch 50).update)] (fun _ => oldDirectory) oldDirectory =
        some s' ∧
      getInode s' 7 = some record ∧ oldRecord.ctime ≤ record.ctime ∧
      RecordOp.apply oldRecord (.setattr fattrAtime ⟨0, 0, 0, 0, 60, 0, 0⟩ 60
        (some (TimeCall.touch 50).update)) = some (some record') ∧
      oldRecord.ctime ≤ record'.ctime := by
  have hkept := ctime_kept (TimeCall.touch 50).update oldRecord
  have hback : ¬ TakesBack (TimeCall.touch 50).update oldRecord := hkept.1.mp (by decide)
  exact ⟨_, _, _, rfl, rfl, rfl, hkept.2.1 [(7, (TimeCall.touch 50).update)]
    (fun _ => oldDirectory) oldDirectory _ 7 _ (fun _ _ => .refl _) rfl rfl rfl (by simp) hback,
    rfl, (hkept.2.2 _ _ _ _ (by decide) (by decide) rfl).mpr hback⟩

def chmodFields : SetattrFields := ⟨0, 0o700, 0, 0, 0, 0, 0⟩

/-- A touch at 50 waits on one node while another node changes the mode at 100. Publishing
the touch sets the status clock back to 50. -/
theorem chmod_taken_back :
    ∃ s s', (RecordOp.setattr fattrMode chmodFields 100 none).commit 7 oldDirectory = some s ∧
      publishTimes [(7, (TimeCall.touch 50).update)] (fun _ => s) s = some s' ∧
      (getInode s 7).map InodeRecord.ctime = some 100 ∧
      (getInode s' 7).map InodeRecord.ctime = some 50 :=
  ⟨_, _, rfl, rfl, by decide +kernel, by decide +kernel⟩

end EtcFS.Correctness
