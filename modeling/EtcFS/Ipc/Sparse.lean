import EtcFS.Ipc.File
import EtcFS.Ipc.Leftovers

/-!
# Calls that set the size of a file

A setattr, a truncating open and an allocation put the record back pinned. A smaller size first cuts
what this node owns.
-/

namespace EtcFS.Ipc

open EtcFS.Core Metadata List

inductive SizeError where
  | notFound
  | conflict
  | extentChanged
  deriving DecidableEq, Repr

def errnoFor : SizeError → Errno
  | .notFound => .noEnt
  | .conflict | .extentChanged => .io

def putInode (ino rev : Nat) (rec : InodeRecord) (s : Etcd) : Option Etcd :=
  s.txn [.modRevisionEq (.inode ino) rev] [.put (.inode ino) rec]

def growTo (ino newSize : Nat) (now : Time) (s : Etcd) : Etcd × Except SizeError Unit :=
  match getInode s ino with
  | none => (s, .error .notFound)
  | some rec =>
    if newSize ≤ rec.size then (s, .ok ())
    else
      match putInode ino (s.modRevision (.inode ino))
        { rec with size := newSize, mtime := now, ctime := now } s with
      | some t => (t, .ok ())
      | none => (s, .error .conflict)

def truncateToZero (n : Node) (ino : Nat) (now : Time) (s : Etcd) :
    Etcd × Except SizeError Unit :=
  match getInode s ino with
  | none => (s, .error .notFound)
  | some rec =>
    if rec.mode &&& sIFMT ≠ modeFile ∨ rec.size = 0 then (s, .ok ())
    else
      let r := truncate n ino 0 s
      if r.failed then (r.etcd, .error .extentChanged)
      else
        match putInode ino (s.modRevision (.inode ino))
          { rec with size := 0, mtime := now, ctime := now } r.etcd with
        | some t => (t, .ok ())
        | none => (r.etcd, .error .conflict)

def commitSetattr (n : Node) (ino : Nat) (record : InodeRecord) (rev : Nat) (valid : UInt32)
    (f : SetattrFields) (now : Time) (s : Etcd) : Etcd × Option (Except Errno Unit) :=
  let r := if Selects valid fattrSize ∧ f.size < record.size then truncate n ino f.size s
    else ⟨s, 0, [], false⟩
  if r.failed then (r.etcd, some (.error (errnoFor .extentChanged)))
  else
    match putInode ino rev (applySetattr record valid f now) r.etcd with
    | some t => (t, some (.ok ()))
    | none => (r.etcd, none)

def setattrAttempts : Nat := 4

def handleSetattr (n : Node) (ino : Nat) (valid : UInt32) (f : SetattrFields) (now : Time)
    (queued : Option TimeUpdate) : Nat → Etcd → Etcd × Except Errno Unit
  | 0, s => (s, .error .again)
  | attempts + 1, s =>
    match getInode s ino with
    | none => (s, .error .noEnt)
    | some stored =>
      match commitSetattr n ino ((queued.map fun u => u.apply stored).getD stored)
        (s.modRevision (.inode ino)) valid f now s with
      | (t, some answer) => (t, answer)
      | (t, none) => handleSetattr n ino valid f now queued attempts t

def fallocKeepSize : UInt32 := 0x01

def fallocPunchHole : UInt32 := 0x02

def handleFallocate (n : Node) (ino : Nat) (mode : UInt32) (offset length : Nat) (now : Time)
    (s : Etcd) : Etcd × Except Errno Unit :=
  if length = 0 then (s, .error .inval)
  -- The end of the range would wrap.
  else if offsetBound ≤ offset + length then (s, .error .inval)
  else if mode = fallocKeepSize then (s, .ok ())
  else if mode &&& fallocPunchHole ≠ 0 then
    if mode &&& fallocKeepSize = 0 then (s, .error .inval)
    else
      let r := punchHole n ino offset (offset + length) s
      (r.etcd, if r.failed then .error (errnoFor .extentChanged) else .ok ())
  else if mode = 0 then
    ((growTo ino (offset + length) now s).1,
      (growTo ino (offset + length) now s).2.mapError errnoFor)
  else (s, .error .notSupp)

inductive SizeCall where
  | setattr (valid : UInt32) (f : SetattrFields) (now : Time) (queued : Option TimeUpdate)
  | openTrunc (now : Time)
  | fallocate (offset length : Nat) (now : Time)

def succeeded {ε : Type} : Etcd × Except ε Unit → Option Etcd
  | (t, .ok ()) => some t
  | (_, .error _) => none

def sizeCalls (ino : Nat) : Machine Etcd (Node × SizeCall) where
  step s
    | (n, .setattr valid f now queued) =>
      if Selects valid fattrSize then
        succeeded (handleSetattr n ino valid f now queued setattrAttempts s)
      else none
    | (n, .openTrunc now) => succeeded (truncateToZero n ino now s)
    | (n, .fallocate offset length now) =>
      succeeded (handleFallocate n ino 0 offset length now s)

/-! ## What a truncate leaves under each key -/

def shortened (n : Node) (size : Nat) (v : ExtentValue) : Option ExtentValue :=
  if size < v.endOff ∧ n.owns v.diskOff = true then
    if v.logOff < size then some (headOf v size) else none
  else some v

def InAddressSpace (s : Etcd) (ino : Nat) : Prop :=
  ∀ e ∈ getExtents s ino, e.logOff < maxOffset ∧ e.endOff ≤ maxOffset

section

variable {n : Node} {size : Nat} {v w : ExtentValue}

theorem shortened_place (h : shortened n size v = some w) :
    w.logOff = v.logOff ∧ w.diskOff = v.diskOff ∧ w.seq = v.seq ∧ w.endOff ≤ v.endOff := by
  unfold shortened at h
  split at h
  · rename_i hcut
    obtain ⟨hlt, rfl⟩ := Option.ite_some_none_eq_some.mp h
    refine ⟨rfl, rfl, rfl, ?_⟩
    simp only [headOf, ExtentValue.endOff] at *
    omega
  · cases h
    exact ⟨rfl, rfl, rfl, Nat.le_refl _⟩

theorem shortened_covers (h : shortened n size v = some w) {b : Nat} :
    w.Covers b ↔ v.Covers b ∧ (b < size ∨ n.owns v.diskOff = false) := by
  unfold shortened at h
  split at h
  · rename_i hcut
    obtain ⟨hlt, rfl⟩ := Option.ite_some_none_eq_some.mp h
    rw [headOf_covers hcut.1.le hlt.le, hcut.2]
    simp
  · rename_i hkeep
    cases h
    refine ⟨fun hb => ⟨hb, ?_⟩, fun hb => hb.1⟩
    rcases Bool.eq_false_or_eq_true (n.owns v.diskOff) with howns | howns
    · have hle : v.endOff ≤ size := Nat.le_of_not_lt fun hlt => hkeep ⟨hlt, howns⟩
      exact .inl (hb.2.trans_le hle)
    · exact .inr howns

theorem shortened_isSome {b : Nat} (hb : v.Covers b) (h : b < size ∨ n.owns v.diskOff = false) :
    ∃ w, shortened n size v = some w := by
  unfold shortened
  split
  · rename_i hcut
    have hlt : b < size := h.resolve_right (by simp [hcut.2])
    exact ⟨_, if_pos (hb.1.trans_lt hlt)⟩
  · exact ⟨v, rfl⟩

end

theorem head?_cutBy_maxOffset {n : Node} {size : Nat} {v : ExtentValue}
    (h : v.logOff < maxOffset ∧ v.endOff ≤ maxOffset) :
    (cutBy n size maxOffset v).head? = shortened n size v := by
  have hnotail : ¬maxOffset < v.endOff := not_lt.mpr h.2
  by_cases hcut : size < v.endOff ∧ n.owns v.diskOff = true
  · by_cases hlo : v.logOff < size <;>
      simp [cutBy, shortened, survivors, splitAround, ExtentValue.Overlaps, hcut, h.1, hnotail, hlo]
  · have hkeep : ¬(v.Overlaps size maxOffset ∧ n.owns v.diskOff = true) := fun hc =>
      hcut ⟨hc.1.2, hc.2⟩
    rw [cutBy, if_neg hkeep, shortened, if_neg hcut]
    rfl

theorem truncate_valueAt {n : Node} {ino size : Nat} {s : Etcd} (hin : InAddressSpace s ino)
    (c : Nat) :
    valueAt (truncate n ino size s).etcd ino c = (valueAt s ino c).bind (shortened n size) := by
  obtain ⟨label, h⟩ : ∃ label, LeavesPieces n ino size maxOffset label s
      (truncate n ino size s).etcd := by
    rw [truncate_eq_truncateOnce n size fun e he => (hin e he).1]
    exact reclaimSelected_leavesPieces fun e he => truncated_iff (hin e he).1
  refine Option.ext fun v => ?_
  rw [h.value, Option.bind_eq_some_iff]
  constructor
  · rintro ⟨e, he, ⟨rfl, hv⟩ | ⟨htwo, -⟩⟩
    · exact ⟨_, valueAt_of_mem he, head?_cutBy_maxOffset (hin e he) ▸ hv⟩
    · -- No extent reaches past the end of the address space.
      exact absurd htwo.2.2 (not_lt.mpr (hin e he).2)
  · rintro ⟨w, hw, hv⟩
    obtain ⟨e, he, rfl, rfl⟩ := exists_of_valueAt hw
    exact ⟨e, he, .inl ⟨rfl, (head?_cutBy_maxOffset (hin e he)).trans hv⟩⟩

/-! ## What a call does -/

section

variable {n : Node} {ino : Nat} {s : Etcd} {rec : InodeRecord}

theorem putInode_of_same {t : Etcd} (h : t.get (.inode ino) = s.get (.inode ino))
    (rec : InodeRecord) : putInode ino (s.modRevision (.inode ino)) rec t =
      some (t.commit [.put (.inode ino) rec]) := by
  refine Store.txn_of_holds _ fun c hc => ?_
  rw [mem_singleton.mp hc, Store.holds_modRevisionEq, Store.modRevision, Store.modRevision, h]

theorem getInode_put (t : Etcd) (rec : InodeRecord) :
    getInode (t.commit [.put (.inode ino) rec]) ino = some rec := by
  rw [getInode, Store.get_commit]
  simp [effect]

theorem get_extent_put (t : Etcd) (rec : InodeRecord) (c : Nat) :
    (t.commit [.put (.inode ino) rec]).get (.extent ino c) = t.get (.extent ino c) :=
  Store.get_commit_of_untouched (by simp [Op.key])

theorem growTo_eq (hrec : getInode s ino = some rec) (newSize : Nat) (now : Time) :
    growTo ino newSize now s = (if newSize ≤ rec.size then s
        else s.commit [.put (.inode ino) { rec with size := newSize, mtime := now, ctime := now }],
       .ok ()) := by
  simp only [growTo, hrec, putInode_of_same rfl]
  split <;> rfl

theorem truncateToZero_eq (hin : InAddressSpace s ino) (hrec : getInode s ino = some rec)
    (now : Time) : truncateToZero n ino now s =
      (if rec.mode &&& sIFMT ≠ modeFile ∨ rec.size = 0 then s
        else (truncate n ino 0 s).etcd.commit
          [.put (.inode ino) { rec with size := 0, mtime := now, ctime := now }],
       .ok ()) := by
  have h := truncate_reclaimed n 0 fun e he => (hin e he).1
  simp only [truncateToZero, hrec, h.failed, putInode_of_same (h.frame _ (by simp))]
  split <;> rfl

theorem handleSetattr_eq (hin : InAddressSpace s ino) (hrec : getInode s ino = some rec)
    {valid : UInt32} (hvalid : Selects valid fattrSize) (f : SetattrFields) (now : Time)
    (queued : Option TimeUpdate) (attempts : Nat) :
    handleSetattr n ino valid f now queued (attempts + 1) s =
      ((if f.size < rec.size then (truncate n ino f.size s).etcd else s).commit [.put (.inode ino)
          (applySetattr ((queued.map fun u => u.apply rec).getD rec) valid f now)],
       .ok ()) := by
  have h := truncate_reclaimed n f.size fun e he => (hin e he).1
  simp only [handleSetattr, hrec, commitSetattr, hvalid, true_and, size_queued]
  by_cases hlt : f.size < rec.size
  · simp only [if_pos hlt, h.failed, putInode_of_same (h.frame _ (by simp))]
    rfl
  · simp only [if_neg hlt, putInode_of_same rfl]
    rfl

def Resizes (n : Node) (ino : Nat) (s t : Etcd) : Prop :=
  ∃ rec rec', getInode s ino = some rec ∧ getInode t ino = some rec' ∧
    ((rec'.size < rec.size ∧
        ∀ c, valueAt t ino c = (valueAt s ino c).bind (shortened n rec'.size)) ∨
      (rec.size ≤ rec'.size ∧ getExtents t ino = getExtents s ino))

theorem resizes_truncate (hin : InAddressSpace s ino) (hrec : getInode s ino = some rec)
    {size : Nat} {rec' : InodeRecord} (hsize : rec'.size = size) (hlt : size < rec.size) :
    Resizes n ino s ((truncate n ino size s).etcd.commit [.put (.inode ino) rec']) := by
  refine ⟨rec, rec', hrec, getInode_put _ _, .inl ⟨hsize ▸ hlt, fun c => ?_⟩⟩
  rw [valueAt, get_extent_put, ← valueAt, hsize]
  exact truncate_valueAt hin c

theorem resizes_put (hrec : getInode s ino = some rec) {rec' : InodeRecord}
    (hle : rec.size ≤ rec'.size) :
    Resizes n ino s (s.commit [.put (.inode ino) rec']) :=
  ⟨rec, rec', hrec, getInode_put _ _, .inr ⟨hle, getExtents_congr (get_extent_put _ _)⟩⟩

theorem resizes_refl (hrec : getInode s ino = some rec) : Resizes n ino s s :=
  ⟨rec, rec, hrec, hrec, .inr ⟨Nat.le_refl _, rfl⟩⟩

theorem handleFallocate_eq (hrec : getInode s ino = some rec) {offset length : Nat}
    (hlen : length ≠ 0) (hbound : offset + length < offsetBound) (now : Time) :
    handleFallocate n ino 0 offset length now s = (if offset + length ≤ rec.size then s
        else s.commit [.put (.inode ino)
          { rec with size := offset + length, mtime := now, ctime := now }],
       .ok ()) := by
  have hkeep : (0 : UInt32) ≠ fallocKeepSize := by decide
  have hpunch : ¬ (0 : UInt32) &&& fallocPunchHole ≠ 0 := by decide
  simp only [handleFallocate, if_neg hlen, if_neg (Nat.not_le.mpr hbound), if_neg hkeep,
    if_neg hpunch, growTo_eq hrec]
  rfl

theorem step_of_getInode_none (hrec : getInode s ino = none) (call : SizeCall) :
    (sizeCalls ino).step s (n, call) = none := by
  cases call with
  | setattr valid f now queued =>
    simp [sizeCalls, setattrAttempts, handleSetattr, hrec, succeeded]
  | openTrunc now => simp [sizeCalls, truncateToZero, hrec, succeeded]
  | fallocate offset length now =>
    have hkeep : (0 : UInt32) ≠ fallocKeepSize := by decide
    simp only [sizeCalls, handleFallocate, growTo, hrec, if_neg hkeep]
    split
    · rfl
    · split <;> rfl

theorem resizes_of_step (hin : InAddressSpace s ino) {call : SizeCall} {t : Etcd}
    (h : (sizeCalls ino).step s (n, call) = some t) : Resizes n ino s t := by
  cases hrec : getInode s ino with
  | none =>
    rw [step_of_getInode_none hrec] at h
    cases h
  | some rec =>
    cases call with
    | setattr valid f now queued =>
      obtain ⟨hvalid, h⟩ := Option.ite_none_right_eq_some.mp h
      rw [setattrAttempts, handleSetattr_eq hin hrec hvalid] at h
      cases h
      have hsize : (applySetattr ((queued.map fun u => u.apply rec).getD rec) valid f now).size =
          f.size := if_pos hvalid
      by_cases hlt : f.size < rec.size
      · rw [if_pos hlt]
        exact resizes_truncate hin hrec hsize hlt
      · rw [if_neg hlt]
        exact resizes_put hrec (hsize ▸ Nat.le_of_not_lt hlt)
    | openTrunc now =>
      have h : succeeded (truncateToZero n ino now s) = some t := h
      rw [truncateToZero_eq hin hrec] at h
      cases h
      split
      · exact resizes_refl hrec
      · rename_i hnot
        exact resizes_truncate hin hrec rfl (Nat.pos_of_ne_zero fun hz => hnot (.inr hz))
    | fallocate offset length now =>
      have h : succeeded (handleFallocate n ino 0 offset length now s) = some t := h
      by_cases hargs : length ≠ 0 ∧ offset + length < offsetBound
      · rw [handleFallocate_eq hrec hargs.1 hargs.2] at h
        cases h
        split
        · exact resizes_refl hrec
        · rename_i hnot
          exact resizes_put hrec (Nat.le_of_not_le hnot)
      · -- The arguments are refused before the record is read.
        have hrefused : handleFallocate n ino 0 offset length now s = (s, .error .inval) := by
          unfold handleFallocate
          split
          · rfl
          · rename_i hlen
            exact if_pos (Nat.le_of_not_lt fun hlt => hargs ⟨hlen, hlt⟩)
        rw [hrefused] at h
        cases h

end

end EtcFS.Ipc
