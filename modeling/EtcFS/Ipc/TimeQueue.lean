import EtcFS.Core.Transition
import EtcFS.Ipc.Attributes

/-!
# Timestamps that wait to be published

What an inode owes its clocks waits as one merged update, taken out by a sweep or a setattr. `none`
stands for the zero time of a touch.
-/

namespace EtcFS.Ipc

open EtcFS.Core Metadata Option

/-! ## The queue of one inode -/

def isAfter : Option Time → Option Time → Bool
  | none, _ => false
  | some _, none => true
  | some a, some b => decide (b < a)

namespace TimeUpdate

def nothing : TimeUpdate := ⟨none, none, none, none⟩

def mergeAssignment (u next : TimeUpdate) : TimeUpdate where
  bump := none
  atime := next.atime.or u.atime
  mtime := next.mtime.or u.mtime
  ctime := next.ctime.or u.ctime

def changed (u : TimeUpdate) (record : InodeRecord) : Bool :=
  u.atime.any (· ≠ record.atime) || u.mtime.any (· ≠ record.mtime) ||
    u.ctime.any (record.ctime < ·) || u.bump.any (u.mtime.getD record.mtime < ·)

end TimeUpdate

def queueTouch (queued : Option TimeUpdate) (moment : Time) : Option TimeUpdate :=
  let u := queued.getD .nothing
  some (if isAfter (some moment) u.bump then { u with bump := some moment } else u)

def queueInodeTimes (queued : Option TimeUpdate) (atime mtime ctime : Option Time) :
    Option TimeUpdate :=
  if atime.isNone ∧ mtime.isNone ∧ ctime.isNone then queued
  else some ((queued.getD .nothing).mergeAssignment ⟨none, atime, mtime, ctime⟩)

def requeue (queued : Option TimeUpdate) (u : TimeUpdate) : Option TimeUpdate :=
  match queued with
  | none => some u
  | some newer =>
    let merged := u.mergeAssignment newer
    some (if isAfter newer.bump merged.bump then { merged with bump := newer.bump } else merged)

def pendingInodeTimes (queued : Option TimeUpdate) (record : InodeRecord) : InodeRecord :=
  (queued.map fun u => u.apply record).getD record

inductive TimeCall where
  | touch (moment : Time)
  | assign (atime mtime ctime : Option Time)
  deriving DecidableEq, Repr

def TimeCall.update : TimeCall → TimeUpdate
  | .touch moment => ⟨some moment, none, none, none⟩
  | .assign atime mtime ctime => ⟨none, atime, mtime, ctime⟩

def queueCall (queued : Option TimeUpdate) : TimeCall → Option TimeUpdate
  | .touch moment => queueTouch queued moment
  | .assign atime mtime ctime => queueInodeTimes queued atime mtime ctime

structure TimeQueue where
  queued : Option TimeUpdate := none
  taken : List TimeUpdate := []

namespace TimeQueue

inductive Act where
  | call (c : TimeCall)
  /-- `TakeInodeTimes`, or the sweep. -/
  | take
  /-- `RequeueInodeTimes`, or a sweep that failed, for one of the updates taken. -/
  | requeue (i : Nat)

def machine : Machine TimeQueue Act where
  step s
    | .call c => some { s with queued := queueCall s.queued c }
    | .take =>
      match s.queued with
      | none => some s
      | some u => some ⟨none, u :: s.taken⟩
    | .requeue i =>
      s.taken[i]?.map fun u => ⟨Ipc.requeue s.queued u, s.taken.eraseIdx i⟩

def calls : List Act → List TimeCall :=
  List.filterMap fun
    | .call c => some c
    | .take | .requeue _ => none

end TimeQueue

/-! ## Publishing -/

def timesOps (ino : Nat) (u : TimeUpdate) (r : Etcd) : List (Cmp Val × Op Val) :=
  match r.get (.inode ino) with
  | none => []
  | some ⟨record, rev⟩ =>
    if u.changed record then
      [(.modRevisionEq (.inode ino) rev, .put (.inode ino) (u.apply record))]
    else []

def publishTimes (due : List (Nat × TimeUpdate)) (read : Nat → Etcd) (s : Etcd) : Option Etcd :=
  let parts := due.flatMap fun d => timesOps d.1 d.2 (read d.1)
  if parts.isEmpty then none else s.txn (parts.map Prod.fst) (parts.map Prod.snd)

/-! ## What an update does to the clocks -/

section

variable (u : TimeUpdate) (record : InodeRecord)

theorem apply_atime : (u.apply record).atime = u.atime.getD record.atime := by
  simp only [TimeUpdate.apply]
  split
  · rfl
  · split <;> rfl

theorem apply_mtime : (u.apply record).mtime = forward (u.mtime.getD record.mtime) u.bump := by
  simp only [TimeUpdate.apply, forward]
  split
  · rfl
  · split <;> rfl

theorem pendingInodeTimes_eq (queued : Option TimeUpdate) :
    pendingInodeTimes queued record = (queued.getD .nothing).apply record := by
  cases queued <;> rfl

end

theorem forward_some (clock t : Time) : forward clock (some t) = max clock t := by
  rw [forward, max_def_lt]

theorem le_forward (clock : Time) (t : Option Time) : clock ≤ forward clock t := by
  cases t with
  | none => exact Int.le_refl _
  | some t =>
    rw [forward_some]
    exact Int.le_max_left ..

theorem forward_of_le {a b t : Time} (hab : a ≤ b) (hb : b ≤ a ∨ b ≤ t) :
    forward a (some t) = forward b (some t) := by
  rw [forward_some, forward_some]
  rcases hb with hb | hb
  · rw [Int.le_antisymm hab hb]
  · rw [Int.max_eq_right (Int.le_trans hab hb), Int.max_eq_right hb]

/-! ## What is queued -/

section

variable {queued : Option TimeUpdate} {u : TimeUpdate} {moment : Time}

theorem queueTouch_eq (h : ∀ b ∈ (queued.getD .nothing).bump, b ≤ moment) :
    queueTouch queued moment = some { queued.getD .nothing with bump := some moment } := by
  rw [queueTouch]
  split
  · rfl
  · rename_i hnot
    cases hb : (queued.getD .nothing).bump with
    | none =>
      rw [hb] at hnot
      exact absurd rfl hnot
    | some b =>
      have hle := h b hb
      rw [hb, isAfter, decide_eq_true_iff] at hnot
      obtain rfl : b = moment := Int.le_antisymm hle (Int.not_lt.mp hnot)
      rw [← hb]

section

variable {atime mtime ctime : Option Time}

theorem queueInodeTimes_clocks :
    ((queueInodeTimes queued atime mtime ctime).getD .nothing).atime =
        atime.or (queued.getD .nothing).atime ∧
      ((queueInodeTimes queued atime mtime ctime).getD .nothing).mtime =
        mtime.or (queued.getD .nothing).mtime := by
  rw [queueInodeTimes]
  split
  · rename_i h
    rw [isNone_iff_eq_none.mp h.1, isNone_iff_eq_none.mp h.2.1, none_or, none_or]
    exact ⟨rfl, rfl⟩
  · exact ⟨rfl, rfl⟩

theorem queueInodeTimes_bump {b : Time}
    (h : b ∈ ((queueInodeTimes queued atime mtime ctime).getD .nothing).bump) :
    b ∈ (queued.getD .nothing).bump := by
  rw [queueInodeTimes] at h
  split at h
  · exact h
  · cases h

end

theorem requeue_some (newer : TimeUpdate) :
    requeue (some newer) u = some { u.mergeAssignment newer with bump := newer.bump } := by
  rw [requeue]
  cases hb : newer.bump with
  | none => rfl
  | some b => rfl

theorem queueCall_requeue (c : TimeCall)
    (h : ∀ moment, c = .touch moment → ∀ b ∈ u.bump, b ≤ moment) :
    queueCall (requeue queued u) c = requeue (queueCall queued c) u := by
  cases c with
  | touch moment =>
    cases queued with
    | none => exact queueTouch_eq (h moment rfl)
    | some newer =>
      simp only [queueCall, requeue_some, queueTouch, Option.getD_some]
      split <;> rfl
  | assign atime mtime ctime =>
    simp only [queueCall, queueInodeTimes]
    split
    · rfl
    · cases queued with
      | none =>
        rw [requeue_some]
        simp only [requeue, Option.getD_none, Option.getD_some, TimeUpdate.mergeAssignment,
          TimeUpdate.nothing, or_none]
      | some newer =>
        rw [requeue_some, requeue_some]
        simp only [Option.getD_some, TimeUpdate.mergeAssignment, Option.or_assoc]

end

end EtcFS.Ipc
