import EtcFS.Core.Submission
import EtcFS.Metadata.LockKeys

/-!
# Acquiring an inode's lock key

An acquisition mints a token for each attempt. A later attempt first reads the keys of the tokens
tried so far and adopts the one it finds.
-/

namespace EtcFS.Ipc

open EtcFS.Core Metadata List

abbrev TextOp := Op fun _ : Text => Leased

def interleave (s : TextStore) (txns : List (List TextOp)) : TextStore := txns.foldl Store.commit s

def lockHeldBy (s : TextStore) (ino : Nat) (mode : LockMode) (holder : Holder) : Bool :=
  (s.get (lockKey ino mode holder)).isSome

def adoptOwnLock (s : TextStore) (ino : Nat) (mode : LockMode) :
    List Holder → List Bool → Option Holder
  | holder :: attempted, true :: reads =>
    if lockHeldBy s ino mode holder then some holder
    else adoptOwnLock s ino mode attempted reads
  | _, _ => none

structure KeyAttempt where
  before : List (List TextOp)
  reads : List Bool
  between : List (List TextOp)
  holder : Holder
  reply : Reply
  wanted : Bool

def KeyAttempt.Reaches (a : KeyAttempt) (i : Nat) : Prop :=
  replicate (i + 1) true <+: a.reads
  deriving Decidable

structure KeyCall where
  store : TextStore
  attempted : List Holder
  announced : Bool

def acquireTxn (s : TextStore) (ino : Nat) (mode : LockMode) (holder : Holder) (node : NodeID) :
    Option TextStore :=
  s.txn [lockFree ino mode] [putLock ino mode holder node]

def KeyAttempt.seen (a : KeyAttempt) (c : KeyCall) : TextStore := interleave c.store a.before

def KeyAttempt.met (a : KeyAttempt) (c : KeyCall) : TextStore := interleave (a.seen c) a.between

def attemptKey (ino : Nat) (mode : LockMode) (node : NodeID) (a : KeyAttempt) (c : KeyCall) :
    Option Holder × KeyCall :=
  match adoptOwnLock (a.seen c) ino mode c.attempted a.reads with
  | some holder => (some holder, { c with store := a.seen c })
  | none =>
    let attempted := c.attempted ++ [a.holder]
    match a.reply.deliver (acquireTxn (a.met c) ino mode a.holder node) (a.met c) with
    | (.committed, s) => (some a.holder, { c with store := s, attempted := attempted })
    | (.failed, s) => (none, { c with store := s, attempted := attempted })
    -- `ErrConflict`: the holder is asked to yield
    | (.rejected, s) =>
      (none, { store := if a.wanted then
                 s.commit [.put (lockWantKey ino node) ⟨node.toList, some a.holder.lease⟩] else s,
               attempted := attempted, announced := true })

def retryKey (ino : Nat) (mode : LockMode) (node : NodeID) :
    List KeyAttempt → KeyCall → Option Holder × KeyCall
  | [], c => (none, c)
  | a :: attempts, c =>
    match attemptKey ino mode node a c with
    | (some holder, c') => (some holder, c')
    | (none, c') => retryKey ino mode node attempts c'

def contendedAttempts : Nat := 22

def acquireLockKey (ino : Nat) (mode : LockMode) (node : NodeID) (attempts : List KeyAttempt)
    (cleared : Bool) (s : TextStore) : Option Holder × KeyCall :=
  match retryKey ino mode node (attempts.take contendedAttempts) ⟨s, [], false⟩ with
  | (holder, c) =>
    (holder, { c with store := if c.announced && cleared then
                 c.store.commit [.delete (lockWantKey ino node)] else c.store })

/-! ## What a key sees of other writes -/

section

variable {s t : TextStore} {ino : Nat} {mode : LockMode} {holder : Holder} {node : NodeID}

theorem lockHeldBy_commit {ops : List TextOp} (h : ∀ op ∈ ops, op.key ≠ lockKey ino mode holder) :
    lockHeldBy (s.commit ops) ino mode holder = lockHeldBy s ino mode holder := by
  rw [lockHeldBy, Store.get_commit_of_untouched h, lockHeldBy]

theorem lockHeldBy_interleave {txns : List (List TextOp)}
    (h : ∀ ops ∈ txns, ∀ op ∈ ops, op.key ≠ lockKey ino mode holder) :
    lockHeldBy (interleave s txns) ino mode holder = lockHeldBy s ino mode holder := by
  induction txns generalizing s with
  | nil => rfl
  | cons ops txns ih =>
    rw [forall_mem_cons] at h
    exact (ih h.2).trans (lockHeldBy_commit h.1)

theorem lockWantKey_ne_lockKey (ino ino' : Nat) (mode : LockMode) (holder : Holder)
    (node : NodeID) : lockWantKey ino' node ≠ lockKey ino mode holder := by
  intro he
  have hpre : prefixLock <+: lockKey ino mode holder :=
    (prefixLock_begins ino).trans ((lockPrefix_begins ino mode).trans (prefix_append _ _))
  rw [← he] at hpre
  exact not_prefixLock_lockWantKey ino' node hpre

theorem lockHeldBy_want {op : TextOp} (h : op.key = lockWantKey ino node) :
    lockHeldBy (s.commit [op]) ino mode holder = lockHeldBy s ino mode holder := by
  refine lockHeldBy_commit ?_
  intro op' hop'
  rw [mem_singleton.mp hop', h]
  exact lockWantKey_ne_lockKey ino ino mode holder node

theorem lockHeldBy_acquireTxn {own : Holder} (h : acquireTxn s ino mode own node = some t) :
    lockHeldBy t ino mode holder = (holder == own || lockHeldBy s ino mode holder) := by
  obtain ⟨-, rfl⟩ := Store.txn_eq_some_iff.mp h
  by_cases he : holder = own
  · subst he
    simp [lockHeldBy, putLock, Store.get_commit, effect]
  · rw [beq_eq_false_iff_ne.mpr he, Bool.false_or]
    refine lockHeldBy_commit ?_
    intro op hop
    rw [mem_singleton.mp hop]
    exact fun hk => he (holder_eq_of_lockKey hk).symm

theorem adoptOwnLock_of_none {attempted : List Holder}
    (h : ∀ own ∈ attempted, lockHeldBy s ino mode own = false) (reads : List Bool) :
    adoptOwnLock s ino mode attempted reads = none := by
  induction attempted generalizing reads with
  | nil => rfl
  | cons own attempted ih =>
    rw [forall_mem_cons] at h
    match reads with
    | [] | false :: _ => rfl
    | true :: reads =>
      rw [adoptOwnLock, h.1]
      exact ih h.2 reads

theorem adoptOwnLock_at {before : List Holder}
    (hb : ∀ own ∈ before, lockHeldBy s ino mode own = false)
    (hheld : lockHeldBy s ino mode holder = true) (after : List Holder) (reads : List Bool) :
    adoptOwnLock s ino mode (before ++ holder :: after) reads =
      if replicate (before.length + 1) true <+: reads then some holder else none := by
  induction before generalizing reads with
  | nil =>
    match reads with
    | [] | false :: _ => rfl
    | true :: reads => simp [adoptOwnLock, hheld]
  | cons own before ih =>
    rw [forall_mem_cons] at hb
    match reads with
    | [] | false :: _ => simp [adoptOwnLock, replicate_succ]
    | true :: reads =>
      rw [cons_append, adoptOwnLock, hb.1]
      simp only [Bool.false_eq_true, if_false, ih hb.2 reads, length_cons,
        replicate_succ, cons_prefix_cons, true_and]

end

end EtcFS.Ipc
