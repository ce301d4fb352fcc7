import EtcFS.Core.Text
import EtcFS.Core.Transition
import EtcFS.Metadata.Schema

/-!
# Lock keys and the transactions on them

An acquisition compares a range of keys by their text, so the keys are texts here. They may hang on
a lease and go with it.
-/

namespace EtcFS.Metadata

open EtcFS.Core List

def LockMode.text : LockMode → Text
  | .shared => "shared".toList
  | .exclusive => "exclusive".toList

def Holder.text (h : Holder) : Text := decimal h.lease ++ '-' :: decimal h.seq

def prefixLock : Text := "lock:".toList

def lockPrefix (ino : Nat) : Text := prefixLock ++ (decimal ino ++ ['/'])

def lockModePrefix (ino : Nat) (mode : LockMode) : Text := lockPrefix ino ++ (mode.text ++ ['/'])

def lockKey (ino : Nat) (mode : LockMode) (holder : Holder) : Text :=
  lockModePrefix ino mode ++ holder.text

def lockWantKey (ino : Nat) (node : NodeID) : Text :=
  "lock_want:".toList ++ (decimal ino ++ '/' :: node.toList)

def inodeKey (ino : Nat) : Text := "inode:".toList ++ decimal ino

def direntKey (parent : Nat) (name : String) : Text :=
  "dirent:".toList ++ (decimal parent ++ '/' :: name.toList)

structure Leased where
  value : Text
  lease : Option Nat
  deriving DecidableEq, Repr

abbrev TextStore := Store fun _ : Text => Leased

def blocked (ino : Nat) : LockMode → Text
  | .exclusive => lockPrefix ino
  | .shared => lockModePrefix ino .exclusive

def lockFree (ino : Nat) (mode : LockMode) : Cmp fun _ : Text => Leased :=
  .rangeAbsent fun k => (blocked ino mode).isPrefixOf k

def putLock (ino : Nat) (mode : LockMode) (holder : Holder) (node : NodeID) :
    Op fun _ : Text => Leased :=
  .put (lockKey ino mode holder) ⟨node.toList, some holder.lease⟩

/-! ## What the texts tell apart -/

theorem text_slash_free (mode : LockMode) : '/' ∉ mode.text := by
  cases mode <;> decide

theorem LockMode.text_inj {m m' : LockMode} (h : m.text = m'.text) : m = m' := by
  cases m <;> cases m' <;> first | rfl | exact absurd h (by decide)

theorem Holder.text_inj {h h' : Holder} (he : h.text = h'.text) : h = h' := by
  obtain ⟨hl, hs⟩ := field_eq_of_append (not_mem_decimal (by decide) _)
    (not_mem_decimal (by decide) _) he
  cases h
  cases h'
  simp only [Holder.mk.injEq]
  exact ⟨decimal_inj hl, decimal_inj hs⟩

variable {mode : LockMode}

theorem ino_eq_of_lockPrefix {ino ino' : Nat} {holder : Holder}
    (h : lockPrefix ino <+: lockKey ino' mode holder) : ino = ino' := by
  simp only [lockKey, lockModePrefix, lockPrefix, append_assoc] at h
  have h' := (prefix_append_right_inj _).mp h
  exact decimal_inj (field_eq_of_begins (not_mem_decimal (by decide) _)
    (not_mem_decimal (by decide) _) h')

theorem lockPrefix_begins (ino : Nat) (mode : LockMode) :
    lockPrefix ino <+: lockModePrefix ino mode := prefix_append _ _

theorem mode_eq_of_lockModePrefix {ino ino' : Nat} {mode' : LockMode} {holder : Holder}
    (h : lockModePrefix ino mode <+: lockKey ino' mode' holder) : mode = mode' := by
  obtain rfl := ino_eq_of_lockPrefix ((lockPrefix_begins ino mode).trans h)
  simp only [lockKey, lockModePrefix, append_assoc] at h
  have h' := (prefix_append_right_inj _).mp h
  exact LockMode.text_inj (field_eq_of_begins (text_slash_free _) (text_slash_free _) h')

theorem holder_eq_of_lockKey {ino : Nat} {h h' : Holder}
    (he : lockKey ino mode h = lockKey ino mode h') : h = h' :=
  Holder.text_inj (append_cancel_left he)

theorem prefixLock_begins (ino : Nat) : prefixLock <+: lockPrefix ino := prefix_append _ _

/-- Want keys, records and entries are outside every inode's range. -/
theorem not_prefixLock_lockWantKey (ino : Nat) (node : NodeID) :
    ¬ prefixLock <+: lockWantKey ino node := by
  intro h
  have h' := prefix_of_prefix_length_le h (prefix_append _ _) (by decide)
  exact absurd h' (by decide)

@[inherit_doc not_prefixLock_lockWantKey]
theorem not_prefixLock_inodeKey (ino : Nat) : ¬ prefixLock <+: inodeKey ino := by
  intro h
  have h' := prefix_of_prefix_length_le h (prefix_append _ _) (by decide)
  exact absurd h' (by decide)

@[inherit_doc not_prefixLock_lockWantKey]
theorem not_prefixLock_direntKey (parent : Nat) (name : String) :
    ¬ prefixLock <+: direntKey parent name := by
  intro h
  have h' := prefix_of_prefix_length_le h (prefix_append _ _) (by decide)
  exact absurd h' (by decide)

theorem holds_lockFree {s : TextStore} {ino : Nat} :
    s.holds (lockFree ino mode) = true ↔ ∀ k, blocked ino mode <+: k → s.get k = none := by
  rw [lockFree, Store.holds_rangeAbsent]
  simp only [ isPrefixOf_iff_prefix]

/-! ## The requests -/

structure LockRelease where
  ino : Nat
  mode : LockMode
  holder : Holder
  deriving DecidableEq, Repr

inductive LockRequest where
  /-- `AcquireLock`, with the token it minted. -/
  | acquire (ino : Nat) (mode : LockMode) (holder : Holder) (node : NodeID)
  /-- `AtomicCreateFile` with an exclusive `PrepareLock` folded in. -/
  | create (parent : Nat) (name : String) (ino : Nat) (dirent record : Text) (holder : Holder)
      (node : NodeID)
  /-- `ReleaseLocks`, and `ReleaseLock` for one key. -/
  | release (batch : List LockRelease)
  /-- `AnnounceLockWant`. -/
  | want (ino : Nat) (node : NodeID) (lease : Nat)
  /-- `ClearLockWant`. -/
  | clearWant (ino : Nat) (node : NodeID)

namespace LockRequest

def cmps : LockRequest → List (Cmp fun _ : Text => Leased)
  | .acquire ino mode _ _ => [lockFree ino mode]
  | .create parent name ino _ _ _ _ =>
    [.absent (direntKey parent name), .absent (inodeKey ino), lockFree ino .exclusive]
  | .release _ | .want _ _ _ | .clearWant _ _ => []

def ops : LockRequest → List (Op fun _ : Text => Leased)
  | .acquire ino mode holder node => [putLock ino mode holder node]
  | .create parent name ino dirent record holder node =>
    [.put (direntKey parent name) ⟨dirent, none⟩, .put (inodeKey ino) ⟨record, none⟩,
      putLock ino .exclusive holder node]
  | .release batch => batch.map fun r => .delete (lockKey r.ino r.mode r.holder)
  | .want ino node lease => [.put (lockWantKey ino node) ⟨node.toList, some lease⟩]
  | .clearWant ino node => [.delete (lockWantKey ino node)]

def lease : LockRequest → Option Nat
  | .acquire _ _ holder _ | .create _ _ _ _ _ holder _ => some holder.lease
  | .want _ _ lease => some lease
  | .release _ | .clearWant _ _ => none

end LockRequest

structure LockState where
  store : TextStore
  live : List Nat
  granted : List Nat
  session : NodeID → Option Nat
  lockSeq : NodeID → Nat
  flight : List LockRequest

inductive LockStep where
  /-- `lockSession` grants a node a lease. -/
  | grant (node : NodeID) (lease : Nat)
  /-- A node mints a token and sends the acquisition. -/
  | acquire (node : NodeID) (ino : Nat) (mode : LockMode)
  /-- A node mints a token and sends a create that takes the lock. -/
  | create (node : NodeID) (parent : Nat) (name : String) (ino : Nat) (dirent record : Text)
  | release (batch : List LockRelease)
  | want (node : NodeID) (ino : Nat)
  | clearWant (node : NodeID) (ino : Nat)
  /-- etcd evaluates a request under way. -/
  | deliver (i : Nat)
  /-- A request is lost. -/
  | lose (i : Nat)
  /-- A lease expires or is revoked, and its keys go. -/
  | expire (lease : Nat)

def keysOf (s : TextStore) (lease : Nat) : List Text :=
  s.list fun k v => if v.value.lease = some lease then some k else none

def LockState.mint (s : LockState) (node : NodeID) (request : Holder → LockRequest) :
    Option LockState := do
  let lease ← s.session node
  let seq := s.lockSeq node + 1
  some { s with lockSeq := Function.update s.lockSeq node seq,
                flight := s.flight ++ [request ⟨lease, seq⟩] }

def LockState.evaluate (s : LockState) (request : LockRequest) : TextStore :=
  if ∀ lease ∈ request.lease, lease ∈ s.live then
    (s.store.txn request.cmps request.ops).getD s.store
  else s.store

def lockTraffic : Machine LockState LockStep where
  step s
    | .grant node lease =>
      if lease ∉ s.granted ∧ ∀ old ∈ s.session node, old ∉ s.live then
        some { s with session := Function.update s.session node (some lease),
                      live := lease :: s.live, granted := lease :: s.granted }
      else none
    | .acquire node ino mode => s.mint node fun holder => .acquire ino mode holder node
    | .create node parent name ino dirent record =>
      s.mint node fun holder => .create parent name ino dirent record holder node
    | .release batch => some { s with flight := s.flight ++ [.release batch] }
    | .want node ino => do
      let lease ← s.session node
      some { s with flight := s.flight ++ [.want ino node lease] }
    | .clearWant node ino => some { s with flight := s.flight ++ [.clearWant ino node] }
    | .deliver i => do
      let request ← s.flight[i]?
      some { s with store := s.evaluate request, flight := s.flight.eraseIdx i }
    | .lose i => some { s with flight := s.flight.eraseIdx i }
    | .expire lease =>
      some { s with live := s.live.erase lease,
                    store := s.store.commit ((keysOf s.store lease).map .delete) }

end EtcFS.Metadata
