import EtcFS.Ipc.Faults

/-!
# A write buffer under faults

One entry of the lock cache with its buffer, while replies are lost, reads are stale, the lease ends
and the node is fenced.
-/

namespace EtcFS.Ipc

open EtcFS.Core Metadata Arena Option

structure Delegation where
  file : FileState
  /-- The entry names a holder token. -/
  held : Bool
  /-- The metadata that a write in progress is planned from. -/
  planned : Option InodeMeta
  /-- The stores before the present one, the latest first. -/
  past : List Etcd
  /-- An attempt to publish the buffer got in and its reply was lost. -/
  landed : Bool
  /-- The blocks that the last step's discard gave back. -/
  discarded : Option (List Nat)

structure FlushFaults where
  /-- The device takes the payload. -/
  stored : Bool
  reply : Reply
  /-- The read that tells a fence apart goes through. -/
  checked : Bool
  /-- How many transactions old the listing is that looks for an earlier attempt, if
  the read goes through. -/
  age : Option Nat
  /-- The read of the lock key goes through. -/
  asked : Bool
  deriving DecidableEq, Repr

inductive DelegationAct where
  /-- `GetInodeAndExtents`, from a member that may be this many transactions behind. -/
  | read (age : Nat)
  /-- A write takes the snapshot to plan from. -/
  | plan
  /-- `bufferWrite`: the write joins the buffer. -/
  | buffer (a : WriteAct)
  /-- The write ends on another path. -/
  | abandon
  /-- `flushLocked`, one attempt. -/
  | flush (f : FlushFaults)
  /-- `keyLostLocked`: the lock session is found to have ended. -/
  | keyLost
  /-- `releaseKeyLocked`, after a flush. -/
  | release
  /-- `ReleaseCachedLocks`, for a buffer that could not be published. -/
  | shutDown
  /-- `ensureLockKey` takes the key under a new token. -/
  | acquire (next : Holder)
  /-- A scrub pass deletes a record of the inode, if it is still at the revision it saw. -/
  | scrub (chunk revision : Nat)
  /-- Any other transaction. -/
  | other (ops : List (Op Val))

def landedOp (listed : List Extent) : Op Val → Option Bool
  | .put (.extent _ chunk) v =>
    some (listed.any fun e => decide (e.chunk = chunk ∧ e.toExtentValue = v))
  | .delete (.extent _ chunk) => some (!listed.any fun e => decide (e.chunk = chunk))
  | _ => none

def Pending.alreadyLanded (p : Pending) (listed : List Extent) : Bool :=
  let checks := p.ops.filterMap (landedOp listed)
  checks != [] && checks.all id

/-- A buffer is found in a store that has, for each extent the buffer writes, what the buffer
would leave. -/
theorem alreadyLanded_of_values {b : Pending} {etcd : Etcd} {ino : Nat}
    (hnodup : (b.ops.map Op.key).Nodup)
    (hkeys : ∀ k, effect k b.ops ≠ none → k = .inode ino ∨ ∃ chunk, k = .extent ino chunk)
    (hwrites : ∃ chunk, effect (.extent ino chunk) b.ops ≠ none)
    (hvalue : ∀ chunk x, effect (.extent ino chunk) b.ops = some x →
      (etcd.get (.extent ino chunk)).map Versioned.value = x) :
    b.alreadyLanded (getExtents etcd ino) = true := by
  have hop : ∀ op ∈ b.ops, ∀ found, landedOp (getExtents etcd ino) op = some found →
      found = true := by
    intro op hop found hfound
    have heff := effect_of_mem hnodup hop
    have hkey := hkeys op.key
    unfold landedOp at hfound
    split at hfound
    case h_1 i chunk v =>
      rw [Op.key, Op.effect_put_self] at heff
      rw [Op.key, heff] at hkey
      obtain hk | ⟨_, hk⟩ := hkey (by simp)
      · cases hk
      · obtain ⟨rfl, -⟩ := Key.extent.inj hk
        obtain ⟨e, he, hc, hv⟩ := ((getExtents_describes _ _).get_iff chunk v).mp (hvalue _ _ heff)
        rw [← Option.some.inj hfound, List.any_eq_true]
        exact ⟨e, he, decide_eq_true ⟨hc, hv⟩⟩
    case h_2 i chunk =>
      rw [Op.key, Op.effect_delete_self] at heff
      rw [Op.key, heff] at hkey
      obtain hk | ⟨_, hk⟩ := hkey (by simp)
      · cases hk
      · obtain ⟨rfl, -⟩ := Key.extent.inj hk
        have hnone := hvalue _ _ heff
        rw [← Option.some.inj hfound, Bool.not_eq_true', List.any_eq_false]
        intro e he hc
        obtain rfl := of_decide_eq_true hc
        rw [mem_getExtents.mp he] at hnone
        cases hnone
    case h_3 => cases hfound
  obtain ⟨chunk, hchunk⟩ := hwrites
  rw [ne_eq, effect_eq_none_iff] at hchunk
  push Not at hchunk
  obtain ⟨op, hmem, hk⟩ := hchunk
  have hsome : ∃ found, landedOp (getExtents etcd ino) op = some found := by
    cases op with
    | put k v =>
      obtain rfl : k = .extent ino chunk := hk
      exact ⟨_, rfl⟩
    | delete k =>
      obtain rfl : k = .extent ino chunk := hk
      exact ⟨_, rfl⟩
  obtain ⟨found, hfound⟩ := hsome
  rw [Pending.alreadyLanded, Bool.and_eq_true, bne_iff_ne, List.all_eq_true]
  constructor
  · exact List.ne_nil_of_mem (List.mem_filterMap.mpr ⟨op, hmem, hfound⟩)
  · intro found hfound
    obtain ⟨op, hmem, hfound⟩ := List.mem_filterMap.mp hfound
    exact hop op hmem found hfound

def adoptRevision (listed : List Extent) (e : Extent) : Extent :=
  match listed.find? fun x => decide (x.chunk = e.chunk) with
  | some x => { e with modRevision := x.modRevision }
  | none => e

theorem adoptRevision_eq (listed : List Extent) (e : Extent) :
    (adoptRevision listed e).toExtentValue = e.toExtentValue ∧
      (adoptRevision listed e).chunk = e.chunk := by
  unfold adoptRevision
  split <;> exact ⟨rfl, rfl⟩

namespace Delegation

def commit (s : Delegation) (etcd : Etcd) : Delegation :=
  { s with file := { s.file with etcd := etcd }, past := s.file.etcd :: s.past }

def discards (s : Delegation) : List Nat :=
  s.file.pending.freed ++ s.file.pending.runs.flatMap Run.blocks

def discardPending (s : Delegation) : Delegation :=
  { s with
    file := { s.file.free s.discards with pending := .none, cached := none }
    landed := false
    discarded := some s.discards }

def forget (s : Delegation) : Delegation :=
  { s with held := false, file := { s.file with cached := none } }

def keyLost (s : Delegation) : Delegation :=
  if s.file.pending.isEmpty = true then s.forget else s.forget.discardPending

def storeData (s : Delegation) : Delegation :=
  { s with
    file := { s.file with
      device := flushData s.file.pending.data s.file.device
      pending := { s.file.pending with data := [] } } }

def publish (c : FileConfig) (s : Delegation) : Option Etcd :=
  s.file.etcd.txn (c.node.guard :: (s.file.pending.txn.1 ++
    [.present (.lock c.ino .exclusive s.file.holder)])) s.file.pending.txn.2

def flushCommitted (c : FileConfig) (s : Delegation) (etcd : Etcd) : Delegation :=
  { s with
    file := s.file.flushCommitted c etcd
    past := s.file.etcd :: s.past
    landed := false }

def adopt (s : Delegation) (listed : List Extent) : Delegation :=
  { s with
    file := { s.file.free s.file.pending.freed with
      cached := s.file.cached.map fun m =>
        { m with extents := m.extents.map (adoptRevision listed) }
      pending := .none }
    landed := false }

def listing (c : FileConfig) (s : Delegation) (age : Nat) : Option (List Extent) :=
  ((s.file.etcd :: s.past)[age]?).map fun etcd => getExtents etcd c.ino

def rejected (c : FileConfig) (s : Delegation) (f : FlushFaults) : Delegation :=
  if f.checked = true ∧ c.node.fenced s.file.etcd = true then s.discardPending
  else
    match (f.age.bind (s.listing c)).filter s.file.pending.alreadyLanded with
    | some listed => s.adopt listed
    | none =>
      if f.asked = true ∧ s.file.etcd.get (.lock c.ino .exclusive s.file.holder) = none then
        s.keyLost
      else s

def submit (c : FileConfig) (s : Delegation) (f : FlushFaults) : Delegation :=
  match f.reply, s.publish c with
  | .unsent, _ | .lost, none => s
  | .lost, some etcd => { s.commit etcd with landed := true }
  | .answered, some etcd => s.flushCommitted c etcd
  | .answered, none => s.rejected c f

def flush (c : FileConfig) (s : Delegation) (f : FlushFaults) : Delegation :=
  if s.file.pending.isEmpty = true then s
  else if s.held = false then s.discardPending
  else if f.stored = false then s
  else s.storeData.submit c f

def buffer (c : FileConfig) (s : Delegation) (a : WriteAct) : Option Delegation :=
  s.planned.bind fun m =>
    let p := proposal c.node a.req a.runs m.record m.extents
    if a.req.ino = c.ino ∧ MayAllocate s.file.allocated a.req.data.length a.runs ∧
        p.modeChanged = false ∧ p.deferredReclaim = [] ∧
        ¬s.file.Full c p (a.heldBytes (a.hold 0)) then
      (replayTxn c.ino m.record p.ops).map fun replay =>
        { s with
          file := (s.file.reserve a.blocks).bufferWrite a p replay (a.heldBytes (a.hold 0))
            (a.heldData (a.hold 0))
          planned := none }
    else none

def scrub (c : FileConfig) (s : Delegation) (chunk revision : Nat) : Delegation :=
  match s.file.etcd.txn [c.node.guard, .modRevisionEq (.extent c.ino chunk) revision]
    [.delete (.extent c.ino chunk)] with
  | some etcd => s.commit etcd
  | none => s

def step (c : FileConfig) (s : Delegation) : DelegationAct → Option Delegation
  | .read age =>
    if s.planned = none ∧ s.held = true ∧ s.file.cached = none ∧
        s.file.pending.isEmpty = true then do
      let etcd ← (s.file.etcd :: s.past)[age]?
      let record ← getInode etcd c.ino
      pure { s with
        file := { s.file with cached := some ⟨record, getExtents etcd c.ino⟩ } }
    else none
  | .plan =>
    if s.planned = none ∧ s.held = true then
      s.file.cached.map fun m => { s with planned := some m }
    else none
  | .buffer a => s.buffer c a
  | .abandon => some { s with planned := none }
  | .flush f => if s.planned = none then some (s.flush c f) else none
  | .keyLost => some s.keyLost
  | .release =>
    if s.planned = none ∧ s.held = true ∧ s.file.pending.isEmpty = true then
      some (s.commit (s.file.etcd.commit [.delete (.lock c.ino .exclusive s.file.holder)])).keyLost
    else none
  | .shutDown => if s.planned = none then some s.discardPending else none
  | .acquire next =>
    if s.planned = none ∧ s.held = false then
      let s := s.commit (s.file.etcd.commit [.put (.lock c.ino .exclusive next) c.node.id])
      some { s with file := { s.file with holder := next }, held := true }
    else none
  | .scrub chunk revision => some (s.scrub c chunk revision)
  | .other ops => some (s.commit (s.file.etcd.commit ops))

end Delegation

inductive FlushEnd (c : FileConfig) (s : Delegation) (f : FlushFaults) : Delegation → Prop
  | idle (hempty : s.file.pending.isEmpty = true) : FlushEnd c s f s
  | unheld (hheld : s.held = false) : FlushEnd c s f s.discardPending
  | unstored (hstored : f.stored = false) : FlushEnd c s f s
  /-- The transaction is not applied, and the node is not told. -/
  | untold (hreply : f.reply ≠ .answered) : FlushEnd c s f s.storeData
  | landed {etcd : Etcd} (hreply : f.reply = .lost) (htxn : s.publish c = some etcd) :
    FlushEnd c s f { s.storeData.commit etcd with landed := true }
  | committed {etcd : Etcd} (hreply : f.reply = .answered) (htxn : s.publish c = some etcd) :
    FlushEnd c s f (s.storeData.flushCommitted c etcd)
  | fenced (hreply : f.reply = .answered) (htxn : s.publish c = none)
    (hfenced : c.node.fenced s.file.etcd = true) : FlushEnd c s f s.storeData.discardPending
  | adopted {age : Nat} {listed : List Extent} (hreply : f.reply = .answered)
    (htxn : s.publish c = none) (hage : f.age = some age) (hread : s.listing c age = some listed)
    (hlanded : s.file.pending.alreadyLanded listed = true) :
    FlushEnd c s f (s.storeData.adopt listed)
  | keyLost (hreply : f.reply = .answered) (htxn : s.publish c = none)
    (hlock : s.file.etcd.get (.lock c.ino .exclusive s.file.holder) = none) :
    FlushEnd c s f s.storeData.keyLost
  /-- The buffer is refused and kept. -/
  | stuck (hreply : f.reply = .answered) (htxn : s.publish c = none)
    (hread : ∀ age listed, f.age = some age → s.listing c age = some listed →
      s.file.pending.alreadyLanded listed = false) : FlushEnd c s f s.storeData

theorem Delegation.flush_end (c : FileConfig) (s : Delegation) (f : FlushFaults) :
    FlushEnd c s f (s.flush c f) := by
  unfold Delegation.flush
  split
  case isTrue hempty => exact .idle hempty
  split
  case isTrue hheld => exact .unheld hheld
  split
  case isTrue hstored => exact .unstored hstored
  unfold Delegation.submit
  split
  case h_1 hreply => exact .untold (by rw [hreply]; exact Reply.noConfusion)
  case h_2 hreply htxn => exact .untold (by rw [hreply]; exact Reply.noConfusion)
  case h_3 etcd hreply htxn => exact .landed hreply htxn
  case h_4 etcd hreply htxn => exact .committed hreply htxn
  case h_5 hreply htxn =>
    unfold Delegation.rejected
    split
    case isTrue hfenced => exact .fenced hreply htxn hfenced.2
    split
    case h_1 listed hlisted =>
      obtain ⟨hread, hlanded⟩ := filter_eq_some_iff.mp hlisted
      obtain ⟨age, hage, hread⟩ := bind_eq_some_iff.mp hread
      exact .adopted hreply htxn hage hread hlanded
    case h_2 hnone =>
      split
      case isTrue hlock => exact .keyLost hreply htxn hlock.2
      refine .stuck hreply htxn fun age listed hage hread => ?_
      by_contra hlanded
      have hlanded : s.storeData.file.pending.alreadyLanded listed = true :=
        Bool.not_eq_false _ ▸ hlanded
      rw [hage, bind_some, show s.storeData.listing c age = some listed from hread,
        filter_some, if_pos hlanded] at hnone
      cases hnone

def delegation (c : FileConfig) : Machine Delegation DelegationAct where
  step s act := { s with discarded := none }.step c act

/-! ## A small entry -/

def soloDelegation : Delegation :=
  ⟨{ soloFile with etcd := soloFile.etcd.commit [.put (.gen "a") 0] }, true, none, [], false, none⟩

def bufferSolo (block : Nat) : List DelegationAct :=
  [.plan, .buffer (soloWrite false 0 [1] block one_byte_ne one_byte_bound)]

def flushSolo (reply : Reply) : DelegationAct := .flush ⟨true, reply, true, some 0, true⟩

end EtcFS.Ipc
