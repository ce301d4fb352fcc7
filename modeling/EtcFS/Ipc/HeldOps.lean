import EtcFS.Ipc.LockTable

/-!
# Operations on an entry, from lock to release

An operation takes the key, may publish the buffer, reads the metadata, and lets go on one of its
exits, where it may drop the snapshot.
-/

namespace EtcFS.Ipc

open EtcFS.Core Metadata

/-- An operation that has the lock: whether it leaves a snapshot, found it lost, and fails. -/
structure HeldLock where
  entry : LockEntry
  log : List Publication
  published : Bool
  lost : Bool
  failed : Bool
  deriving DecidableEq, Repr

namespace HeldLock

/-- The operation ends with an error. -/
def fail (h : HeldLock) : HeldLock := { h with failed := true }

/-- The buffer is published, and the operation goes on if that succeeds. -/
def flush (h : HeldLock) (r : FlushReply) (next : HeldLock → HeldLock) : HeldLock :=
  let f := h.entry.flush h.log r
  let h := { h with entry := f.entry, log := h.log ++ f.log }
  if f.ok = true then next h else h.fail

/-- `heldLock.meta`: the snapshot, or a read from etcd, which is an error over a buffer. -/
def readMeta (h : HeldLock) (answered : Bool) (next : HeldLock → HeldLock) : HeldLock :=
  if h.entry.cachedMeta ≠ none then next h
  else if h.entry.pending ≠ [] then { h with lost := true, failed := true }
  else if answered = true then next { h with entry := h.entry.setMeta h.entry.holder }
  else h.fail

/-- The operation leaves a snapshot that is up to date. -/
def publishMeta (h : HeldLock) : HeldLock :=
  { h with entry := h.entry.setMeta h.entry.holder, published := true }

/-- `Release`, which drops a snapshot that was not published. -/
def release (h : HeldLock) : LockEntry :=
  if h.published = true then h.entry else { h.entry with cached := none }

end HeldLock

/-- How `ensureLockKey` goes. -/
structure KeyReply where
  session : Nat
  invalidated : Bool
  reply : Option Holder
  deriving DecidableEq, Repr

/-- How etcd, the device and the allocator answer one write. -/
structure WriteFate where
  id : Nat
  sync : Bool
  /-- The metadata are read, and the record is there. -/
  answered : Bool
  present : Bool
  /-- There is space. -/
  allocated : Bool
  /-- The proposal can be buffered, at first and once the buffer was published. -/
  defers : Bool
  defersAgain : Bool
  /-- The buffer has no room for the proposal. -/
  full : Bool
  /-- The payload is in RAM or on the device, at first and once the buffer was published. -/
  stored : Bool
  storedAgain : Bool
  /-- How the flush before a synchronous write, of a full buffer, and before a commit go. -/
  syncFlush : FlushReply
  fullFlush : FlushReply
  commitFlush : FlushReply
  /-- The extents are read again before the commit, and the payload is on the device. -/
  extentsRead : Bool
  written : Bool
  reply : CommitReply
  deriving DecidableEq, Repr

namespace HeldLock

/-- The transaction of the write itself. -/
def commitNow (f : WriteFate) (h : HeldLock) : HeldLock :=
  if f.written = false then h.fail
  else
    let r := h.entry.commit f.id h.entry.holder f.reply
    let h := { h with log := h.log ++ r.log }
    match f.reply with
    | .committed true => h.publishMeta
    | .committed false => h
    | .failed | .unheard | .refused => h.fail

/-- `commitWriteOp`, which publishes what is buffered before it. -/
def commitWriteOp (f : WriteFate) (h : HeldLock) : HeldLock :=
  if h.entry.pending ≠ [] then
    h.flush f.commitFlush fun h => if f.extentsRead = true then commitNow f h else h.fail
  else commitNow f h

/-- The write joins the buffer and the snapshot. -/
def join (f : WriteFate) (h : HeldLock) : HeldLock :=
  { h with entry := h.entry.join f.id h.entry.holder, published := true }

/-- `bufferWriteOp`, which plans again after it has published a full buffer. -/
def bufferWriteOp (f : WriteFate) (h : HeldLock) : HeldLock :=
  if f.sync = true ∨ f.defers = false then commitWriteOp f h
  else if f.stored = false then h.fail
  else if h.entry.pending ≠ [] ∧ f.full = true then
    h.flush f.fullFlush fun h => h.readMeta f.answered fun h =>
      if f.present = false then h.fail
      else if f.defersAgain = false then commitWriteOp f h
      else if f.storedAgain = false then h.fail
      else join f h
  else join f h

/-- `handleWriteBlock`, under the lock. -/
def handleWrite (f : WriteFate) (h : HeldLock) : HeldLock :=
  let plan (h : HeldLock) : HeldLock := h.readMeta f.answered fun h =>
    if f.present = false ∨ f.allocated = false then h.fail else bufferWriteOp f h
  if f.sync = true ∧ h.entry.pending ≠ [] then h.flush f.syncFlush plan else plan h

/-- An operation that changes the size, and publishes the buffer before it. -/
def handleResize (r : FlushReply) (done : Bool) (h : HeldLock) : HeldLock :=
  h.flush r fun h => if done = true then h else h.fail

end HeldLock

/-- A call that comes to the entry. -/
inductive InodeCall where
  | read (key : KeyReply) (answered : Bool)
  | write (key : KeyReply) (f : WriteFate)
  /-- `handleSetattr` with a size, `handleOpen` with `O_TRUNC`, `handleFallocate`. -/
  | resize (key : KeyReply) (r : FlushReply) (done : Bool)
  /-- `handleSetattr` without a size, which takes no lock. -/
  | setattr
  /-- `flushInode`, for an fsync or a close. -/
  | fsync (key : KeyReply) (r : FlushReply)
  /-- The flush interval, or memory pressure. -/
  | sweep (r : FlushReply)
  /-- The key is recalled or evicted. -/
  | recall (r : FlushReply) (invalidated : Bool)
  /-- The session with this lease is lost. -/
  | sessionLost (lease : Nat)
  deriving DecidableEq, Repr

/-- The operation runs if the key can be had. -/
def underLock (log : List Publication) (e : LockEntry) (mode : LockMode) (k : KeyReply)
    (op : HeldLock → HeldLock) : HeldLock :=
  let r := e.run log (.ensure mode k.session k.invalidated k.reply)
  if r.ok = true then op ⟨r.entry, log, false, false, false⟩
  else ⟨r.entry, log, true, false, true⟩

/-- What a call does before it lets go. -/
def InodeCall.held (log : List Publication) (e : LockEntry) : InodeCall → HeldLock
  | .read k answered =>
    underLock log e .shared k fun h => HeldLock.readMeta { h with published := true } answered id
  | .write k f => underLock log e .exclusive k (HeldLock.handleWrite f)
  | .resize k r done => underLock log e .exclusive k (HeldLock.handleResize r done)
  | .setattr => ⟨e, log, true, false, false⟩
  | .fsync k r =>
    if e.pending = [] then ⟨e, log, true, false, false⟩
    else underLock log e .exclusive k fun h => HeldLock.flush { h with published := true } r id
  | .sweep r => HeldLock.flush ⟨e, log, true, false, false⟩ r id
  | .recall r invalidated =>
    let d := e.drop log r invalidated
    ⟨d.entry, log ++ d.log, true, false, !d.ok⟩
  | .sessionLost lease =>
    ⟨(e.run log (.dropForLease lease)).entry, log, true, false, false⟩

/-- Calls on one entry, one after another. -/
def inodeCalls : Machine (LockEntry × List Publication) InodeCall where
  step s call :=
    let h := call.held s.2 s.1
    some (h.release, h.log)

end EtcFS.Ipc
