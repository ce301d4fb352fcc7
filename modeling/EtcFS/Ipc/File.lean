import EtcFS.Core.Transition
import EtcFS.Ipc.Attributes
import EtcFS.Ipc.Pending
import EtcFS.Ipc.Publish

/-!
# One file on one node

A write is planned from the snapshot and joins the buffer or is committed; a flush publishes the
buffer; a recall also gives the lock up.
-/

namespace EtcFS.Ipc

open EtcFS.Core Metadata Arena

structure FileConfig where
  node : Node
  ino : Nat
  flushMaxBytes : Nat

structure FileState where
  etcd : Etcd
  holder : Holder
  cached : Option InodeMeta
  pending : Pending
  device : Bytes
  allocated : Bitmap
  /-- The blocks the operation has handed to `Free`, unless they were reserved again since. -/
  freed : List Nat

structure WriteAct where
  req : WriteReq
  runs : List Run
  sync : Bool
  hold : Nat → Bool

def WriteAct.blocks (a : WriteAct) : List Nat := a.runs.flatMap Run.blocks

def payloadFrom (padded : List Byte) : Nat → List Run → List BufferedRun
  | _, [] => []
  | pos, r :: runs =>
    ⟨r.diskOff, (padded.drop pos).take r.length⟩ :: payloadFrom padded (pos + r.length) runs

def bufferedPayload (w : WriteReq) (runs : List Run) : List BufferedRun :=
  let padded := blocksFor w.data.length * blockSize
  payloadFrom (w.data ++ List.replicate (padded - w.data.length) 0) 0 runs

def WriteAct.heldData (a : WriteAct) (hold : Bool) : List BufferedRun :=
  if hold then bufferedPayload a.req a.runs else []

def WriteAct.heldBytes (a : WriteAct) (hold : Bool) : Nat :=
  if hold then blocksFor a.req.data.length * blockSize else a.req.data.length

def Pending.freed (p : Pending) : List Nat := p.plans.flatMap ReclaimPlan.blocks

namespace FileState

def free (st : FileState) (blocks : List Nat) : FileState :=
  { st with allocated := release st.allocated blocks, freed := st.freed ++ blocks }

def reserve (st : FileState) (blocks : List Nat) : FileState :=
  { st with
    allocated := Arena.reserve st.allocated blocks
    freed := st.freed.filter fun b => !blocks.contains b }

def refresh (ops : List (Op Val)) (ino rev : Nat) (e : Extent) : Extent :=
  match effect (.extent ino e.chunk) ops with
  | some (some _) => { e with modRevision := rev }
  | _ => e

def flushCommitted (c : FileConfig) (st : FileState) (etcd : Etcd) : FileState :=
  { st.free st.pending.freed with
    etcd := etcd
    cached := st.cached.map fun m =>
      { m with extents := m.extents.map (refresh st.pending.ops c.ino etcd.revision) }
    pending := .none }

def flush (c : FileConfig) (st : FileState) : Option FileState :=
  if st.pending.isEmpty then some st
  else
    let st := { st with device := flushData st.pending.data st.device }
    let (cmps, ops) := st.pending.txn
    (st.etcd.txn (cmps ++ [.present (.lock c.ino .exclusive st.holder)]) ops).map
      (st.flushCommitted c)

def inodeMeta (c : FileConfig) (st : FileState) : Option (InodeMeta × FileState) :=
  match st.cached with
  | some m => some (m, st)
  | none =>
    if st.pending.isEmpty then
      (getInode st.etcd c.ino).map fun rec =>
        let m : InodeMeta := ⟨rec, getExtents st.etcd c.ino⟩
        (m, { st with cached := some m })
    else none

def writeThrough (st : FileState) (a : WriteAct) (written : Bool) : FileState :=
  if written then st
  else { st with device := (bufferedPayload a.req a.runs).foldl Bytes.writeRun st.device }

def afterCommit (c : FileConfig) (st : FileState) (a : WriteAct) (rec : InodeRecord)
    (existing : List Extent) (r : Pass) : FileState :=
  let p := proposal c.node a.req a.runs rec existing
  { st.free r.freed with
    etcd := r.etcd
    cached := if p.deferredReclaim = [] then
        (replayTxn c.ino rec p.ops).map fun replay =>
          replay.apply ⟨rec, existing⟩ (st.etcd.revision + 1)
      else none }

def commitWrite (c : FileConfig) (st : FileState) (a : WriteAct) (rec : InodeRecord)
    (existing : List Extent) : Option FileState :=
  let publish (existing : List Extent) : Option FileState :=
    (publishWrite c.node a.req a.runs rec existing st.etcd).map (st.afterCommit c a rec existing)
  (publish existing).or (publish (getExtents st.etcd c.ino))

def commitWriteOp (c : FileConfig) (st : FileState) (a : WriteAct) (m : InodeMeta)
    (written : Bool) : Option FileState :=
  if st.pending.isEmpty then (st.writeThrough a written).commitWrite c a m.record m.extents
  else
    (st.flush c).bind fun st =>
      (st.writeThrough a written).commitWrite c a m.record (getExtents st.etcd c.ino)

def bufferWrite (st : FileState) (a : WriteAct) (p : Proposal) (replay : TxnReplay)
    (bytes : Nat) (data : List BufferedRun) : FileState :=
  { st with
    pending :=
      { st.pending.add p.cmps p.ops p.plans bytes with
        data := st.pending.data ++ data
        runs := st.pending.runs ++ a.runs }
    cached := st.cached.map fun m => replay.apply m 0 }

def Full (c : FileConfig) (st : FileState) (p : Proposal) (bytes : Nat) : Prop :=
  st.pending.isEmpty = false ∧ (st.pending.ops.length + p.ops.length > maxWriteTxnOps ∨
    st.pending.bytes + bytes > c.flushMaxBytes)
  deriving Decidable

def bufferWriteOp (c : FileConfig) (a : WriteAct) :
    Nat → FileState → InodeMeta → Bool → Option FileState
  | 0, _, _, _ => none
  | attempts + 1, st, m, written =>
    let p := proposal c.node a.req a.runs m.record m.extents
    if a.sync ∨ p.modeChanged ∨ p.deferredReclaim ≠ [] then st.commitWriteOp c a m written
    else
      match replayTxn c.ino m.record p.ops with
      | none => st.commitWriteOp c a m written
      | some replay =>
        let hold := a.hold attempts
        let st := st.writeThrough a (written || hold)
        if st.Full c p (a.heldBytes hold) then do
          let st ← st.flush c
          let (m, st) ← st.inodeMeta c
          bufferWriteOp c a attempts st m (written || !hold)
        else some (st.bufferWrite a p replay (a.heldBytes hold) (a.heldData hold))

def buffered (c : FileConfig) (st : FileState) (a : WriteAct) : Option FileState :=
  st.cached.bind fun m =>
    let p := proposal c.node a.req a.runs m.record m.extents
    if a.req.ino = c.ino ∧ RunsFor a.req.data.length a.runs ∧ p.modeChanged = false ∧
        p.deferredReclaim = [] then
      (replayTxn c.ino m.record p.ops).map fun replay =>
        st.bufferWrite a p replay (a.heldBytes (a.hold 0)) (a.heldData (a.hold 0))
    else none

def beforeWrite (c : FileConfig) (st : FileState) (a : WriteAct) : Option FileState :=
  if a.sync then st.flush c else some st

def write (c : FileConfig) (st : FileState) (a : WriteAct) : Option FileState :=
  if a.req.ino = c.ino then do
    let st ← st.beforeWrite c a
    let (m, st) ← st.inodeMeta c
    -- A buffer that was full is empty on the second attempt.
    if MayAllocate st.allocated a.req.data.length a.runs then
      bufferWriteOp c a 2 (st.reserve a.blocks) m false
    else none
  else none

def «recall» (c : FileConfig) (st : FileState) (next : Holder) : Option FileState :=
  (st.flush c).map fun st =>
    { st with
      etcd := (st.etcd.commit [.delete (.lock c.ino .exclusive st.holder)]).commit
        [.put (.lock c.ino .exclusive next) c.node.id]
      holder := next
      cached := none }

def afterPass (st : FileState) (r : Pass) : FileState :=
  { st.free r.freed with etcd := r.etcd, cached := none }

def setattr (c : FileConfig) (st : FileState) (valid : UInt32) (f : SetattrFields) (now : Time)
    (queued : Option TimeUpdate) : Option FileState :=
  if Selects valid fattrSize then do
    let st ← st.flush c
    let stored ← getInode st.etcd c.ino
    let record := (queued.map fun u => u.apply stored).getD stored
    let r := if f.size < record.size then truncate c.node c.ino f.size st.etcd
      else ⟨st.etcd, 0, [], false⟩
    if r.failed then none
    else
      (r.etcd.txn [.modRevisionEq (.inode c.ino) (st.etcd.modRevision (.inode c.ino))]
        [.put (.inode c.ino) (applySetattr record valid f now)]).map
          fun etcd => st.afterPass { r with etcd := etcd }
  else none

def punch (c : FileConfig) (st : FileState) (offset length : Nat) : Option FileState :=
  if 0 < length ∧ offset + length < offsetBound then do
    let st ← st.flush c
    let r := punchHole c.node c.ino offset (offset + length) st.etcd
    if r.failed then none else some (st.afterPass r)
  else none

def read (c : FileConfig) (d : Device) (st : FileState) (offset size : Nat) :
    Option (Except Errno (List Byte)) :=
  (st.inodeMeta c).map fun (m, st) =>
    readReply d m.record m.extents st.pending.data st.device offset size

def pendingSize (st : FileState) : Option Nat :=
  if st.pending.isEmpty then none else st.cached.map fun m => m.record.size

def withPending (st : FileState) (record : InodeRecord) (queued : Option TimeUpdate) :
    InodeRecord :=
  let sized := { record with size := st.pendingSize.getD record.size }
  (queued.map fun u => u.apply sized).getD sized

end FileState

inductive WriteStep where
  | write (a : WriteAct)
  | flush
  | recall (next : Holder)

inductive FileStep where
  | data (step : WriteStep)
  | setattr (valid : UInt32) (f : SetattrFields) (now : Time) (queued : Option TimeUpdate)
  | punch (offset length : Nat)

def fileWrites (c : FileConfig) : Machine FileState WriteStep where
  step st
    | .write a => { st with freed := [] }.write c a
    | .flush => { st with freed := [] }.flush c
    | .recall next => { st with freed := [] }.recall c next

def fileOps (c : FileConfig) : Machine FileState FileStep where
  step st
    | .data step => (fileWrites c).step st step
    | .setattr valid f now queued => { st with freed := [] }.setattr c valid f now queued
    | .punch offset length => { st with freed := [] }.punch c offset length

/-! ## A small file -/

def soloConfig : FileConfig := ⟨⟨"a", 0, fun _ => true⟩, 7, 2 ^ 20⟩

def soloFile : FileState where
  etcd := (freshFile 7).commit [.put (.lock 7 .exclusive ⟨1, 1⟩) "a"]
  holder := ⟨1, 1⟩
  cached := none
  pending := .none
  device := fun _ => 0
  allocated := fun _ => false
  freed := []

def soloWrite (sync : Bool) (offset : Nat) (data : List Byte) (block : Nat) (hne : data ≠ [])
    (hbound : offset + data.length < offsetBound) : WriteAct where
  req := ⟨7, offset, data, 0, hne, hbound⟩
  runs := [⟨block * blockSize, blockSize⟩]
  sync := sync
  hold := fun _ => true

theorem one_byte_ne : ([1] : List Byte) ≠ [] := by decide

theorem one_byte_bound : 0 + ([1] : List Byte).length < offsetBound := by decide

theorem three_bytes_ne : ([1, 2, 3] : List Byte) ≠ [] := by decide

theorem three_bytes_bound : 0 + ([1, 2, 3] : List Byte).length < offsetBound := by decide

theorem middle_ne : ([7] : List Byte) ≠ [] := by decide

theorem middle_bound : 1 + ([7] : List Byte).length < offsetBound := by decide

def rewriteMiddle (sync : Bool) : List WriteStep :=
  [.write (soloWrite sync 0 [1, 2, 3] 0 three_bytes_ne three_bytes_bound),
    .write (soloWrite sync 1 [7] 1 middle_ne middle_bound)]

/-! ## A file among other inodes -/

def keysOf (ino : Nat) : Key → Bool
  | .inode i | .extent i _ | .lock i _ _ => i == ino
  | .gen _ => false

inductive HeldStep where
  | own (step : WriteStep)
  /-- A transaction on keys of other inodes, or on generations. -/
  | other (ops : List (Op Val))

def heldFile (c : FileConfig) : Machine FileState HeldStep where
  step st
    | .own step => (fileWrites c).step st step
    | .other ops =>
      if ops.all fun op => !keysOf c.ino op.key then some { st with etcd := st.etcd.commit ops }
      else none

def HeldStep.publishes : HeldStep → Bool
  | .own (.write a) => a.sync
  | .own .flush | .own (.recall _) => true
  | .other _ => false

end EtcFS.Ipc
