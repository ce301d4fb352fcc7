import EtcFS.Ipc.Delegate
import EtcFS.Ipc.FlushBatch

/-!
# Flush requests on their way

A call that times out does not take its request back. etcd may apply the request later, when the
buffer is no longer what the request was made from.
-/

namespace EtcFS.Ipc

open EtcFS.Core Metadata Arena Option

/-! ## One buffer and the attempts to publish it -/

structure LandingState where
  etcd : Etcd
  cached : InodeMeta
  /-- The proposals that have joined the buffer. -/
  joined : List (Proposal × Nat)
  sent : List FlushTxn
  applied : List FlushTxn

inductive LandingStep where
  | write (a : WriteAct)
  /-- An attempt to publish the buffer is sent. -/
  | attempt
  /-- An attempt that was sent gets to etcd, at once or later. -/
  | arrive (k : Nat)
  /-- A transaction that writes none of the inode's keys. -/
  | other (ops : List (Op Val))

def bufferTxn (c : FileConfig) (holder : Holder) (joined : List (Proposal × Nat)) : FlushTxn :=
  c.node.guarded ((foldBuffer joined).flushTxn c.ino .exclusive holder)

def landing (c : FileConfig) (holder : Holder) : Machine LandingState LandingStep where
  step s
    | .write a =>
      if a.req.ino = c.ino ∧ RunsFor a.req.data.length a.runs then
        let p := proposal c.node a.req a.runs s.cached.record s.cached.extents
        (replayTxn c.ino s.cached.record p.ops).map fun replay =>
          { s with
            cached := replay.apply s.cached 0
            joined := s.joined ++ [(p, a.heldBytes (a.hold 0))] }
      else none
    | .attempt =>
      if s.joined.isEmpty then none
      else
        some { s with sent := s.sent ++ [bufferTxn c holder s.joined] }
    | .arrive k =>
      (s.sent[k]?).map fun x =>
        match s.etcd.txn x.1 x.2 with
        | some etcd => { s with etcd := etcd, applied := s.applied ++ [x] }
        | none => s
    | .other ops =>
      if ∀ op ∈ ops, ofInode c.ino op.key = false then some { s with etcd := s.etcd.commit ops }
      else none

/-- Models `flushAlreadyLanded` on a listing: the revisions by chunk, if the buffer is found. -/
def flushAlreadyLanded (b : Pending) (published : List Extent) : Option (Nat → Option Nat) :=
  if b.alreadyLanded published then
    some fun chunk => (published.find? fun e => decide (e.chunk = chunk)).map Extent.modRevision
  else none

def LandingState.start (etcd : Etcd) (m : InodeMeta) : LandingState := ⟨etcd, m, [], [], []⟩

/-! ## A cache entry and its delayed requests -/

def Delegation.request (c : FileConfig) (s : Delegation) : FlushTxn :=
  c.node.guarded (s.file.pending.flushTxn c.ino .exclusive s.file.holder)

/-- etcd answers a larger transaction with an error. -/
def FlushTxn.fits (t : FlushTxn) : Bool :=
  t.1.length ≤ etcdMaxTxnOps && t.2.length ≤ etcdMaxTxnOps

structure LateFlushes where
  entry : Delegation
  /-- The requests whose calls have timed out and that etcd has not seen. -/
  delayed : List FlushTxn

inductive LateAct where
  | entry (act : DelegationAct)
  /-- `flushLocked`, with a request that is still on its way when the call times out. -/
  | delay
  /-- A delayed request gets to etcd. -/
  | arrive (k : Nat)

namespace LateFlushes

/-- A flush that is too large leaves etcd and the buffer as they are. -/
def sized (c : FileConfig) (s : LateFlushes) : DelegationAct → DelegationAct
  | .flush f => .flush (if (s.entry.request c).fits then f else { f with reply := .unsent })
  | act => act

def arrive (s : LateFlushes) (t : FlushTxn) : Delegation :=
  match if t.fits then s.entry.file.etcd.txn t.1 t.2 else none with
  | some etcd => { s.entry.commit etcd with landed := true }
  | none => s.entry

end LateFlushes

def lateFlushes (c : FileConfig) : Machine LateFlushes LateAct where
  step s
    | .entry act => ((delegation c).step s.entry (s.sized c act)).map fun e => { s with entry := e }
    | .delay =>
      if s.entry.planned = none ∧ s.entry.held = true ∧ s.entry.file.pending.isEmpty = false then
        some ⟨s.entry.storeData, s.delayed ++ [s.entry.request c]⟩
      else none
    | .arrive k => s.delayed[k]?.map fun t => ⟨s.arrive t, s.delayed.eraseIdx k⟩

end EtcFS.Ipc
