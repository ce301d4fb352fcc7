import EtcFS.Arena.Supply
import EtcFS.Core.Submission
import EtcFS.Ipc.Attributes
import EtcFS.Ipc.Publish
import EtcFS.Scrub.Reclaimable

/-!
# Scrub passes and truncates on one node

A scrub pass reads all extents and later all inodes, and deletes what nothing can read, while
truncates cut extent by extent.
-/

namespace EtcFS.Scrub

open EtcFS.Core Metadata Arena Ipc

structure HeldRange where
  ino : Nat
  diskOff : Nat
  length : Nat
  deriving DecidableEq, Repr

def HeldRange.blocks (r : HeldRange) : List Nat := rangeBlocks r.diskOff r.length

def ownsOffset (arenas : List Arena) (diskOff : Nat) : Bool :=
  arenas.any fun ar => decide (ar.diskStart ≤ diskOff ∧ diskOff < ar.diskEnd)

def extentNamed (key : Text) : Option Key :=
  (parseExtentKey key).map fun k => .extent k.1.toNat k.2.toNat

inductive Job where
  /-- `releaseHeldRanges`, with the ranges to go and those that stay held. -/
  | release (todo still : List HeldRange)
  /-- Before the scan. -/
  | scan
  /-- The extents are read, the inodes are not. -/
  | scanned (extents : List (Nat × Extent))
  /-- The findings that are left. -/
  | fix (findings : List Result)
  /-- A record is deleted, and its range is about to be freed or held. -/
  | freeing (range : HeldRange) (findings : List Result)
  /-- `truncateOnce`, with the next chunk number and the extents to go. -/
  | truncate (ino newSize chunk : Nat) (todo : List Extent)
  /-- An extent is cut, and the range it gave up is about to be freed. -/
  | giving (range : HeldRange) (ino newSize chunk : Nat) (todo : List Extent)
  | done

def Job.owed : Job → List HeldRange
  | .release todo still => todo ++ still
  | .freeing range _ => [range]
  | .giving range _ _ _ _ => [range]
  | .scan | .scanned _ | .fix _ | .truncate _ _ _ _ | .done => []

structure Reclaiming where
  etcd : Etcd
  arenas : List Arena
  doubleFrees : Nat := 0
  held : List HeldRange := []
  jobs : List Job := []

namespace Reclaiming

def setJob (s : Reclaiming) (i : Nat) (job : Job) : Reclaiming :=
  { s with jobs := s.jobs.set i job }

def free (s : Reclaiming) (r : HeldRange) : Reclaiming :=
  { s with
    arenas := freeLocked r.diskOff r.length s.arenas
    doubleFrees := s.doubleFrees + doubleFreed r.diskOff r.length s.arenas }

def ranges (s : Reclaiming) : List HeldRange := s.held ++ s.jobs.flatMap Job.owed

def findings (s : Reclaiming) (extents : List (Nat × Extent)) : List Result :=
  checkOrphanExtents extents (getInode s.etcd) ++ checkDeadExtents extents (getInode s.etcd)

def fixFinding (s : Reclaiming) (i : Nat) (r : Result) (rest : List Result) (locked : Bool)
    (reply : Reply) : Reclaiming :=
  if r.autoFix = true ∧ ownsOffset s.arenas r.diskOff = true ∧ locked = false then
    match extentNamed r.key with
    | none => s.setJob i (.fix rest)
    | some key =>
      let answer := reply.deliver
        (s.etcd.txn [.modRevisionEq key r.modRev] [.delete key]) s.etcd
      { s with etcd := answer.2 }.setJob i
        (if answer.1 = Outcome.committed ∧ 0 < r.length then
          .freeing ⟨r.ino, r.diskOff, r.length⟩ rest
        else .fix rest)
  else s.setJob i (.fix rest)

def truncateExtent (node : NodeID) (gen : Nat) (s : Reclaiming) (i ino newSize chunk : Nat)
    (e : Extent) (todo : List Extent) (reply : Reply) : Reclaiming :=
  if newSize < e.endOff then
    match planReclaim ⟨node, gen, ownsOffset s.arenas⟩ ino e newSize maxOffset chunk with
    | (none, chunk) => s.setJob i (.truncate ino newSize chunk todo)
    | (some p, chunk) =>
      let answer := reply.deliver (s.etcd.txn [p.cmp] p.ops) s.etcd
      { s with etcd := answer.2 }.setJob i
        (if answer.1 = Outcome.committed then
          if 0 < p.freeLen then .giving ⟨ino, p.freeOff, p.freeLen⟩ ino newSize chunk todo
          else .truncate ino newSize chunk todo
        else .done)
  else s.setJob i (.truncate ino newSize chunk todo)

inductive Act where
  | startPass
  /-- The next held range, with the answer of the lock cache. -/
  | releaseNext (i : Nat) (locked : Bool)
  | endRelease (i : Nat)
  | scanExtents (i : Nat)
  | scanInodes (i : Nat)
  | scanFails (i : Nat)
  /-- One of the findings, in any order. -/
  | fixNext (i k : Nat) (locked : Bool) (reply : Reply)
  | freeOrHold (i : Nat) (locked : Bool)
  | startTruncate (ino newSize : Nat)
  | truncateNext (i : Nat) (reply : Reply)
  | freeReclaimed (i : Nat)
  /-- An inode record is written or deleted, by anyone. -/
  | setInode (ino : Nat) (record : Option InodeRecord)
  /-- A write of the node allocates. -/
  | allocate (size : Nat)

def machine (node : NodeID) (gen : Nat) : Machine Reclaiming Act where
  step s
    | .startPass => some { s with held := [], jobs := s.jobs ++ [.release s.held []] }
    | .releaseNext i locked =>
      match s.jobs[i]? with
      | some (.release (h :: todo) still) =>
        if locked then some (s.setJob i (.release todo (still ++ [h])))
        else some ((s.free h).setJob i (.release todo still))
      | _ => none
    | .endRelease i =>
      match s.jobs[i]? with
      | some (.release [] still) => some ({ s with held := still ++ s.held }.setJob i .scan)
      | _ => none
    | .scanExtents i =>
      match s.jobs[i]? with
      | some .scan => some (s.setJob i (.scanned (s.etcd.list decodeAnyExtent)))
      | _ => none
    | .scanInodes i =>
      match s.jobs[i]? with
      | some (.scanned extents) => some (s.setJob i (.fix (s.findings extents)))
      | _ => none
    | .scanFails i =>
      match s.jobs[i]? with
      | some .scan | some (.scanned _) => some (s.setJob i .done)
      | _ => none
    | .fixNext i k locked reply =>
      match s.jobs[i]? with
      | some (.fix findings) =>
        findings[k]?.map fun r => s.fixFinding i r (findings.eraseIdx k) locked reply
      | _ => none
    | .freeOrHold i locked =>
      match s.jobs[i]? with
      | some (.freeing r rest) =>
        if locked then some ({ s with held := s.held ++ [r] }.setJob i (.fix rest))
        else some ((s.free r).setJob i (.fix rest))
      | _ => none
    | .startTruncate ino newSize =>
      let extents := getExtents s.etcd ino
      some { s with jobs := s.jobs ++ [.truncate ino newSize (nextChunk extents) extents] }
    | .truncateNext i reply =>
      match s.jobs[i]? with
      | some (.truncate ino newSize chunk (e :: todo)) =>
        some (s.truncateExtent node gen i ino newSize chunk e todo reply)
      | _ => none
    | .freeReclaimed i =>
      match s.jobs[i]? with
      | some (.giving r ino newSize chunk todo) =>
        some ((s.free r).setJob i (.truncate ino newSize chunk todo))
      | _ => none
    | .setInode ino record => some { s with etcd := s.etcd.commit [putRecord ino record] }
    | .allocate size => some { s with arenas := (Arena.allocate s.arenas size).2 }

end Reclaiming

end EtcFS.Scrub
