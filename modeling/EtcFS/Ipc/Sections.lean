import EtcFS.Core.Transition
import EtcFS.Ipc.Pending
import Mathlib.Algebra.Group.Int.Defs
import Mathlib.Algebra.Group.Prod

/-!
# What is done to a buffer under its lock

The functions that change a buffer under `keyMu` fail where the source would dereference nil, and
note what is to be added to the totals.
-/

namespace EtcFS.Ipc

open EtcFS.Core Metadata Arena

structure BufEntry where
  /-- Whether there is a lock key. -/
  held : Bool
  /-- Nil until the first write is buffered. -/
  pending : Option Pending

/-- An entry under its lock, with the additions to `bufferedOps` and `bufferedBytes` that
are made before the lock is let go. -/
structure Work where
  entry : BufEntry
  adds : List (Int × Int)

inductive FlushOutcome where
  /-- The device did not take the payload. -/
  | unstored
  | committed
  | fenced
  | failed
  /-- Rejected, and the transaction is found in etcd. -/
  | landed
  /-- Rejected, and the lock key is gone. -/
  | keyLost
  | rejected

structure BufferArgs where
  cmps : List (Cmp Val)
  ops : List (Op Val)
  plans : List ReclaimPlan
  bytes : Nat
  data : List BufferedRun
  runs : List Run

namespace Work

def start (e : BufEntry) : Work := ⟨e, []⟩

def isEmpty (w : Work) : Bool := w.entry.pending.all Pending.isEmpty

def bufferAccounted (w : Work) (ops bytes : Int) : Work :=
  { w with adds := w.adds ++ [(ops, 0), (0, bytes)] }

def setPending (w : Work) (p : Pending) : Work := { w with entry := ⟨w.entry.held, some p⟩ }

def setHeld (w : Work) (held : Bool) : Work := { w with entry := ⟨held, w.entry.pending⟩ }

/-- The buffer is reset and what it held is taken from the totals. -/
def emptied (w : Work) : Option Work :=
  w.entry.pending.map fun p => (w.setPending .none).bufferAccounted (-p.ops.length) (-p.bytes)

def flushCommitted (w : Work) : Option Work := w.emptied

def discardPending (w : Work) : Option Work := w.emptied

def forgetKeyLocked (w : Work) : Option Work :=
  if w.isEmpty then some (w.setHeld false) else (w.setHeld false).discardPending

def keyLostLocked (w : Work) : Option Work := w.forgetKeyLocked

def flushLocked (w : Work) (f : FlushOutcome) : Option (Bool × Work) :=
  if w.isEmpty then some (true, w)
  else if w.entry.held = false then w.discardPending.map fun w => (true, w)
  else
    match f with
    | .committed | .landed => w.flushCommitted.map fun w => (true, w)
    | .fenced => w.discardPending.map fun w => (false, w)
    | .keyLost => w.keyLostLocked.map fun w => (false, w)
    | .unstored | .failed | .rejected => some (false, w)

def prepareDropLocked (w : Work) (f : FlushOutcome) (invalidated : Bool) : Option (Bool × Work) :=
  (w.flushLocked f).map fun s =>
    (if s.1 = false ∧ s.2.isEmpty = false then false else invalidated, s.2)

def dropCachedLock (w : Work) (f : FlushOutcome) (invalidated : Bool) : Option (Bool × Work) :=
  (w.prepareDropLocked f invalidated).bind fun s =>
    if s.1 then s.2.forgetKeyLocked.map fun w => (true, w) else some (false, s.2)

def releaseKeyLocked (w : Work) (invalidated : Bool) : Option Work :=
  if invalidated then w.forgetKeyLocked else some w

/-- What shutdown does with an entry whose lock was not yielded. -/
def lastChance (w : Work) (invalidated : Bool) : Option Work :=
  w.discardPending.bind fun w => w.releaseKeyLocked invalidated

/-- A full buffer is published instead, and the write does not join it. -/
def bufferWrite (cap : Nat) (w : Work) (a : BufferArgs) (f : FlushOutcome) : Option Work :=
  let p := w.entry.pending.getD .none
  let w := w.setPending p
  if p.isEmpty = false ∧
      (p.ops.length + a.ops.length > maxWriteTxnOps ∨ p.bytes + a.bytes > cap) then
    (w.flushLocked f).map Prod.snd
  else
    let p' := p.add a.cmps a.ops a.plans a.bytes
    some ((w.setPending { p' with data := p.data ++ a.data, runs := p.runs ++ a.runs
      }).bufferAccounted (p'.ops.length - p.ops.length) a.bytes)

end Work

/-! ## Shutdown -/

structure ReleaseFate where
  flush : FlushOutcome
  invalidated : Bool
  invalidatedAgain : Bool

def releaseCachedLock (e : BufEntry) (f : ReleaseFate) : Option BufEntry :=
  ((Work.start e).dropCachedLock f.flush f.invalidated).bind fun s =>
    if s.1 then some s.2.entry
    else ((Work.start s.2.entry).lastChance f.invalidatedAgain).map Work.entry

def releaseCachedLocks (entries : List (BufEntry × ReleaseFate)) : Option (List BufEntry) :=
  entries.mapM fun ef => releaseCachedLock ef.1 ef.2

/-! ## Several inodes at once -/

inductive Section where
  | bufferWrite (a : BufferArgs) (f : FlushOutcome)
  /-- A flush: alone, in a batch, on memory pressure, by a sweep. -/
  | flush (f : FlushOutcome)
  /-- A lock that is given up: an eviction, a recall, a shutdown. -/
  | drop (f : FlushOutcome) (invalidated : Bool)
  | lastChance (invalidated : Bool)
  | release (invalidated : Bool)
  | keyLost
  | acquire

def Section.run (cap : Nat) (w : Work) : Section → Option Work
  | .bufferWrite a f => w.bufferWrite cap a f
  | .flush f => (w.flushLocked f).map Prod.snd
  | .drop f invalidated => (w.dropCachedLock f invalidated).map Prod.snd
  | .lastChance invalidated => w.lastChance invalidated
  | .release invalidated => w.releaseKeyLocked invalidated
  | .keyLost => w.keyLostLocked
  | .acquire => some (w.setHeld true)

/-- While the lock is held, `adds` are the additions that are still to be made. -/
structure LockedEntry where
  entry : BufEntry
  adds : Option (List (Int × Int))

structure BufferTotals where
  entries : List LockedEntry
  totals : Int × Int

inductive TotalsStep where
  | create
  | lock (i : Nat) (sec : Section)
  | add (i : Nat)
  | unlock (i : Nat)

def BufferTotals.set (s : BufferTotals) (i : Nat) (e : LockedEntry) : BufferTotals :=
  { s with entries := s.entries.set i e }

/-- What the section does to the entry is seen by nobody before the lock is let go, but the
additions it makes mix with those of others. -/
def bufferTotals (cap : Nat) : Machine BufferTotals TotalsStep where
  step s
    | .create => some { s with entries := s.entries ++ [⟨⟨false, none⟩, none⟩] }
    | .lock i sec =>
      match s.entries[i]? with
      | some ⟨e, none⟩ => (sec.run cap (.start e)).map fun w => s.set i ⟨w.entry, some w.adds⟩
      | _ => none
    | .add i =>
      match s.entries[i]? with
      | some ⟨e, some (a :: adds)⟩ =>
        some { s.set i ⟨e, some adds⟩ with totals := s.totals + a }
      | _ => none
    | .unlock i =>
      match s.entries[i]? with
      | some ⟨e, some []⟩ => some (s.set i ⟨e, none⟩)
      | _ => none

def BufferTotals.start : BufferTotals := ⟨[], 0⟩

end EtcFS.Ipc
