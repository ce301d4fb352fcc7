import EtcFS.Ipc.Folding

/-!
# Flushes of several inodes

A sweep concatenates the proposals of several inodes as long as they fit, and commits what it has
when the next one does not.
-/

namespace EtcFS.Ipc

open EtcFS.Core Metadata

/-- The comparisons and the operations of one transaction. -/
abbrev FlushTxn := List (Cmp Val) × List (Op Val)

structure FlushEntry where
  ino : Nat
  mode : LockMode
  /-- The token of the lock key, unless the key is gone. -/
  holder : Option Holder
  pending : Pending
  /-- The device takes the buffered payload. -/
  stored : Bool

def Pending.flushTxn (b : Pending) (ino : Nat) (mode : LockMode) (holder : Holder) : FlushTxn :=
  (b.txn.1 ++ [.present (.lock ino mode holder)], b.txn.2)

inductive FlushProposal where
  | discarded
  | unstored
  | ready (holder : Holder) (t : FlushTxn)

def FlushEntry.propose (e : FlushEntry) : Option (FlushTxn) :=
  if e.stored = true then e.holder.map (e.pending.flushTxn e.ino e.mode) else none

def Node.guarded (n : Node) (t : FlushTxn) : FlushTxn :=
  (n.guard :: t.1, t.2)

structure FlushBatch where
  entries : List FlushEntry
  cmps : List (Cmp Val)
  ops : List (Op Val)

namespace FlushBatch

def none : FlushBatch := ⟨[], [], []⟩

def fits (b : FlushBatch) (t : FlushTxn) : Bool :=
  b.entries.isEmpty || (decide (b.ops.length + t.2.length ≤ maxWriteTxnOps) &&
    decide (b.cmps.length + t.1.length ≤ maxWriteTxnOps))

def add (b : FlushBatch) (e : FlushEntry) (t : FlushTxn) : FlushBatch :=
  ⟨b.entries ++ [e], b.cmps ++ t.1, b.ops ++ t.2⟩

def submitted (n : Node) (b : FlushBatch) : List FlushTxn :=
  if b.entries.isEmpty then [] else [n.guarded (b.cmps, b.ops)]

end FlushBatch

def flushEntries (n : Node) : FlushBatch → List FlushEntry → List FlushTxn
  | b, [] => b.submitted n
  | b, e :: es =>
    match if e.pending.isEmpty then none else e.propose with
    | none => flushEntries n b es
    | some t =>
      if b.fits t then flushEntries n (b.add e t) es
      else b.submitted n ++ flushEntries n (FlushBatch.none.add e t) es

end EtcFS.Ipc
