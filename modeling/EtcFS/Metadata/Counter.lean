import EtcFS.Core.Submission
import EtcFS.Metadata.Records

/-!
# Numbers from shared counters

`ReserveCounter` moves the counter past the numbers it takes if it is still as read. A daemon takes
inode numbers by the block.
-/

namespace EtcFS.Metadata

open EtcFS.Core

/-- A counter as its bytes are read: 0 if there are fewer than eight. -/
def counterValue (v : List UInt8) : UInt64 := if v.length < 8 then 0 else uint64At v 0

/-- The key of the counter that inode numbers come from. -/
def inodeAllocCounter : String := "inode_alloc_counter"

/-- Inode 1 is the root. -/
def firstUsableIno : UInt64 := 2

/-- How many inode numbers a daemon takes at a time. -/
def inodeBlockSize : UInt64 := 1024

/-- How often `ReserveCounter` tries. -/
def casAttempts : Nat := 20

/-- What `ReserveCounter` is asked for: `count` numbers of a counter, none below `floor`. -/
structure Reservation where
  key : String
  floor : UInt64
  count : UInt64

/-- `NextCounter`. -/
def nextCounter (key : String) (floor : UInt64) : Reservation := ⟨key, floor, 1⟩

/-- What a daemon asks for when its block is used up. -/
def inodeReservation : Reservation := ⟨inodeAllocCounter, firstUsableIno, inodeBlockSize⟩

/-- The bytes of the counters, by key. -/
abbrev CounterStore := String → Option (List UInt8)

/-- The transaction of one attempt, which compares that the counter is still as it was seen. -/
structure ReserveTxn where
  reservation : Reservation
  seen : Option (List UInt8)

namespace ReserveTxn

/-- The value that was seen. -/
def stored (x : ReserveTxn) : UInt64 := x.seen.elim 0 counterValue

/-- The first number of the reservation. -/
def reserved (x : ReserveTxn) : UInt64 :=
  if x.stored < x.reservation.floor then x.reservation.floor else x.stored

/-- The counter moves past the reservation, unless it was changed since it was seen. -/
def apply (x : ReserveTxn) (store : CounterStore) : Option CounterStore :=
  if store x.reservation.key = x.seen then
    some (Function.update store x.reservation.key
      (some (putUint64 (x.reserved + x.reservation.count))))
  else none

end ReserveTxn

/-- Who asks: some caller, or `reserve` for a new block. -/
inductive Purpose where
  | caller (r : Reservation)
  | block

def Purpose.reservation : Purpose → Reservation
  | .caller r => r
  | .block => inodeReservation

/-- A call under way, with the number of its attempt and what it has read. -/
structure ReserveCall (ι : Type) where
  proc : ι
  purpose : Purpose
  attempt : Nat
  seen : Option (Option (List UInt8))

/-- What the call sends once it has read the counter. -/
def ReserveCall.txn {ι : Type} (c : ReserveCall ι) : Option ReserveTxn :=
  c.seen.map fun v => ⟨c.purpose.reservation, v⟩

/-- The inode numbers a process may still hand out, and whether it is asking for more. -/
structure InodeBlocks where
  next : UInt64
  stop : UInt64
  refilling : Bool
  deriving DecidableEq, Repr

/-- A process starts without a block. -/
def InodeBlocks.new : InodeBlocks := ⟨0, 0, false⟩

/-- Processes at their counters. Transactions of calls that gave up may still arrive. -/
structure Counters (ι : Type) where
  store : CounterStore
  blocks : ι → InodeBlocks
  calls : List (ReserveCall ι)
  late : List ReserveTxn
  /-- The numbers handed out for each key. -/
  handed : String → List Nat
  /-- The inode numbers among them that `reserve` handed out. -/
  inodes : List Nat

/-- One step of a process, of a call or of etcd. -/
inductive CounterStep (ι : Type) where
  /-- `ReserveCounter` or `NextCounter` is called. -/
  | call (p : ι) (r : Reservation)
  /-- `reserve` finds its block used up. -/
  | refill (p : ι)
  /-- A call reads its counter. -/
  | read (i : Nat)
  /-- A call sends its transaction, which the fence refuses or not. -/
  | send (i : Nat) (unfenced : Bool) (reply : Reply)
  /-- A call ends with an error. What it has sent is still under way. -/
  | giveUp (i : Nat)
  /-- A transaction arrives whose call has given up. -/
  | arrive (i : Nat) (unfenced : Bool)
  /-- `reserve` hands out a number of its block. -/
  | take (p : ι)
  | restart (p : ι)

namespace Counters

variable {ι : Type} [DecidableEq ι]

def boot (store : CounterStore) : Counters ι := ⟨store, fun _ => .new, [], [], fun _ => [], []⟩

/-- A refill that ends lets go of the mutex of the block. -/
def unlock (s : Counters ι) (c : ReserveCall ι) : Counters ι :=
  match c.purpose with
  | .caller _ => s
  | .block =>
    { s with blocks := Function.update s.blocks c.proc { s.blocks c.proc with refilling := false } }

/-- The call ends without a reservation. -/
def failed (s : Counters ι) (i : Nat) (c : ReserveCall ι) : Counters ι :=
  { s.unlock c with calls := s.calls.eraseIdx i }

/-- The call ends with a reservation: a caller has it handed out, a refill makes it the block. -/
def returned (s : Counters ι) (i : Nat) (c : ReserveCall ι) (first : UInt64) : Counters ι :=
  match c.purpose with
  | .caller r =>
    { s with
      handed := Function.update s.handed r.key
        (s.handed r.key ++ List.range' first.toNat r.count.toNat)
      calls := s.calls.eraseIdx i }
  | .block =>
    { s with
      blocks := Function.update s.blocks c.proc ⟨first, first + inodeBlockSize, false⟩
      calls := s.calls.eraseIdx i }

/-- What the call does with the answer. A rejected attempt is followed by another. -/
def answered (s : Counters ι) (i : Nat) (c : ReserveCall ι) (x : ReserveTxn) :
    Outcome × CounterStore → Counters ι
  | (.committed, store) => { s with store := store }.returned i c x.reserved
  | (.rejected, store) =>
    if c.attempt + 1 < casAttempts then
      { s with
        store := store
        calls := s.calls.set i { c with attempt := c.attempt + 1, seen := none } }
    else { s with store := store }.failed i c
  | (.failed, store) => { s with store := store }.failed i c

/-- `reserve` hands out the next number of the block. -/
def take (s : Counters ι) (p : ι) : Counters ι :=
  let b := s.blocks p
  { s with
    blocks := Function.update s.blocks p { b with next := b.next + 1 }
    handed := Function.update s.handed inodeAllocCounter
      (s.handed inodeAllocCounter ++ [b.next.toNat])
    inodes := s.inodes ++ [b.next.toNat] }

/-- A process ends, and its block with it. What it has sent may still arrive. -/
def restart (s : Counters ι) (p : ι) : Counters ι :=
  { s with
    blocks := Function.update s.blocks p .new
    calls := s.calls.filter fun c => decide (c.proc ≠ p)
    late := s.late ++ (s.calls.filter fun c => decide (c.proc = p)).filterMap ReserveCall.txn }

end Counters

section

variable {ι : Type} [DecidableEq ι]

/-- The transaction that etcd comes to in this step. -/
def CounterStep.evaluated (s : Counters ι) : CounterStep ι → Option ReserveTxn
  | .send i unfenced _ => if unfenced then (s.calls[i]?).bind ReserveCall.txn else none
  | .arrive i unfenced => if unfenced then s.late[i]? else none
  | _ => none

/-- What that transaction makes of the counters, if it commits. -/
def CounterStep.change (s : Counters ι) (a : CounterStep ι) : Option CounterStore :=
  (a.evaluated s).bind fun x => x.apply s.store

/-- The state after a step, if the step is possible. -/
def CounterStep.move (s : Counters ι) : CounterStep ι → Option (Counters ι)
  -- a reservation of zero values is an error
  | .call p r =>
    if r.count = 0 then some s
    else some { s with calls := s.calls ++ [⟨p, .caller r, 0, none⟩] }
  | .refill p =>
    let b := s.blocks p
    if b.next < b.stop ∨ b.refilling = true then none
    else some { s with
      blocks := Function.update s.blocks p { b with refilling := true }
      calls := s.calls ++ [⟨p, .block, 0, none⟩] }
  | .read i =>
    (s.calls[i]?).bind fun c =>
      if c.seen = none then
        some { s with
          calls := s.calls.set i { c with seen := some (s.store c.purpose.reservation.key) } }
      else none
  | .send i unfenced reply =>
    (s.calls[i]?).bind fun c => c.txn.map fun x =>
      s.answered i c x (reply.deliver (CounterStep.change s (.send i unfenced reply)) s.store)
  | .giveUp i =>
    (s.calls[i]?).map fun c => { s with late := s.late ++ c.txn.toList }.failed i c
  | .arrive i unfenced =>
    if i < s.late.length then
      some { s with
        store := (CounterStep.change s (.arrive i unfenced)).getD s.store
        late := s.late.eraseIdx i }
    else none
  | .take p => if (s.blocks p).next < (s.blocks p).stop then some (s.take p) else none
  | .restart p => some (s.restart p)

/-- Any number of processes and calls, in any interleaving. -/
def counters : Machine (Counters ι) (CounterStep ι) where
  step s a := a.move s

end

end EtcFS.Metadata
