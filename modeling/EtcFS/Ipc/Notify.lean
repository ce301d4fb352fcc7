import EtcFS.Core.Transition
import EtcFS.Metadata.Extent

/-!
# Telling the kernel what to drop

An invalidation of data pages is acknowledged, because a lock key may be given up only once the
pages under it are gone.
-/

namespace EtcFS.Ipc

open EtcFS.Core

def notifyBreakerTrips : Nat := 3

structure NotifyServer where
  connected : Bool
  ackTimeouts : Nat
  broken : Bool
  deriving DecidableEq, Repr

inductive Delivery where
  /-- Carried out, and acknowledged as such where an acknowledgement is due. -/
  | done
  /-- The acknowledgement says that it failed. -/
  | reported
  /-- The acknowledgement does not come in time. -/
  | timedOut
  /-- The connection fails. -/
  | lost
  deriving DecidableEq, Repr

inductive SendError where
  /-- `errNoNotifyClient`. -/
  | noClient
  /-- `errNotifyClientUnresponsive`. -/
  | unresponsive
  /-- The client reported the invalidation failed. -/
  | reported
  deriving DecidableEq, Repr

def NotifyServer.send (n : NotifyServer) (ack : Bool) (d : Delivery) :
    Option SendError × NotifyServer :=
  if !n.connected then (some .noClient, n)
  else if ack && n.broken then (some .unresponsive, n)
  else
    match d, ack with
    | .done, true => (none, { n with ackTimeouts := 0 })
    | .done, false | .reported, false => (none, n)
    -- the stream is still in step, so the connection stays up
    | .reported, true => (some .reported, n)
    | .timedOut, true =>
      if notifyBreakerTrips ≤ n.ackTimeouts + 1 then
        (some .unresponsive, ⟨false, n.ackTimeouts + 1, true⟩)
      else (some .noClient, ⟨false, n.ackTimeouts + 1, n.broken⟩)
    | .timedOut, false | .lost, _ => (some .noClient, { n with connected := false })

theorem NotifyServer.send_eq_none {n n' : NotifyServer} {d : Delivery}
    (h : n.send true d = (none, n')) : n.connected = true ∧ n.broken = false ∧ d = .done := by
  cases hc : n.connected <;> cases hb : n.broken <;> cases d <;> simp_all [send]; grind

def inodeChanged (holdsLockKey : Bool) (n : NotifyServer) (d : Delivery) :
    Option (Option SendError) × NotifyServer :=
  if holdsLockKey then (none, n)
  else
    match n.send false d with
    | (err, n') => (some err, n')

/-! ## Data pages -/

/-- Where a call of `invalidatePages` stands. -/
inductive Inval where
  /-- It asks `pagesCacheable`. -/
  | asks
  | sends
  /-- It was told that no client is there, and clears `pagesCached`. -/
  | clears
  deriving DecidableEq, Repr

/-- A thread in `releaseKeyLocked`, `dropCachedLocks` or `keyLostLocked`. -/
structure Yield where
  /-- The inodes whose local lock the thread has. -/
  held : List Nat
  /-- The keys went with their session in etcd, so a failure does not keep them. -/
  lost : Bool
  /-- The inodes still to be prepared, the first of them at `inval`. -/
  batch : List Nat
  inval : Inval
  ready : List Nat
  deriving DecidableEq, Repr

structure PageState where
  pageCache : Bool
  notify : NotifyServer
  /-- The connection is the living session's. -/
  linked : Bool
  pagesCached : Bool
  /-- The inodes whose lock key the node holds. -/
  keys : List Nat
  yields : List Yield
  /-- A FUSE session lives. -/
  alive : Bool
  /-- The inodes of which the session has an open answered as cacheable. -/
  opened : List Nat
  /-- The inodes of which the session has a data page. -/
  pages : List Nat
  deriving DecidableEq, Repr

/-- What becomes of one message, and whether the client carries out what it does not answer. -/
structure Exchange where
  delivery : Delivery
  carried : Bool
  deriving DecidableEq, Repr

namespace Yield

def start (inos : List Nat) (lost : Bool) : Yield := ⟨inos, lost, inos, .asks, []⟩

/-- The thread goes on in the call, or with the call's result to the next inode. -/
def after (y : Yield) (ino : Nat) : Inval ⊕ Bool → Yield
  | .inl inval => { y with inval }
  | .inr ok =>
    { y with
      batch := y.batch.tail
      inval := .asks
      ready := if ok || y.lost then ino :: y.ready else y.ready }

end Yield

namespace PageState

def pagesCacheable (s : PageState) : Bool := s.pageCache && s.pagesCached

-- a client of an earlier session does not answer
def delivery (s : PageState) (x : Exchange) : Delivery :=
  if s.linked then x.delivery
  else
    match x.delivery with
    | .timedOut => .timedOut
    | .done | .reported | .lost => .lost

def carriesOut (s : PageState) (x : Exchange) : Bool :=
  s.notify.connected && !s.notify.broken && s.linked &&
    (x.delivery = .done || (x.delivery ≠ .reported && x.carried))

/-- The next action of a call: the load of the flag, the exchange under the server's mutex, and
the store of the flag, which no lock orders with the store in `cacheableOpen`. -/
def invalidatePages (s : PageState) (ino : Nat) (x : Exchange) :
    Inval → PageState × (Inval ⊕ Bool)
  | .asks => (s, if s.pagesCacheable then .inl .sends else .inr true)
  | .sends =>
    let pages := if s.carriesOut x then s.pages.filter (· ≠ ino) else s.pages
    match s.notify.send true (s.delivery x) with
    | (none, n) => ({ s with notify := n, pages := pages }, .inr true)
    | (some .noClient, n) => ({ s with notify := n, pages := pages }, .inl .clears)
    | (some _, n) => ({ s with notify := n, pages := pages }, .inr false)
  | .clears => ({ s with pagesCached := false }, .inr true)

/-- With what `connected` said when the open asked. -/
def cacheableOpen (s : PageState) (dsync connected : Bool) : Bool :=
  s.pageCache && !dsync && connected

def unlocked (s : PageState) (ino : Nat) : Bool := s.yields.all fun y => ino ∉ y.held

end PageState

inductive PageStep where
  | sessionStarts
  | sessionEnds
  /-- The session's client connects, in place of any connection there is. -/
  | connect
  /-- The node answers an open. -/
  | openFile (ino : Nat) (dsync connected : Bool)
  /-- The node answers an open of a session that has ended. -/
  | openLate (dsync connected : Bool)
  /-- The node takes the lock key. -/
  | acquire (ino : Nat)
  /-- A read under the lock fills pages of an inode whose open was cacheable. -/
  | read (ino : Nat)
  /-- An invalidation of a name or of attributes, which is not acknowledged. -/
  | tell (d : Delivery)
  /-- `brokenUntil` passes. -/
  | cooldown
  /-- An upgrade, a recall, an eviction, a shutdown or a lost key locks what it gives up. -/
  | yields (inos : List Nat) (lost : Bool)
  /-- `prepareDropLocked` refuses an entry whose buffer it cannot flush. -/
  | flushFails (w : Nat)
  /-- The next action of a thread's `invalidatePages`. -/
  | invalidate (w : Nat) (x : Exchange)
  /-- A thread deletes the keys of its entries that are ready, and unlocks what it has. -/
  | deleteKeys (w : Nat)
  deriving DecidableEq, Repr

def pageLife : Machine PageState PageStep where
  step s
    | .sessionStarts => if s.alive then none else some { s with alive := true }
    | .sessionEnds =>
      some { s with alive := false, linked := false, opened := [], pages := [] }
    | .connect =>
      if s.alive then
        some { s with notify := { s.notify with connected := true }, linked := true }
      else none
    | .openFile ino dsync connected =>
      if !s.alive then none
      else if s.cacheableOpen dsync connected then
        some { s with pagesCached := true, opened := ino :: s.opened }
      else some s
    | .openLate dsync connected =>
      some { s with pagesCached := s.cacheableOpen dsync connected || s.pagesCached }
    | .acquire ino =>
      if s.unlocked ino then some { s with keys := ino :: s.keys.filter (· ≠ ino) } else none
    | .read ino =>
      if ino ∈ s.keys ∧ ino ∈ s.opened ∧ s.unlocked ino = true then
        some { s with pages := ino :: s.pages }
      else none
    | .tell d =>
      some { s with notify := (s.notify.send false (s.delivery ⟨d, false⟩)).2 }
    | .cooldown => some { s with notify := { s.notify with broken := false } }
    | .yields inos lost =>
      if inos.all s.unlocked then some { s with yields := s.yields ++ [.start inos lost] }
      else none
    | .flushFails w => s.yields[w]?.bind fun y => y.batch.head?.bind fun ino =>
      if y.lost = false ∧ y.inval = .asks then
        some { s with yields := s.yields.set w (y.after ino (.inr false)) }
      else none
    | .invalidate w x => s.yields[w]?.bind fun y => y.batch.head?.map fun ino =>
      match s.invalidatePages ino x y.inval with
      | (s', result) => { s' with yields := s.yields.set w (y.after ino result) }
    | .deleteKeys w => s.yields[w]?.bind fun y =>
      if y.batch = [] then
        some { s with keys := s.keys.filter (· ∉ y.ready), yields := s.yields.eraseIdx w }
      else none

def PageState.atStart (pageCache : Bool) : PageState where
  pageCache := pageCache
  notify := ⟨false, 0, false⟩
  linked := false
  pagesCached := false
  keys := []
  yields := []
  alive := false
  opened := []
  pages := []

end EtcFS.Ipc
