import EtcFS.Core.Transition
import EtcFS.Metadata.Schema
import Mathlib.Logic.Function.Basic

/-!
# The lock cache of a node

One inode's entry in the lock map, and the threads that work on it. A step is one section under one
of the mutexes.
-/

namespace EtcFS.Ipc

open EtcFS.Core Metadata Option Function

/-! ## An entry -/

structure BufferedWrite where
  id : Nat
  under : Option Holder
  deriving DecidableEq, Repr

structure Publication where
  writes : List BufferedWrite
  compared : Option Holder
  deriving DecidableEq, Repr

def InLog (log : List Publication) (id : Nat) : Prop :=
  ∃ p ∈ log, ∃ w ∈ p.writes, w.id = id
  deriving Decidable

structure KeyedMeta where
  under : Option Holder
  metaFor : Holder
  deriving DecidableEq, Repr

inductive LockAgent where
  | thread (t : Nat)
  | sweep
  deriving DecidableEq, Repr

def LockAgent.asThread : LockAgent → Option Nat
  | .thread t => some t
  | .sweep => none

structure LockEntry where
  holder : Option Holder
  /-- Meaningful only while there is a holder. -/
  mode : LockMode
  cached : Option KeyedMeta
  pending : List BufferedWrite
  /-- The local lock: who has it for writing, and which threads for reading. -/
  writer : Option LockAgent
  readers : List LockAgent
  deriving DecidableEq, Repr

def LockEntry.new : LockEntry := ⟨none, .shared, none, [], none, []⟩

inductive FlushReply where
  /-- The transaction is not applied. -/
  | failed
  /-- It is applied, and the node is not told. -/
  | unheard
  | committed
  | fenced
  /-- A comparison fails. The listing that looks for an earlier attempt may be read, and
  the lock key may be found gone. -/
  | refused (read gone : Bool)
  deriving DecidableEq, Repr

inductive CommitReply where
  | failed
  | unheard
  /-- The snapshot follows, unless something is left to reclaim. -/
  | committed (follows : Bool)
  | refused
  deriving DecidableEq, Repr

inductive EntryAct where
  | lock (a : LockAgent) (mode : LockMode)
  /-- The local lock is let go, and with it the snapshot of a holder that did not say
  what it changed. -/
  | unlock (a : LockAgent) (mode : LockMode) (dropMeta : Bool)
  /-- `ensureLockKey`, under the session with this lease. -/
  | ensure (mode : LockMode) (session : Nat) (invalidated : Bool) (reply : Option Holder)
  | setMeta (under : Option Holder)
  /-- The last part of `bufferWrite`. -/
  | join (id : Nat) (under : Option Holder)
  | flush (r : FlushReply)
  /-- `dropCachedLocks`. -/
  | drop (r : FlushReply) (invalidated : Bool)
  /-- `dropCachesForLease`. -/
  | dropForLease (lease : Nat)
  | seed (holder : Holder)
  /-- `commitGuarded` for a write on its own. -/
  | commit (id : Nat) (under : Option Holder) (r : CommitReply)
  deriving DecidableEq, Repr

def EntryAct.onLocalLock : EntryAct → Bool
  | .lock _ _ | .unlock _ _ _ => true
  | _ => false

structure EntryResult where
  entry : LockEntry
  log : List Publication
  acked : List Nat
  ok : Bool

def covers (held want : LockMode) : Bool := held = .exclusive || held = want

namespace LockEntry

def free (e : LockEntry) : LockMode → Bool
  | .exclusive => e.writer = none && e.readers = []
  | .shared => e.writer = none

def lockLocal (e : LockEntry) (a : LockAgent) : LockMode → LockEntry
  | .exclusive => { e with writer := some a }
  | .shared => { e with readers := a :: e.readers }

def unlockLocal (e : LockEntry) (a : LockAgent) : LockMode → LockEntry
  | .exclusive => { e with writer := none }
  | .shared => { e with readers := e.readers.erase a }

def discardPending (e : LockEntry) : LockEntry := { e with pending := [], cached := none }

def forgetKey (e : LockEntry) : LockEntry :=
  { e with holder := none, pending := [], cached := none }

def cachedMeta (e : LockEntry) : Option KeyedMeta :=
  e.cached.filter fun m => e.holder = some m.metaFor

def stale (e : LockEntry) (session : Nat) : Bool := e.holder.any fun h => h.lease != session

def checkLease (e : LockEntry) (session : Nat) : LockEntry :=
  if e.stale session = true then e.forgetKey else e

def releaseKey (e : LockEntry) : LockEntry := if e.holder = none then e else e.forgetKey

def acquire (e : LockEntry) (mode : LockMode) (invalidated : Bool) (reply : Option Holder) :
    EntryResult :=
  if e.holder ≠ none ∧ covers e.mode mode = true then ⟨e, [], [], true⟩
  else if e.holder ≠ none ∧ invalidated = false then ⟨e, [], [], false⟩
  else
    match reply with
    | some h => ⟨{ e.releaseKey with holder := some h, mode := mode }, [], [], true⟩
    | none => ⟨e.releaseKey, [], [], false⟩

def publish (log : List Publication) (e : LockEntry) (h : Holder) : FlushReply → EntryResult
  | .failed => ⟨e, [], [], false⟩
  | .unheard => ⟨e, [⟨e.pending, some h⟩], [], false⟩
  | .committed => ⟨{ e with pending := [] }, [⟨e.pending, some h⟩], [], true⟩
  | .fenced => ⟨e.discardPending, [], [], false⟩
  | .refused read gone =>
    if read = true ∧ ∀ w ∈ e.pending, InLog log w.id then
      ⟨{ e with pending := [] }, [], [], true⟩
    else if gone = true then ⟨e.forgetKey, [], [], false⟩
    else ⟨e, [], [], false⟩

def flush (log : List Publication) (e : LockEntry) (r : FlushReply) : EntryResult :=
  if e.pending = [] then ⟨e, [], [], true⟩
  else
    match e.holder with
    | none => ⟨e.discardPending, [], [], true⟩
    | some h => e.publish log h r

def drop (log : List Publication) (e : LockEntry) (r : FlushReply) (invalidated : Bool) :
    EntryResult :=
  if ((e.flush log r).ok = false ∧ (e.flush log r).entry.pending ≠ []) ∨ invalidated = false then
    ⟨(e.flush log r).entry, (e.flush log r).log, [], false⟩
  else ⟨(e.flush log r).entry.forgetKey, (e.flush log r).log, [], true⟩

def setMeta (e : LockEntry) (under : Option Holder) : LockEntry :=
  { e with cached := (e.holder.map (⟨under, ·⟩)).or e.cached }

def join (e : LockEntry) (id : Nat) (under : Option Holder) : LockEntry :=
  { e with
    pending := e.pending ++ [⟨id, under⟩]
    cached := e.cached.map fun m => { m with metaFor := e.holder.getD m.metaFor } }

def seed (e : LockEntry) (h : Holder) : LockEntry :=
  if e.holder = none then
    { e with holder := some h, mode := .exclusive, cached := some ⟨some h, h⟩ }
  else e

def commit (e : LockEntry) (id : Nat) (under : Option Holder) : CommitReply → EntryResult
  | .failed | .refused => ⟨e, [], [], false⟩
  | .unheard => ⟨e, [⟨[⟨id, under⟩], none⟩], [], false⟩
  | .committed _ => ⟨e, [⟨[⟨id, under⟩], none⟩], [id], true⟩

def run (log : List Publication) (e : LockEntry) : EntryAct → EntryResult
  | .lock a mode => ⟨e.lockLocal a mode, [], [], true⟩
  | .unlock a mode dropMeta =>
    ⟨{ e.unlockLocal a mode with cached := if dropMeta = true then none else e.cached }, [], [],
      true⟩
  | .ensure mode session invalidated reply => (e.checkLease session).acquire mode invalidated reply
  | .setMeta under => ⟨e.setMeta under, [], [], true⟩
  | .join id under => ⟨e.join id under, [], [id], true⟩
  | .flush r => e.flush log r
  | .drop r invalidated => e.drop log r invalidated
  | .dropForLease lease =>
    ⟨if e.holder.any (fun h => h.lease == lease) = true then e.forgetKey else e, [], [], true⟩
  | .seed h => ⟨e.seed h, [], [], true⟩
  | .commit id under r => e.commit id under r

end LockEntry

/-! ## Threads -/

inductive LockOp where
  | read
  | write (id : Nat)
  /-- An fsync, with the writes that were acknowledged when it was received. -/
  | fsync (owed : List Nat)
  /-- `seedCreatedLock`, after the create transaction took the key. -/
  | create (holder : Holder)
  /-- `yieldCachedLock`, or `yieldQuietCachedLock`. -/
  | recall (quiet : Bool)
  /-- The flush interval, or memory pressure. -/
  | publish
  deriving DecidableEq, Repr

namespace LockOp

def mode : LockOp → LockMode
  | .read => .shared
  | _ => .exclusive

def locksInode : LockOp → Bool
  | .read | .write _ | .fsync _ => true
  | _ => false

def locksEntry : LockOp → Bool
  | .create _ => false
  | _ => true

def plans : LockOp → Bool
  | .read | .write _ => true
  | _ => false

def dropsMeta : LockOp → Bool
  | .write _ => true
  | _ => false

def owed : LockOp → List Nat
  | .fsync owed => owed
  | _ => []

end LockOp

inductive Rest where
  | idle
  /-- About to call `entryFor`. -/
  | entering (op : LockOp)
  | received (owed : List Nat)
  /-- The fsync has answered success. -/
  | answered (owed : List Nat)
  deriving DecidableEq, Repr

namespace Rest

def owed : Rest → List Nat
  | .idle => []
  | .entering op => op.owed
  | .received owed | .answered owed => owed

def promised : Rest → List Nat
  | .answered owed => owed
  | _ => []

end Rest

inductive ThreadPc where
  | rest (r : Rest)
  /-- `hasPending` has looked the entry up. -/
  | asking (owed : List Nat) (e : Nat)
  | located (op : LockOp) (e : Nat)
  /-- The local lock is taken. -/
  | locked (op : LockOp) (e : Nat)
  /-- The entry was found to be the current one. -/
  | checked (op : LockOp) (e : Nat)
  /-- The key is there. -/
  | holding (op : LockOp) (e : Nat)
  /-- The snapshot was not there. -/
  | missed (op : LockOp) (e : Nat)
  /-- The metadata was read from etcd. -/
  | fetched (op : LockOp) (e : Nat) (under : Option Holder)
  /-- The metadata is at hand, and a write is planned from it. -/
  | planned (op : LockOp) (e : Nat) (under : Option Holder)
  /-- A write that is to be committed found writes buffered. -/
  | settling (id e : Nat)
  /-- It reads the extents again. -/
  | rereading (id e : Nat) (again : Bool)
  | committing (id e : Nat) (under : Option Holder) (again : Bool)
  | filing (e : Nat) (under : Option Holder)
  /-- A quiet yield has dropped the key. -/
  | forgetting (e : Nat)
  | unlocking (e : Nat) (mode : LockMode) (dropMeta : Bool) (next : Rest)
  deriving DecidableEq, Repr

namespace ThreadPc

def holds : ThreadPc → Option (Nat × LockMode)
  | .rest _ | .asking _ _ | .located _ _ => none
  | .locked op e | .checked op e | .holding op e | .missed op e | .fetched op e _
  | .planned op e _ => some (e, op.mode)
  | .settling _ e | .rereading _ e _ | .committing _ e _ _ | .filing e _ | .forgetting e =>
    some (e, .exclusive)
  | .unlocking e mode _ _ => some (e, mode)

def inside : ThreadPc → Option Nat
  | .checked _ e | .holding _ e | .missed _ e | .fetched _ e _ | .planned _ e _ | .settling _ e
  | .rereading _ e _ | .committing _ e _ _ | .filing e _ => some e
  | _ => none

def awaits : ThreadPc → Option Nat
  | .located _ e | .locked _ e => some e
  | _ => none

def owed : ThreadPc → List Nat
  | .rest r => r.owed
  | .asking owed _ => owed
  | .located op _ | .locked op _ | .checked op _ | .holding op _ | .missed op _ | .fetched op _ _
  | .planned op _ _ => op.owed
  | .settling _ _ | .rereading _ _ _ | .committing _ _ _ _ | .filing _ _ | .forgetting _ => []
  | .unlocking _ _ _ next => next.owed

def promised : ThreadPc → List Nat
  | .rest r | .unlocking _ _ _ r => r.promised
  | _ => []

end ThreadPc

inductive ThreadAct where
  | read
  | write (id : Nat)
  | create (holder : Holder)
  | fsync
  | recall (quiet : Bool)
  /-- A flusher takes the entry from the map. -/
  | collect
  | lookup
  | ask
  /-- The wait for the local lock is over its budget. -/
  | giveUp
  | lock
  /-- `isCurrent`. -/
  | check
  | ensure (invalidated : Bool) (reply : Option Holder)
  | readMeta
  | fetch
  | file
  /-- `bufferWrite`, which publishes a full buffer first. -/
  | buffer (full : Option FlushReply)
  /-- The write is to be committed at once. -/
  | settle
  | commit (r : CommitReply)
  | flush (r : FlushReply)
  | drop (r : FlushReply) (invalidated : Bool)
  | seed
  | finish
  | unlock
  | answer
  deriving DecidableEq, Repr

structure ThreadPlan where
  work : Option (Nat × EntryAct)
  next : Bool → ThreadPc

namespace ThreadPlan

def goOn (p : ThreadPc) : ThreadPlan := ⟨none, fun _ => p⟩

def leave (e : Nat) (op : LockOp) (next : Rest) : ThreadPlan :=
  goOn (.unlocking e op.mode op.dropsMeta next)

end ThreadPlan

/-! ## The table -/

inductive Sweep where
  | idle
  | claimed (e : Nat)
  | dropped (e : Nat) (released : Bool)
  /-- The local locks are free, and the entry is not yet deleted from the map. -/
  | unlocked (released : Bool)
  deriving DecidableEq, Repr

def Sweep.released : Sweep → Bool
  | .dropped _ released | .unlocked released => released
  | _ => false

def Sweep.victim : Sweep → Option Nat
  | .claimed e | .dropped e _ => some e
  | _ => none

structure LockTable where
  current : Option Nat
  entries : Nat → LockEntry
  /-- The entries from here on have not been made. -/
  fresh : Nat
  sweep : Sweep
  threads : Nat → ThreadPc
  /-- The lease of the lock session. -/
  session : Nat
  acked : List Nat
  log : List Publication

inductive SweepAct where
  | claim
  | drop (r : FlushReply) (invalidated : Bool)
  | unlock
  | delete
  deriving DecidableEq, Repr

inductive TableAct where
  | thread (t : Nat) (a : ThreadAct)
  /-- `entryFor`. -/
  | enter (t : Nat)
  /-- `forget`. -/
  | forget (t : Nat)
  | sweep (a : SweepAct)
  /-- The lock session ends, and the next one has another lease. -/
  | sessionEnds
  /-- The session watcher comes to the entry, for a lease that has ended. -/
  | dropForLease (lease e : Nat)
  deriving DecidableEq, Repr

namespace LockTable

def hasPending (s : LockTable) : Bool := s.current.any fun e => (s.entries e).pending != []

def plan (s : LockTable) (t : Nat) : ThreadPc → ThreadAct → Option ThreadPlan
  | .rest .idle, .read => some (.goOn (.rest (.entering .read)))
  | .rest .idle, .write id => some (.goOn (.rest (.entering (.write id))))
  | .rest .idle, .create h => some (.goOn (.rest (.entering (.create h))))
  | .rest .idle, .fsync => some (.goOn (.rest (.received s.acked)))
  | .rest .idle, .recall quiet => s.current.map fun e => .goOn (.located (.recall quiet) e)
  | .rest .idle, .collect => s.current.map fun e => .goOn (.located .publish e)
  | .rest (.received owed), .lookup =>
    some (.goOn (s.current.elim (.rest (.answered owed)) (.asking owed)))
  | .asking owed e, .ask =>
    some (.goOn (.rest (if (s.entries e).pending = [] then .answered owed
      else .entering (.fsync owed))))
  | .rest (.entering op), .giveUp | .located op _, .giveUp =>
    if op.locksInode = true then some (.goOn (.rest .idle)) else none
  | .located op e, .lock =>
    if op.locksEntry = true ∧ (s.entries e).free op.mode = true then
      some ⟨some (e, .lock (.thread t) op.mode), fun _ => .locked op e⟩
    else none
  | .locked op e, .check =>
    if op.locksInode = true then
      some (.goOn (if s.current = some e then .checked op e
        else .unlocking e op.mode false (.entering op)))
    else none
  | .checked op e, .ensure invalidated reply =>
    some ⟨some (e, .ensure op.mode s.session invalidated reply),
      fun ok => if ok = true then .holding op e else .unlocking e op.mode false .idle⟩
  | .holding op e, .readMeta =>
    if op.plans = true then
      some (.goOn ((s.entries e).cachedMeta.elim (.missed op e) fun m => .planned op e m.under))
    else none
  | .missed op e, .fetch =>
    some (if (s.entries e).pending = [] then .goOn (.fetched op e (s.entries e).holder)
      else .leave e op .idle)
  | .fetched op e under, .file => some ⟨some (e, .setMeta under), fun _ => .planned op e under⟩
  | .planned (.write id) e under, .buffer none =>
    some ⟨some (e, .join id under), fun _ => .unlocking e .exclusive false .idle⟩
  | .planned (.write id) e _, .buffer (some r) =>
    if (s.entries e).pending = [] then none
    else some ⟨some (e, .flush r), fun ok =>
      if ok = true then .holding (.write id) e else .unlocking e .exclusive true .idle⟩
  | .planned (.write id) e under, .settle =>
    some (.goOn (if s.hasPending = true then .settling id e else .committing id e under false))
  | .settling id e, .flush r =>
    some ⟨some (e, .flush r), fun ok =>
      if ok = true then .rereading id e false else .unlocking e .exclusive true .idle⟩
  | .rereading id e again, .fetch => some (.goOn (.committing id e (s.entries e).holder again))
  | .committing id e under again, .commit r =>
    some ⟨some (e, .commit id under r), fun _ =>
      if r = .committed true then .filing e under
      else if r = .refused ∧ again = false then .rereading id e true
      else .unlocking e .exclusive true .idle⟩
  | .filing e under, .file =>
    some ⟨some (e, .setMeta under), fun _ => .unlocking e .exclusive false .idle⟩
  | .holding (.fsync owed) e, .flush r =>
    some ⟨some (e, .flush r), fun ok =>
      .unlocking e .exclusive false (if ok = true then .answered owed else .idle)⟩
  | .holding (.write id) e, .flush r =>
    some ⟨some (e, .flush r), fun ok =>
      if ok = true then .holding (.write id) e else .unlocking e .exclusive true .idle⟩
  | .locked .publish e, .flush r =>
    some ⟨some (e, .flush r), fun _ => .unlocking e .exclusive false .idle⟩
  | .locked (.recall quiet) e, .drop r invalidated =>
    some (if quiet = true ∧ (s.entries e).pending ≠ [] then .leave e (.recall quiet) .idle
      else ⟨some (e, .drop r invalidated), fun ok =>
        if ok = true ∧ quiet = true then .forgetting e else .unlocking e .exclusive false .idle⟩)
  | .located (.create h) e, .seed => some ⟨some (e, .seed h), fun _ => .rest .idle⟩
  | .holding op e, .finish | .planned op e _, .finish =>
    if op.plans = true then some (.leave e op .idle) else none
  | .unlocking e mode dropMeta next, .unlock =>
    some ⟨some (e, .unlock (.thread t) mode dropMeta), fun _ => .rest next⟩
  | .rest (.answered _), .answer => some (.goOn (.rest .idle))
  | _, _ => none

def result (s : LockTable) (e : Nat) (a : EntryAct) : EntryResult := (s.entries e).run s.log a

def run (s : LockTable) (e : Nat) (a : EntryAct) : LockTable :=
  { s with
    entries := Function.update s.entries e (s.result e a).entry
    log := s.log ++ (s.result e a).log
    acked := s.acked ++ (s.result e a).acked }

def goto (s : LockTable) (t : Nat) (p : ThreadPc) : LockTable :=
  { s with threads := Function.update s.threads t p }

theorem goto_threads_self (s : LockTable) (t : Nat) (p : ThreadPc) :
    (s.goto t p).threads t = p := update_self ..

theorem goto_threads_of_ne {t t' : Nat} (h : t' ≠ t) (s : LockTable) (p : ThreadPc) :
    (s.goto t p).threads t' = s.threads t' := update_of_ne h ..

theorem run_entries_self (s : LockTable) (e : Nat) (a : EntryAct) :
    (s.run e a).entries e = (s.result e a).entry := update_self ..

theorem run_entries_of_ne {e e' : Nat} (h : e' ≠ e) (s : LockTable) (a : EntryAct) :
    (s.run e a).entries e' = s.entries e' := update_of_ne h ..

def perform (s : LockTable) (t : Nat) (p : ThreadPlan) : LockTable :=
  match p.work with
  | none => s.goto t (p.next true)
  | some (e, a) => (s.run e a).goto t (p.next (s.result e a).ok)

def entryFor (s : LockTable) (t : Nat) (op : LockOp) : LockTable :=
  match s.current with
  | some e => s.goto t (.located op e)
  | none => { s with current := some s.fresh, fresh := s.fresh + 1 }.goto t (.located op s.fresh)

theorem perform_threads_self (s : LockTable) (t : Nat) (p : ThreadPlan) :
    ∃ ok, (s.perform t p).threads t = p.next ok ∧
      ∀ e a, p.work = some (e, a) → ok = (s.result e a).ok := by
  unfold perform
  split
  case h_1 hnone =>
    refine ⟨true, goto_threads_self .., fun e a h => ?_⟩
    cases hnone.symm.trans h
  case h_2 e a hsome =>
    refine ⟨_, goto_threads_self .., fun e' a' h => ?_⟩
    obtain ⟨rfl, rfl⟩ := Prod.mk.inj (some.inj (hsome.symm.trans h))
    rfl

theorem perform_threads_of_ne {t t' : Nat} (h : t' ≠ t) (s : LockTable) (p : ThreadPlan) :
    (s.perform t p).threads t' = s.threads t' := by
  unfold perform
  split <;> exact goto_threads_of_ne h ..

theorem entryFor_threads_self (s : LockTable) (t : Nat) (op : LockOp) :
    ∃ e, (s.entryFor t op).threads t = .located op e := by
  unfold entryFor
  split <;> exact ⟨_, goto_threads_self ..⟩

theorem entryFor_threads_of_ne {t t' : Nat} (h : t' ≠ t) (s : LockTable) (op : LockOp) :
    (s.entryFor t op).threads t' = s.threads t' := by
  unfold entryFor
  split <;> exact goto_threads_of_ne h ..

def sweepStep (s : LockTable) : SweepAct → Option LockTable
  | .claim =>
    match s.sweep, s.current with
    | .idle, some e =>
      if (s.entries e).free .exclusive = true then
        some { s.run e (.lock .sweep .exclusive) with sweep := .claimed e }
      else none
    | _, _ => none
  | .drop r invalidated =>
    match s.sweep with
    | .claimed e =>
      some { s.run e (.drop r invalidated) with
        sweep := .dropped e (s.result e (.drop r invalidated)).ok }
    | _ => none
  | .unlock =>
    match s.sweep with
    | .dropped e released =>
      some { s.run e (.unlock .sweep .exclusive false) with sweep := .unlocked released }
    | _ => none
  | .delete =>
    match s.sweep with
    | .unlocked released =>
      some { s with sweep := .idle, current := if released = true then none else s.current }
    | _ => none

def step (s : LockTable) : TableAct → Option LockTable
  | .thread t a => (s.plan t (s.threads t) a).map (s.perform t)
  | .enter t =>
    match s.threads t with
    | .rest (.entering op) => some (s.entryFor t op)
    | _ => none
  | .forget t =>
    match s.threads t with
    | .forgetting e =>
      some ({ s with current := if s.current = some e then none else s.current }.goto t
        (.unlocking e .exclusive false .idle))
    | _ => none
  | .sweep a => s.sweepStep a
  | .sessionEnds => some { s with session := s.session + 1 }
  | .dropForLease lease e =>
    if lease < s.session then some (s.run e (.dropForLease lease)) else none

def start : LockTable :=
  { current := none, entries := fun _ => .new, fresh := 0, sweep := .idle,
    threads := fun _ => .rest .idle, session := 0, acked := [], log := [] }

def work (s : LockTable) : TableAct → Option (Nat × EntryAct)
  | .thread t a => (s.plan t (s.threads t) a).bind ThreadPlan.work
  | .sweep .claim => s.current.map (·, .lock .sweep .exclusive)
  | .sweep (.drop r invalidated) => s.sweep.victim.map (·, .drop r invalidated)
  | .sweep .unlock => s.sweep.victim.map (·, .unlock .sweep .exclusive false)
  | .dropForLease lease e => some (e, .dropForLease lease)
  | .enter _ | .forget _ | .sweep .delete | .sessionEnds => none

end LockTable

def lockTable : Machine LockTable TableAct := ⟨LockTable.step⟩

/-! ## What a section can do -/

section

variable {log : List Publication} {x : LockEntry}

inductive FlushShape (log : List Publication) (x : LockEntry) (r : FlushReply) : EntryResult → Prop
  | empty (hempty : x.pending = []) : FlushShape log x r ⟨x, [], [], true⟩
  | unkeyed (hheld : x.holder = none) : FlushShape log x r ⟨x.discardPending, [], [], true⟩
  | kept : FlushShape log x r ⟨x, [], [], false⟩
  | unheard {h : Holder} (hheld : x.holder = some h) :
    FlushShape log x r ⟨x, [⟨x.pending, some h⟩], [], false⟩
  | committed {h : Holder} (hheld : x.holder = some h) :
    FlushShape log x r ⟨{ x with pending := [] }, [⟨x.pending, some h⟩], [], true⟩
  | fenced (hr : r = .fenced) : FlushShape log x r ⟨x.discardPending, [], [], false⟩
  /-- An earlier attempt got in. -/
  | adopted (hlog : ∀ w ∈ x.pending, InLog log w.id) :
    FlushShape log x r ⟨{ x with pending := [] }, [], [], true⟩
  | gone {read : Bool} (hr : r = .refused read true) :
    FlushShape log x r ⟨x.forgetKey, [], [], false⟩

theorem flush_shape (log : List Publication) (x : LockEntry) (r : FlushReply) :
    FlushShape log x r (x.flush log r) := by
  unfold LockEntry.flush
  split
  case isTrue hempty => exact .empty hempty
  split
  case h_1 hheld => exact .unkeyed hheld
  case h_2 h hheld =>
    cases r with
    | failed => exact .kept
    | unheard => exact .unheard hheld
    | committed => exact .committed hheld
    | fenced => exact .fenced rfl
    | refused read gone =>
      unfold LockEntry.publish
      dsimp only
      split
      case isTrue hread => exact .adopted hread.2
      split
      case isTrue hgone =>
        subst hgone
        exact .gone rfl
      case isFalse => exact .kept

inductive EnsureShape (x : LockEntry) (mode : LockMode) (session : Nat) : EntryResult → Prop
  | same {ok : Bool} : EnsureShape x mode session ⟨x, [], [], ok⟩
  /-- The key's lease is gone, or its mode does not do. -/
  | given (hheld : x.holder ≠ none)
    (hgiven : x.stale session = true ∨ covers x.mode mode = false) :
    EnsureShape x mode session ⟨x.forgetKey, [], [], false⟩
  | replaced {h : Holder} (hheld : x.holder ≠ none)
    (hgiven : x.stale session = true ∨ covers x.mode mode = false) :
    EnsureShape x mode session ⟨{ x.forgetKey with holder := some h, mode := mode }, [], [], true⟩
  /-- A key is taken for an entry that had none, whatever it has buffered. -/
  | taken {h : Holder} (hheld : x.holder = none) :
    EnsureShape x mode session ⟨{ x with holder := some h, mode := mode }, [], [], true⟩

theorem ensure_shape (log : List Publication) (x : LockEntry) (mode : LockMode) (session : Nat)
    (invalidated : Bool) (reply : Option Holder) :
    EnsureShape x mode session (x.run log (.ensure mode session invalidated reply)) := by
  unfold LockEntry.run LockEntry.checkLease
  dsimp only
  split
  case isTrue hstale =>
    have hheld : x.holder ≠ none := by
      intro hnone
      rw [LockEntry.stale, hnone] at hstale
      cases hstale
    cases reply with
    | none => exact .given hheld (.inl hstale)
    | some h => exact .replaced hheld (.inl hstale)
  case isFalse hstale =>
    unfold LockEntry.acquire
    split
    case isTrue => exact .same
    case isFalse hcovers =>
      split
      case isTrue => exact .same
      case isFalse =>
        unfold LockEntry.releaseKey
        by_cases hheld : x.holder = none
        · rw [if_pos hheld]
          cases reply with
          | none => exact .same
          | some h => exact .taken hheld
        · rw [if_neg hheld]
          have hgiven : covers x.mode mode = false :=
            Bool.not_eq_true _ ▸ fun hc => hcovers ⟨hheld, hc⟩
          cases reply with
          | none => exact .given hheld (.inr hgiven)
          | some h => exact .replaced hheld (.inr hgiven)

end

/-! ## What a step can do -/

section

variable {s s' : LockTable} {t : Nat} {p : ThreadPc} {a : ThreadAct}

theorem enter_eq (h : s.step (.enter t) = some s') :
    ∃ op, s.threads t = .rest (.entering op) ∧ s' = s.entryFor t op := by
  simp only [LockTable.step] at h
  split at h
  case h_1 op hop => exact ⟨op, hop, (some.inj h).symm⟩
  case h_2 => cases h

theorem forget_eq (h : s.step (.forget t) = some s') : ∃ e, s.threads t = .forgetting e ∧
      s' = { s with current := if s.current = some e then none else s.current }.goto t
        (.unlocking e .exclusive false .idle) := by
  simp only [LockTable.step] at h
  split at h
  case h_1 e he => exact ⟨e, he, (some.inj h).symm⟩
  case h_2 => cases h

inductive SweepShape (s : LockTable) : SweepAct → LockTable → Prop
  | claim {e : Nat} (hsweep : s.sweep = .idle) (hcurrent : s.current = some e)
    (hfree : (s.entries e).free .exclusive = true) :
    SweepShape s .claim { s.run e (.lock .sweep .exclusive) with sweep := .claimed e }
  | drop {e : Nat} {r : FlushReply} {invalidated : Bool} (hsweep : s.sweep = .claimed e) :
    SweepShape s (.drop r invalidated) { s.run e (.drop r invalidated) with
      sweep := .dropped e (s.result e (.drop r invalidated)).ok }
  | unlock {e : Nat} {released : Bool} (hsweep : s.sweep = .dropped e released) :
    SweepShape s .unlock { s.run e (.unlock .sweep .exclusive false) with
      sweep := .unlocked released }
  | delete {released : Bool} (hsweep : s.sweep = .unlocked released) :
    SweepShape s .delete { s with
      sweep := .idle, current := if released = true then none else s.current }

theorem sweep_shape {a : SweepAct} (h : s.step (.sweep a) = some s') : SweepShape s a s' := by
  simp only [LockTable.step] at h
  unfold LockTable.sweepStep at h
  split at h
  case h_1 =>
    split at h
    case h_1 e hsweep hcurrent =>
      obtain ⟨hfree, h⟩ := ite_none_right_eq_some.mp h
      exact some.inj h ▸ .claim hsweep hcurrent hfree
    case h_2 => cases h
  case h_2 r invalidated =>
    split at h
    case h_1 e hsweep => exact some.inj h ▸ .drop hsweep
    case h_2 => cases h
  case h_3 =>
    split at h
    case h_1 e released hsweep => exact some.inj h ▸ .unlock hsweep
    case h_2 => cases h
  case h_4 =>
    split at h
    case h_1 released hsweep => exact some.inj h ▸ .delete hsweep
    case h_2 => cases h

theorem step_work {act : TableAct} (h : s.step act = some s') :
    (s.work act = none ∧ s'.entries = s.entries ∧ s'.log = s.log ∧ s'.acked = s.acked) ∨
      ∃ e work, s.work act = some (e, work) ∧ s'.entries = (s.run e work).entries ∧
        s'.log = (s.run e work).log ∧ s'.acked = (s.run e work).acked := by
  cases act with
  | thread t a =>
    obtain ⟨plan, hplan, rfl⟩ := map_eq_some_iff.mp h
    rw [LockTable.work, hplan, bind_some, LockTable.perform]
    cases hwork : plan.work with
    | none => exact .inl ⟨rfl, rfl, rfl, rfl⟩
    | some w => exact .inr ⟨w.1, w.2, rfl, rfl, rfl, rfl⟩
  | enter t =>
    obtain ⟨op, -, rfl⟩ := enter_eq h
    refine .inl ⟨rfl, ?_⟩
    unfold LockTable.entryFor
    split <;> exact ⟨rfl, rfl, rfl⟩
  | forget t =>
    obtain ⟨e, -, rfl⟩ := forget_eq h
    exact .inl ⟨rfl, rfl, rfl, rfl⟩
  | sessionEnds =>
    cases h
    exact .inl ⟨rfl, rfl, rfl, rfl⟩
  | dropForLease lease e =>
    obtain ⟨-, rfl⟩ := ite_some_none_eq_some.mp h
    exact .inr ⟨e, _, rfl, rfl, rfl, rfl⟩
  | sweep a =>
    cases sweep_shape h with
    | claim hsweep hcurrent =>
      exact .inr ⟨_, _, by rw [LockTable.work, hcurrent]; rfl, rfl, rfl, rfl⟩
    | drop hsweep => exact .inr ⟨_, _, by rw [LockTable.work, hsweep]; rfl, rfl, rfl, rfl⟩
    | unlock hsweep => exact .inr ⟨_, _, by rw [LockTable.work, hsweep]; rfl, rfl, rfl, rfl⟩
    | delete hsweep => exact .inl ⟨rfl, rfl, rfl, rfl⟩

structure SameHold (p q : ThreadPc) : Prop where
  holds : q.holds = p.holds
  inside : q.inside = none ∨ q.inside = p.inside
  owed : q.owed = [] ∨ q.owed = p.owed
  promised : q.promised = []
  forgetting : ∀ e, q ≠ .forgetting e
  asking : ∀ owed e, q ≠ .asking owed e

inductive PlanShape (s : LockTable) (t : Nat) (p : ThreadPc) (a : ThreadAct) : ThreadPlan → Prop
  | goOn {q : ThreadPc} (hq : SameHold p q) : PlanShape s t p a (.goOn q)
  | fsync (hp : p = .rest .idle) : PlanShape s t p a (.goOn (.rest (.received s.acked)))
  | lookup {owed : List Nat} (hp : p = .rest (.received owed)) :
    PlanShape s t p a (.goOn (s.current.elim (.rest (.answered owed)) (.asking owed)))
  | ask {owed : List Nat} {e : Nat} (hp : p = .asking owed e) :
    PlanShape s t p a (.goOn (.rest (if (s.entries e).pending = [] then .answered owed
      else .entering (.fsync owed))))
  | check {op : LockOp} {e : Nat} (hp : p = .locked op e) (ha : a = .check) :
    PlanShape s t p a (.goOn (if s.current = some e then .checked op e
      else .unlocking e op.mode false (.entering op)))
  | lock {op : LockOp} {e : Nat} (hp : p = .located op e)
    (hfree : (s.entries e).free op.mode = true) :
    PlanShape s t p a ⟨some (e, .lock (.thread t) op.mode), fun _ => .locked op e⟩
  | unlock {e : Nat} {mode : LockMode} {dropMeta : Bool} {next : Rest}
    (hp : p = .unlocking e mode dropMeta next) :
    PlanShape s t p a ⟨some (e, .unlock (.thread t) mode dropMeta), fun _ => .rest next⟩
  | seed {h : Holder} {e : Nat} (hp : p = .located (.create h) e) (ha : a = .seed) :
    PlanShape s t p a ⟨some (e, .seed h), fun _ => .rest .idle⟩
  | drop {quiet : Bool} {e : Nat} {r : FlushReply} {invalidated : Bool}
    (hp : p = .locked (.recall quiet) e) :
    PlanShape s t p a ⟨some (e, .drop r invalidated), fun ok =>
      if ok = true ∧ quiet = true then .forgetting e else .unlocking e .exclusive false .idle⟩
  | flush {e : Nat} {r : FlushReply} (hp : p = .locked .publish e) :
    PlanShape s t p a ⟨some (e, .flush r), fun _ => .unlocking e .exclusive false .idle⟩
  | flushOwed {owed : List Nat} {e : Nat} {r : FlushReply} (hp : p = .holding (.fsync owed) e) :
    PlanShape s t p a ⟨some (e, .flush r), fun ok =>
      .unlocking e .exclusive false (if ok = true then .answered owed else .idle)⟩
  /-- The mutex is taken by a thread that has found the entry to be the current one. -/
  | inside {e : Nat} {work : EntryAct} {next : Bool → ThreadPc} (hp : p.inside = some e)
    (hwork : work.onLocalLock = false)
    (hnext : ∀ b, SameHold p (next b)) : PlanShape s t p a ⟨some (e, work), next⟩

theorem sameHold_idle (h : p.holds = none) : SameHold p (.rest .idle) :=
  ⟨h.symm, .inl rfl, .inl rfl, rfl, fun _ => ThreadPc.noConfusion,
    fun _ _ => ThreadPc.noConfusion⟩

theorem sameHold_unlocking {e : Nat} {mode : LockMode} (h : p.holds = some (e, mode))
    (dropMeta : Bool) :
    SameHold p (.unlocking e mode dropMeta .idle) :=
  ⟨h.symm, .inl rfl, .inl rfl, rfl, fun _ => ThreadPc.noConfusion,
    fun _ _ => ThreadPc.noConfusion⟩

theorem sameHold_inside {q : ThreadPc} {e : Nat} (he : q.inside = some e)
    (hholds : q.holds = p.holds) (hinside : q.inside = p.inside)
    (howed : q.owed = [] ∨ q.owed = p.owed) : SameHold p q := by
  refine ⟨hholds, .inr hinside, howed, ?_, ?_, ?_⟩
  · cases q <;> first | rfl | cases he
  · rintro e' rfl
    cases he
  · rintro owed e' rfl
    cases he

theorem plan_shape {plan : ThreadPlan} (h : s.plan t p a = some plan) : PlanShape s t p a plan := by
  unfold LockTable.plan at h
  split at h
  -- a request arrives
  case h_1 | h_2 | h_3 =>
    cases h
    exact .goOn ⟨rfl, .inl rfl, .inl rfl, rfl, fun _ => ThreadPc.noConfusion,
      fun _ _ => ThreadPc.noConfusion⟩
  case h_4 =>
    cases h
    exact .fsync rfl
  case h_5 | h_6 =>
    obtain ⟨e, -, rfl⟩ := map_eq_some_iff.mp h
    exact .goOn ⟨rfl, .inl rfl, .inl rfl, rfl, fun _ => ThreadPc.noConfusion,
      fun _ _ => ThreadPc.noConfusion⟩
  case h_7 =>
    cases h
    exact .lookup rfl
  case h_8 =>
    cases h
    exact .ask rfl
  case h_9 | h_10 =>
    obtain ⟨-, h⟩ := ite_none_right_eq_some.mp h
    cases h
    exact .goOn (sameHold_idle rfl)
  -- the way to the key
  case h_11 =>
    obtain ⟨hfree, h⟩ := ite_none_right_eq_some.mp h
    cases h
    exact .lock rfl hfree.2
  case h_12 =>
    obtain ⟨-, h⟩ := ite_none_right_eq_some.mp h
    cases h
    exact .check rfl rfl
  case h_13 =>
    cases h
    refine .inside rfl rfl fun ok => ?_
    cases ok
    · exact sameHold_unlocking rfl false
    · exact sameHold_inside rfl rfl rfl (.inr rfl)
  case h_14 op e =>
    obtain ⟨-, h⟩ := ite_none_right_eq_some.mp h
    cases h
    cases (s.entries e).cachedMeta
    · exact .goOn (sameHold_inside rfl rfl rfl (.inr rfl))
    · exact .goOn (sameHold_inside rfl rfl rfl (.inr rfl))
  case h_15 =>
    cases h
    split
    · exact .goOn (sameHold_inside rfl rfl rfl (.inr rfl))
    · exact .goOn (sameHold_unlocking rfl _)
  case h_16 =>
    cases h
    exact .inside rfl rfl
      fun _ => sameHold_inside rfl rfl rfl (.inr rfl)
  -- a write joins the buffer, or publishes a full one
  case h_17 =>
    cases h
    exact .inside rfl rfl fun _ => sameHold_unlocking rfl false
  case h_18 =>
    obtain ⟨-, h⟩ := ite_none_left_eq_some.mp h
    cases h
    refine .inside rfl rfl fun ok => ?_
    cases ok
    · exact sameHold_unlocking rfl true
    · exact sameHold_inside rfl rfl rfl (.inr rfl)
  -- a write is committed at once
  case h_19 =>
    cases h
    split
    · exact .goOn (sameHold_inside rfl rfl rfl (.inl rfl))
    · exact .goOn (sameHold_inside rfl rfl rfl (.inl rfl))
  case h_20 =>
    cases h
    refine .inside rfl rfl fun ok => ?_
    cases ok
    · exact sameHold_unlocking rfl true
    · exact sameHold_inside rfl rfl rfl (.inl rfl)
  case h_21 =>
    cases h
    exact .goOn (sameHold_inside rfl rfl rfl (.inl rfl))
  case h_22 =>
    cases h
    refine .inside rfl rfl fun ok => ?_
    split
    · exact sameHold_inside rfl rfl rfl (.inl rfl)
    split
    · exact sameHold_inside rfl rfl rfl (.inl rfl)
    · exact sameHold_unlocking rfl true
  case h_23 =>
    cases h
    exact .inside rfl rfl fun _ => sameHold_unlocking rfl false
  -- the flushes
  case h_24 =>
    cases h
    exact .flushOwed rfl
  case h_25 =>
    cases h
    refine .inside rfl rfl fun ok => ?_
    cases ok
    · exact sameHold_unlocking rfl true
    · exact sameHold_inside rfl rfl rfl (.inr rfl)
  case h_26 =>
    cases h
    exact .flush rfl
  case h_27 =>
    cases h
    split
    · exact .goOn (sameHold_unlocking rfl _)
    · exact .drop rfl
  case h_28 =>
    cases h
    exact .seed rfl rfl
  case h_29 | h_30 =>
    obtain ⟨-, h⟩ := ite_none_right_eq_some.mp h
    cases h
    exact .goOn (sameHold_unlocking rfl _)
  case h_31 =>
    cases h
    exact .unlock rfl
  case h_32 =>
    cases h
    exact .goOn (sameHold_idle rfl)
  case h_33 => cases h

end

/-! ## Threads at work -/

def arrive (t : Nat) (a : ThreadAct) : List TableAct := [.thread t a, .enter t]

def takeKey (t : Nat) (h : Holder) : List TableAct :=
  [.thread t .lock, .thread t .check, .thread t (.ensure true (some h))]

def planWrite (t id : Nat) (h : Holder) : List TableAct :=
  arrive t (.write id) ++ takeKey t h ++ [.thread t .readMeta, .thread t .fetch, .thread t .file]

def joinBuffer (t : Nat) : List TableAct := [.thread t (.buffer none), .thread t .unlock]

end EtcFS.Ipc
