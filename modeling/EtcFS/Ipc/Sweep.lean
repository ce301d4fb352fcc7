import EtcFS.Ipc.Delegate
import EtcFS.Ipc.FlushBatch

/-!
# A sweep when etcd answers

Flushes of one inode and of several, where every transaction and every read is answered.
-/

namespace EtcFS.Ipc

open EtcFS.Core Metadata Arena List Function

structure CacheEntry where
  mode : LockMode
  holder : Option Holder
  pending : Pending
  cached : Option InodeMeta
  freed : List Nat

namespace CacheEntry

def discardPending (e : CacheEntry) : CacheEntry :=
  { e with
    pending := .none
    cached := none
    freed := e.freed ++ e.pending.freed ++ e.pending.runs.flatMap Run.blocks }

def forget (e : CacheEntry) : CacheEntry := { e with holder := none, cached := none }

def keyLost (e : CacheEntry) : CacheEntry :=
  if e.pending.isEmpty then e.forget else e.forget.discardPending

def flushCommitted (e : CacheEntry) (refresh : Extent → Extent) : CacheEntry :=
  { e with
    cached := e.cached.map fun m => { m with extents := m.extents.map refresh }
    pending := .none
    freed := e.freed ++ e.pending.freed }

def setData (e : CacheEntry) (data : List BufferedRun) : CacheEntry :=
  { e with pending := { e.pending with data := data } }

/-- `stored` is whether the device takes what it is given. -/
def proposeFlush (ino : Nat) (stored : Bool) (e : CacheEntry) :
    FlushProposal × CacheEntry :=
  match e.holder with
  | none => (.discarded, e.discardPending)
  | some holder =>
    if e.pending.data.isEmpty || stored then
      (.ready holder (e.pending.flushTxn ino e.mode holder), e.setData [])
    else (.unstored, e.setData (e.pending.data.insertionSort fun a b => a.diskOff ≤ b.diskOff))

def flushRejected (ino : Nat) (holder : Holder) (s : Etcd) (e : CacheEntry) : CacheEntry :=
  if e.pending.alreadyLanded (getExtents s ino) then
    e.flushCommitted (adoptRevision (getExtents s ino))
  else if s.get (.lock ino e.mode holder) = none then e.keyLost
  else e

end CacheEntry

def commitAnswered (n : Node) (t : List (Cmp Val) × List (Op Val)) (s : Etcd) :
    CommitResult × Etcd :=
  commitGuarded n t.1 t.2 [.answered] true s

def flushLocked (n : Node) (ino : Nat) (stored : Bool) (s : Etcd) (e : CacheEntry) :
    Etcd × CacheEntry :=
  if e.pending.isEmpty then (s, e)
  else
    match e.proposeFlush ino stored with
    | (.discarded, e) | (.unstored, e) => (s, e)
    | (.ready holder t, e) =>
      match commitAnswered n t s with
      | (.committed, s) => (s, e.flushCommitted (FileState.refresh t.2 ino s.revision))
      | (.fenced, s) => (s, e.discardPending)
      | (.rejected, s) => (s, e.flushRejected ino holder s)
      | (.failed, s) => (s, e)

section

variable {n : Node} {i : Nat} {s : Etcd} {e : CacheEntry} {stored : Bool} {holder : Holder}

theorem commitAnswered_eq (n : Node) (x : List (Cmp Val) × List (Op Val)) (s : Etcd) :
    commitAnswered n x s = match s.txn (n.guard :: x.1) x.2 with
      | some t => (.committed, t)
      | none => (if n.fenced s then .fenced else .rejected, s) := by
  have hone : [Reply.answered].take etcdAttempts = [.answered] := rfl
  rw [commitAnswered, commitGuarded, hone, Store.submit]
  cases s.txn (n.guard :: x.1) x.2 <;> rfl

/-- An entry that has something to publish, a token to publish it under and its payload on
the device. -/
structure Flushable (e : CacheEntry) (stored : Bool) (holder : Holder) : Prop where
  buffered : e.pending.isEmpty = false
  held : e.holder = some holder
  payload : (e.pending.data.isEmpty || stored) = true

theorem Flushable.setData (h : Flushable e stored holder) :
    Flushable (e.setData []) stored holder :=
  ⟨h.buffered, h.held, rfl⟩

theorem Flushable.propose (h : Flushable e stored holder) : e.proposeFlush i stored =
    (.ready holder (e.pending.flushTxn i e.mode holder), e.setData []) := by
  rw [CacheEntry.proposeFlush, h.held]
  exact if_pos h.payload

theorem Flushable.flushLocked (h : Flushable e stored holder) (n : Node) (i : Nat) (s : Etcd) :
    flushLocked n i stored s e =
      match s.txn (n.guard :: (e.pending.flushTxn i e.mode holder).1) e.pending.ops with
      | some t =>
        (t, (e.setData []).flushCommitted (FileState.refresh e.pending.ops i t.revision))
      | none =>
        (s, if n.fenced s then (e.setData []).discardPending
          else (e.setData []).flushRejected i holder s) := by
  rw [Ipc.flushLocked, if_neg (by rw [h.buffered]; exact Bool.false_ne_true), h.propose]
  simp only [commitAnswered_eq]
  change (match (match s.txn (n.guard :: (e.pending.flushTxn i e.mode holder).1) e.pending.ops with
    | some t => (CommitResult.committed, t)
    | none => (if n.fenced s then .fenced else .rejected, s)) with
    | (.committed, s) => _
    | (.fenced, s) => _
    | (.rejected, s) => _
    | (.failed, s) => _) = _
  cases s.txn (n.guard :: (e.pending.flushTxn i e.mode holder).1) e.pending.ops with
  | some t => rfl
  | none => cases n.fenced s <;> rfl

/-- A flush that finds the payload on the device goes on as the one that put it there. -/
theorem Flushable.flushLocked_setData (h : Flushable e stored holder) :
    Ipc.flushLocked n i stored s (e.setData []) = Ipc.flushLocked n i stored s e := by
  rw [h.flushLocked, h.setData.flushLocked]
  rfl

/-- What a flush that does not get to etcd leaves of its entry. -/
inductive Unsent (e : CacheEntry) (stored : Bool) : CacheEntry → Prop
  | idle (hempty : e.pending.isEmpty = true) : Unsent e stored e
  | unkeyed (hbuffered : e.pending.isEmpty = false) (hheld : e.holder = none) :
    Unsent e stored e.discardPending
  | unstored {holder : Holder} (hbuffered : e.pending.isEmpty = false)
    (hheld : e.holder = some holder) (hdata : (e.pending.data.isEmpty || stored) = false) :
    Unsent e stored (e.setData (e.pending.data.insertionSort fun a b => a.diskOff ≤ b.diskOff))

theorem flushable_or (e : CacheEntry) (stored : Bool) :
    (∃ holder, Flushable e stored holder) ∨ ∃ e', Unsent e stored e' := by
  cases hempty : e.pending.isEmpty with
  | true => exact .inr ⟨_, .idle hempty⟩
  | false =>
    cases hheld : e.holder with
    | none => exact .inr ⟨_, .unkeyed hempty hheld⟩
    | some holder =>
      cases hdata : e.pending.data.isEmpty || stored with
      | true => exact .inl ⟨holder, hempty, hheld, hdata⟩
      | false => exact .inr ⟨_, .unstored hempty hheld hdata⟩

theorem Unsent.propose {e' : CacheEntry} (h : Unsent e stored e') (i : Nat) :
    e.pending.isEmpty = true ∧ e' = e ∨ e.pending.isEmpty = false ∧
      (e.proposeFlush i stored = (.discarded, e') ∨ e.proposeFlush i stored = (.unstored, e')) := by
  cases h with
  | idle hempty => exact .inl ⟨hempty, rfl⟩
  | unkeyed hbuffered hheld => exact .inr ⟨hbuffered, .inl (by rw [CacheEntry.proposeFlush, hheld])⟩
  | unstored hbuffered hheld hdata =>
    refine .inr ⟨hbuffered, .inr ?_⟩
    rw [CacheEntry.proposeFlush, hheld]
    exact if_neg (Bool.eq_false_iff.mp hdata)

theorem Unsent.flushLocked {e' : CacheEntry} (h : Unsent e stored e') (n : Node) (i : Nat)
    (s : Etcd) : Ipc.flushLocked n i stored s e = (s, e') := by
  rw [Ipc.flushLocked]
  rcases h.propose i with ⟨hempty, rfl⟩ | ⟨hbuffered, hpropose | hpropose⟩
  · exact if_pos hempty
  · rw [if_neg (Bool.eq_false_iff.mp hbuffered), hpropose]
  · rw [if_neg (Bool.eq_false_iff.mp hbuffered), hpropose]

end

structure SweepState where
  etcd : Etcd
  entry : Nat → CacheEntry

namespace SweepState

def setEntry (st : SweepState) (ino : Nat) (e : CacheEntry) : SweepState :=
  { st with entry := Function.update st.entry ino e }

def flushAlone (n : Node) (stored : Nat → Bool) (st : SweepState) (ino : Nat) : SweepState :=
  let r := flushLocked n ino (stored ino) st.etcd (st.entry ino)
  { st with etcd := r.1 }.setEntry ino r.2

def mapEntries (st : SweepState) (inos : List Nat) (f : Nat → CacheEntry → CacheEntry) :
    SweepState :=
  inos.foldl (fun st ino => st.setEntry ino (f ino (st.entry ino))) st

theorem mapEntries_spec (st : SweepState) {inos : List Nat} (hnodup : inos.Nodup)
    (f : Nat → CacheEntry → CacheEntry) :
    (st.mapEntries inos f).etcd = st.etcd ∧
      (∀ i ∈ inos, (st.mapEntries inos f).entry i = f i (st.entry i)) ∧
      ∀ i, i ∉ inos → (st.mapEntries inos f).entry i = st.entry i := by
  unfold mapEntries
  induction inos generalizing st with
  | nil => exact ⟨rfl, fun i hi => (nomatch hi), fun i _ => rfl⟩
  | cons j inos ih =>
    obtain ⟨hj, hnodup⟩ := nodup_cons.mp hnodup
    obtain ⟨hetcd, hin, hout⟩ := ih (st.setEntry j (f j (st.entry j))) hnodup
    refine ⟨hetcd, fun i hi => ?_, fun i hi => ?_⟩
    · rcases mem_cons.mp hi with rfl | hi
      · exact (hout i hj).trans (update_self ..)
      · have hne : i ≠ j := fun heq => hj (heq ▸ hi)
        exact (hin i hi).trans (congrArg (f i) (update_of_ne hne ..))
    · rw [mem_cons, not_or] at hi
      exact (hout i hi.2).trans (update_of_ne hi.1 ..)

def commitFlushBatch (n : Node) (stored : Nat → Bool) (st : SweepState) (b : FlushBatch) :
    SweepState :=
  if b.entries.isEmpty then st
  else
    let inos := b.entries.map FlushEntry.ino
    match commitAnswered n (b.cmps, b.ops) st.etcd with
    | (.committed, s) => { st with etcd := s }.mapEntries inos fun ino e =>
        e.flushCommitted (FileState.refresh b.ops ino s.revision)
    | (.fenced, s) => { st with etcd := s }.mapEntries inos fun _ e => e.discardPending
    | (.rejected, s) => inos.foldl (flushAlone n stored) { st with etcd := s }
    | (.failed, s) => { st with etcd := s }

/-- An entry as the listing of a sweep's transactions has it. -/
def member (stored : Nat → Bool) (st : SweepState) (ino : Nat) : FlushEntry :=
  ⟨ino, (st.entry ino).mode, (st.entry ino).holder, (st.entry ino).pending,
    (st.entry ino).pending.data.isEmpty || stored ino⟩

def flushEntries (n : Node) (stored : Nat → Bool) : List Nat → FlushBatch → SweepState → SweepState
  | [], b, st => st.commitFlushBatch n stored b
  | ino :: inos, b, st =>
    if (st.entry ino).pending.isEmpty then flushEntries n stored inos b st
    else
      match (st.entry ino).proposeFlush ino (stored ino) with
      | (.discarded, e) | (.unstored, e) => flushEntries n stored inos b (st.setEntry ino e)
      | (.ready _ t, e) =>
        let member := st.member stored ino
        let st := st.setEntry ino e
        if b.fits t then flushEntries n stored inos (b.add member t) st
        else flushEntries n stored inos (FlushBatch.none.add member t)
          (st.commitFlushBatch n stored b)

section

variable {n : Node} {stored : Nat → Bool} {st : SweepState} {ino : Nat}

theorem flushEntries_ready {holder : Holder} (h : Flushable (st.entry ino) (stored ino) holder)
    (inos : List Nat) (b : FlushBatch) :
    st.flushEntries n stored (ino :: inos) b =
      let t := (st.entry ino).pending.flushTxn ino (st.entry ino).mode holder
      let st' := st.setEntry ino ((st.entry ino).setData [])
      if b.fits t then st'.flushEntries n stored inos (b.add (st.member stored ino) t)
      else (st'.commitFlushBatch n stored b).flushEntries n stored inos
        (FlushBatch.none.add (st.member stored ino) t) := by
  rw [flushEntries, if_neg (Bool.eq_false_iff.mp h.buffered), h.propose]

theorem flushEntries_unsent {e : CacheEntry} (h : Unsent (st.entry ino) (stored ino) e)
    (inos : List Nat) (b : FlushBatch) : st.flushEntries n stored (ino :: inos) b =
      (st.setEntry ino e).flushEntries n stored inos b := by
  rw [flushEntries]
  rcases h.propose ino with ⟨hempty, rfl⟩ | ⟨hbuffered, hpropose | hpropose⟩
  · rw [if_pos hempty, setEntry, update_eq_self]
  · rw [if_neg (Bool.eq_false_iff.mp hbuffered), hpropose]
  · rw [if_neg (Bool.eq_false_iff.mp hbuffered), hpropose]

end

end SweepState

end EtcFS.Ipc
