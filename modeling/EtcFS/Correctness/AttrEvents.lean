import EtcFS.Ipc.Attributes
import EtcFS.Ipc.Notify

/-!
# Attribute changes made elsewhere

A node drops its kernel's cached attributes when a watched record changes, but not if it holds the
inode's lock key.
-/

namespace EtcFS.Correctness

open EtcFS.Core Metadata Ipc

structure Watcher where
  mode : Option LockMode
  /-- How many changes there were when the key was taken. -/
  since : Nat
  notify : NotifyServer
  delivered : Nat
  deriving DecidableEq, Repr

structure WatchState where
  etcd : Etcd
  /-- Who made each change, and whether under the exclusive key. -/
  changes : List (NodeID × Bool)
  nodes : NodeID → Watcher

inductive WatchStep where
  /-- `AcquireLock`. -/
  | acquire (n : NodeID) (mode : LockMode)
  /-- The key is given up. -/
  | yield (n : NodeID)
  /-- A write or truncate under the exclusive key puts the record. -/
  | publish (n : NodeID) (record : InodeRecord)
  /-- A setattr, link, unlink, rename or timestamp publication, without a lock. -/
  | change (n : NodeID) (op : RecordOp)
  /-- The kernel's side connects. -/
  | connect (n : NodeID)
  /-- The watch delivers the next change, and `inodeChanged` runs. -/
  | deliver (n : NodeID) (d : Delivery)

namespace WatchState

def Grantable (s : WatchState) (others : List NodeID) (mode : LockMode) : Prop :=
  ∀ m ∈ others, (s.nodes m).mode = none ∨
    (mode = .shared ∧ (s.nodes m).mode = some .shared)
  deriving Decidable

def update (s : WatchState) (n : NodeID) (w : Watcher) : WatchState :=
  { s with nodes := Function.update s.nodes n w }

def wrote (s : WatchState) (n : NodeID) (locked : Bool) (etcd : Etcd) : WatchState :=
  { s with etcd := etcd, changes := s.changes ++ [(n, locked)] }

def told (s : WatchState) (n : NodeID) (d : Delivery) : Option (Option SendError) × NotifyServer :=
  inodeChanged (s.nodes n).mode.isSome (s.nodes n).notify d

def next (s : WatchState) (n : NodeID) : Option (NodeID × Bool) :=
  s.changes[(s.nodes n).delivered]?

end WatchState

def attrWatch (ino : Nat) (members : List NodeID) : Machine WatchState WatchStep where
  step s
    | .acquire n mode =>
      if n ∈ members ∧ s.Grantable (members.filter (· ≠ n)) mode then
        some (s.update n { s.nodes n with mode := some mode, since := s.changes.length })
      else none
    | .yield n => some (s.update n { s.nodes n with mode := none })
    | .publish n record =>
      if (s.nodes n).mode = some .exclusive then
        some (s.wrote n true (s.etcd.commit [.put (.inode ino) record]))
      else none
    | .change n op => (op.commit ino s.etcd).map (s.wrote n false)
    | .connect n =>
      some (s.update n { s.nodes n with
        notify := { (s.nodes n).notify with connected := true } })
    | .deliver n d =>
      if (s.next n).isSome then
        some (s.update n { s.nodes n with
          notify := (s.told n d).2, delivered := (s.nodes n).delivered + 1 })
      else none

def TellsKernel (s : WatchState) (step : WatchStep) (_ : WatchState) : Prop :=
  match step with
  | .deliver n d => ∀ c ∈ s.next n, c.1 ≠ n → (s.told n d).1 = some none
  | _ => True

instance (s : WatchState) (step : WatchStep) (t : WatchState) :
    Decidable (TellsKernel s step t) := by
  cases step <;> simp only [TellsKernel] <;> infer_instance

def KeylessAtDelivery (s : WatchState) (step : WatchStep) (_ : WatchState) : Prop :=
  match step with
  | .deliver n d => ∀ c ∈ s.next n, c.1 ≠ n →
      (s.nodes n).mode = none ∧ (s.nodes n).notify.connected = true ∧ d ≠ .lost ∧ d ≠ .timedOut
  | _ => True

/-- Under a key of this node, a peer's change was made without the lock, or before the key was
taken. -/
def HidesOnlyOthers (s : WatchState) (step : WatchStep) (_ : WatchState) : Prop :=
  match step with
  | .deliver n _ => ∀ c ∈ s.next n, c.1 ≠ n → (s.nodes n).mode ≠ none →
      c.2 = false ∨ (s.nodes n).delivered < (s.nodes n).since
  | _ => True

theorem send_unacknowledged {n : NotifyServer} {d : Delivery} :
    (n.send false d).1 = none ↔ n.connected = true ∧ d ≠ .lost ∧ d ≠ .timedOut := by
  cases hc : n.connected <;> cases d <;> simp [NotifyServer.send, hc]

theorem told_iff {s : WatchState} {n : NodeID} {d : Delivery} : (s.told n d).1 = some none ↔
      (s.nodes n).mode = none ∧ (s.nodes n).notify.connected = true ∧ d ≠ .lost ∧
        d ≠ .timedOut := by
  rw [WatchState.told, inodeChanged]
  cases hm : (s.nodes n).mode with
  | some mode => simp
  | none =>
    rw [← send_unacknowledged]
    simp

structure KeysApart (members : List NodeID) (s : WatchState) : Prop where
  member : ∀ n, (s.nodes n).mode ≠ none → n ∈ members
  alone : ∀ n m, (s.nodes n).mode = some .exclusive → (s.nodes m).mode ≠ none → m = n
  since : ∀ n, (s.nodes n).mode ≠ none → ∀ k w, s.changes[k]? = some (w, true) →
    (s.nodes n).since ≤ k → w = n

theorem keysApart_step {ino : Nat} {members : List NodeID} {s t : WatchState} {step : WatchStep}
    (h : KeysApart members s) (hstep : (attrWatch ino members).step s step = some t) :
    KeysApart members t := by
  obtain ⟨hmember, halone, hsince⟩ := h
  cases step with
  | acquire n mode =>
    obtain ⟨⟨hn, hgrant⟩, rfl⟩ := Option.ite_some_none_eq_some.mp hstep
    have hother : ∀ m, m ≠ n → (s.nodes m).mode ≠ none →
        mode = .shared ∧ (s.nodes m).mode = some .shared := fun m hm hheld =>
      (hgrant m (by simp [hmember m hheld, hm])).resolve_left hheld
    constructor <;> simp only [WatchState.update, Function.update_apply] <;> grind
  | publish n record =>
    obtain ⟨hheld, rfl⟩ := Option.ite_some_none_eq_some.mp hstep
    constructor <;> simp only [WatchState.wrote, List.getElem?_append] <;> grind
  | change n op =>
    obtain ⟨etcd, -, rfl⟩ := Option.map_eq_some_iff.mp hstep
    constructor <;> simp only [WatchState.wrote, List.getElem?_append] <;> grind
  | yield n | connect n =>
    cases hstep
    constructor <;> simp only [WatchState.update, Function.update_apply] <;> grind
  | deliver n d =>
    obtain ⟨-, rfl⟩ := Option.ite_some_none_eq_some.mp hstep
    constructor <;> simp only [WatchState.update, Function.update_apply] <;> grind

/-- Whatever the nodes do, in whatever order: every change of another node that a watch
delivers is passed on to the kernel in exactly the runs in which the node holds no lock
key of the inode at each such delivery and its message gets onto the connection. What a key hides
are changes made without the lock, or before the key was taken. -/
theorem along_tellsKernel_iff (ino : Nat) (members : List NodeID) (s : WatchState)
    (steps : List WatchStep) :
    ((attrWatch ino members).Along TellsKernel s steps ↔
      (attrWatch ino members).Along KeylessAtDelivery s steps) ∧
    ((∀ n, (s.nodes n).mode = none) →
      (attrWatch ino members).Along HidesOnlyOthers s steps) := by
  constructor
  · refine Machine.along_iff (I := fun _ => True) (fun _ _ _ _ _ _ => trivial) ?_ trivial steps
    intro s step t _ _
    cases step with
    | deliver n d => exact forall₃_congr fun _ _ _ => told_iff
    | acquire | yield | publish | change | connect => exact Iff.rfl
  · intro hfree
    refine Machine.Along.of_invariant (I := KeysApart members) (C := fun _ _ _ => True) ?_
      ⟨by simp [hfree], by simp [hfree], by simp [hfree]⟩ (Machine.along_true _ _)
    intro s step t h _ hstep
    refine ⟨keysApart_step h hstep, ?_⟩
    cases step with
    | deliver n d =>
      rintro ⟨w, locked⟩ hc hne hheld
      cases locked with
      | false => exact .inl rfl
      | true => exact .inr (not_le.mp fun hle => hne (h.since n hheld _ w hc hle))
    | acquire | yield | publish | change | connect => exact True.intro

def watched : WatchState where
  etcd := Store.empty.commit
    [.put (.inode 7) ⟨7, 0, 0, 0o100644, 1, 0, 0, 0, 4096, 0, 0, 0⟩]
  changes := []
  nodes := fun _ => ⟨none, 0, ⟨true, 0, false⟩, 0⟩

def chmodPrivate : RecordOp :=
  .setattr fattrMode ⟨0, 0o600, 0, 0, 0, 0, 0⟩ 5 none

theorem along_tellsKernel_iff_watched : (attrWatch 7 ["a", "b"]).Along HidesOnlyOthers watched
    [.acquire "a" .exclusive, .change "b" chmodPrivate, .deliver "a" .done] :=
  (along_tellsKernel_iff 7 ["a", "b"] watched _).2 fun _ => rfl

/-- Node b changes the mode while node a holds the key, and node b's write is delivered to
node a once the key is node a's. Neither reaches a's kernel. -/
theorem heldKey_hides_change :
    let chmod := [WatchStep.acquire "a" .exclusive, .change "b" chmodPrivate,
      .deliver "a" .done]
    let write := [WatchStep.acquire "b" .exclusive,
      .publish "b" ⟨7, 100, 0, 0o100644, 1, 0, 0, 0, 4096, 0, 0, 0⟩, .yield "b",
      .acquire "a" .exclusive, .deliver "a" .done]
    ((attrWatch 7 ["a", "b"]).exec watched chmod).isSome = true ∧
      ¬ (attrWatch 7 ["a", "b"]).Along TellsKernel watched chmod ∧
      ((attrWatch 7 ["a", "b"]).exec watched write).isSome = true ∧
      ¬ (attrWatch 7 ["a", "b"]).Along TellsKernel watched write := by
  refine ⟨by decide +kernel, by decide +kernel, by decide +kernel, by decide +kernel⟩

end EtcFS.Correctness
