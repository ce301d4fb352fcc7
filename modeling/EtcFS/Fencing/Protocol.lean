import EtcFS.Arena.Pool

/-!
# Fencing one node

The control keys of a node, its daemon, and the fence attempts of any number of controllers, one
call on etcd at a time.
-/

namespace EtcFS.Fencing

open EtcFS.Core Metadata Arena Option

/-- The control keys of one node in etcd. -/
structure NodeKeys where
  /-- `membership:<node>`, with the process that wrote it. -/
  member : Option Nat
  /-- `gen:<node>`. -/
  gen : Option Nat
  /-- `fence_pending:<node>`, with its create revision. -/
  intent : Option Nat
  /-- `fence_done:<node>`. -/
  done : Option Nat
  /-- `fence_claim:<node>`, with the attempt whose lease it is under. -/
  claim : Option Nat
  /-- `departed:<node>`. -/
  departed : Bool
  deriving DecidableEq, Repr

/-- What has happened since the membership key was last deleted. -/
structure Departure where
  /-- How many times the key has been deleted. -/
  count : Nat
  /-- The deletion came with the departure marker. -/
  announced : Bool
  bumps : Nat
  /-- The fences that won their claim in this departure and ran to their end. -/
  completed : Nat
  deriving DecidableEq, Repr

/-- What the fence is about to do when it compares the incarnation. -/
inductive FenceCheck where
  | severing
  | bumping
  | releasing
  deriving DecidableEq, Repr

/-- The next call of a fence attempt. -/
inductive FenceStage where
  | idle
  -- `reconcile`
  | listIntents
  | listKnown
  | listFenced
  | readMembership
  | dropIntent
  | dropMark
  -- `departedCleanly` and `RecordFenceIntent`, on both paths
  | hasDeparted
  | ownsArenas
  | recordIntent
  -- `fenceNode`
  | claim
  | recheck
  | capture
  | check (step : FenceCheck)
  | sever
  | getGeneration
  | bump
  | bumpMissing
  | listArenas
  | release (a : ArenaID) (rest : List ArenaID)
  | mark
  | clear
  | unclaim
  deriving DecidableEq, Repr

/-- One attempt to fence the node, by the watch or by a sweep, with what it has read so far. -/
structure FenceRun where
  stage : FenceStage
  fromSweep : Bool
  /-- The sweep's snapshots of the intent and of the mark. -/
  owed : Bool
  fenced : Bool
  /-- The create revision of the intent when the fence began. -/
  intent : Option Nat
  /-- The generation read before the bump. -/
  gen : Nat
  /-- The departure in which the claim was won. -/
  departure : Nat
  deriving DecidableEq, Repr

/-- No attempt is under way. -/
def FenceRun.init : FenceRun := ⟨.idle, false, false, false, none, 0, 0⟩

namespace FenceRun

/-- What the next call writes, if it is a write and its comparison holds. -/
def write (run : FenceRun) (r revision : Nat) (k : NodeKeys) : Option NodeKeys :=
  match run.stage with
  | .recordIntent => some { k with intent := some (k.intent.getD revision) }
  | .dropIntent | .clear => some { k with intent := none }
  | .dropMark => some { k with done := none }
  | .claim => if k.claim = none then some { k with claim := some r } else none
  | .bump => if k.gen = some run.gen then some { k with gen := some (run.gen + 1) } else none
  | .bumpMissing => if k.gen = none then some { k with gen := some (run.gen + 1) } else none
  | .mark => some { k with done := some (run.gen + 1) }
  | .unclaim => if k.claim = some r then some { k with claim := none } else none
  | .idle | .listIntents | .listKnown | .listFenced | .readMembership | .hasDeparted
  | .ownsArenas | .recheck | .capture | .check _ | .sever | .getGeneration | .listArenas
  | .release _ _ => none

/-- The node has not come back: the captured intent stands, or there was none and no membership. -/
def sameIncarnation (run : FenceRun) (k : NodeKeys) (told : Bool) : Bool :=
  match run.intent with
  | none => !told || k.member.isNone
  | some revision => told && k.intent = some revision

/-- The arenas are given back one after another. -/
def releases : List ArenaID → FenceStage
  | [] => .mark
  | a :: rest => .release a rest

/-- Only a controller that can sever the device gives arenas back. -/
def afterBump (fencer : Bool) : FenceStage := if fencer then .check .releasing else .mark

/-- Where the attempt goes on, by what its call tells it. -/
def stageAfter (run : FenceRun) (fencer : Bool) (k : NodeKeys) (owned : List ArenaID)
    (told : Bool) : FenceStage :=
  match run.stage with
  | .idle => .idle
  | .listIntents => if told then .listKnown else .idle
  | .listKnown => if told && (run.owed || k.gen.isSome) then .listFenced else .idle
  | .listFenced => if told then .readMembership else .idle
  | .readMembership =>
    if !told then .idle
    else if k.member.isSome then
      if run.owed then .dropIntent else if run.fenced then .dropMark else .idle
    else if run.fenced && !run.owed then .idle
    else if run.owed then .claim
    else .hasDeparted
  | .dropIntent => if run.fenced then .dropMark else .idle
  | .dropMark => .idle
  | .hasDeparted => if told && k.departed then .ownsArenas else .recordIntent
  | .ownsArenas => if told && owned.isEmpty then .idle else .recordIntent
  -- the watch goes on to the fence even without a recorded intent
  | .recordIntent => if told || !run.fromSweep then .claim else .idle
  | .claim =>
    if !told then .unclaim
    else if k.claim ≠ none then .idle
    else if run.fromSweep then .recheck
    else .capture
  | .recheck => if told && k.intent.isSome then .capture else .unclaim
  | .capture => if told then .check .severing else .unclaim
  | .check .severing =>
    if !run.sameIncarnation k told then .unclaim
    else if fencer then .sever
    else .check .bumping
  | .check .bumping => if run.sameIncarnation k told then .getGeneration else .unclaim
  | .check .releasing => if run.sameIncarnation k told then .listArenas else .mark
  | .sever => if told then .check .bumping else .unclaim
  | .getGeneration => if told then .bump else .unclaim
  | .bump =>
    if !told then .unclaim
    else if k.gen = some run.gen then afterBump fencer
    else if run.gen = 0 then .bumpMissing
    else .unclaim
  | .bumpMissing =>
    if !told then .unclaim else if k.gen = none then afterBump fencer else .unclaim
  | .listArenas => if told then releases owned else .mark
  | .release _ rest => if told then releases rest else .mark
  | .mark => .clear
  | .clear => .unclaim
  | .unclaim => .idle

/-- The attempt after its call. -/
def next (run : FenceRun) (fencer : Bool) (k : NodeKeys) (owned : List ArenaID)
    (departure : Nat) (told : Bool) : FenceRun :=
  { run with
    stage := run.stageAfter fencer k owned told
    owed := if run.stage = .listIntents then k.intent.isSome else run.owed
    fenced := if run.stage = .listFenced then k.done.isSome else run.fenced
    intent := if run.stage = .capture then k.intent else run.intent
    gen := if run.stage = .getGeneration then k.gen.getD 0 else run.gen
    departure := if run.stage = .claim then departure else run.departure }

/-- The call moves the generation. -/
def bumps (run : FenceRun) (k : NodeKeys) : Bool :=
  match run.stage with
  | .bump => k.gen = some run.gen
  | .bumpMissing => k.gen = none
  | _ => false

/-- The generation has been moved, and the mark is not written yet. -/
def pastBump (run : FenceRun) : Bool :=
  match run.stage with
  | .check .releasing | .listArenas | .release _ _ | .mark => true
  | _ => false

end FenceRun

/-- How far the daemon has come up. -/
inductive DaemonStage where
  | down
  /-- The device is open and the generation is to be ensured. -/
  | opened
  | ensuring
  /-- The generation is cached and the arenas are to be adopted. -/
  | initialised
  | serving
  deriving DecidableEq, Repr

/-- The next call of `grantAndRegister`. -/
inductive Beat where
  | off
  | put
  | dropIntent
  | dropMark
  | dropDeparted
  | beating
  deriving DecidableEq, Repr

/-- The daemon of the node, or what its last process left. -/
structure Daemon where
  /-- How many processes have been started. -/
  process : Nat
  stage : DaemonStage
  startGen : Nat
  beat : Beat
  /-- This process has registered with the shared device. -/
  attached : Bool
  /-- The device takes the node's writes. -/
  access : Bool
  deriving DecidableEq, Repr

/-- A node, and the attempts to fence it. -/
structure NodeState where
  keys : NodeKeys
  daemon : Daemon
  runs : Nat → FenceRun
  since : Departure

/-- A node that was never started. -/
def NodeState.init : NodeState where
  keys := ⟨none, none, none, none, none, false⟩
  daemon := ⟨0, .down, 0, .off, false, false⟩
  runs _ := .init
  since := ⟨0, false, 0, 0⟩

/-- One step of the daemon, of a lease or of a controller. -/
inductive NodeAct where
  /-- The daemon starts and opens the device. -/
  | start
  /-- `EnsureGenerationKey`, its transaction. -/
  | ensure (reply : Reply)
  /-- `EnsureGenerationKey`, its read. -/
  | readGeneration (reply : Reply)
  /-- `Reconstruct`, and the membership loop starts. -/
  | adopt (reply : Reply)
  /-- The node registers its key with the device. -/
  | attach
  /-- The next call of `grantAndRegister`. -/
  | beat (reply : Reply)
  /-- The keepalive stream closes, and the loop registers again. -/
  | rejoin
  | crash
  /-- The membership lease expires or is revoked. -/
  | expire
  /-- `MarkDeparted`. -/
  | announce (reply : Reply)
  /-- A controller receives the deletion of the membership key. -/
  | notice (r : Nat)
  /-- A sweep comes to the node. -/
  | sweep (r : Nat)
  /-- The next call of an attempt. -/
  | fence (r : Nat) (reply : Reply)
  /-- The controller of an attempt dies. -/
  | loseController (r : Nat)
  /-- The lease of the claim expires. -/
  | expireClaim
  deriving DecidableEq

namespace NodeState

/-- The keys after a call of attempt `r`. -/
def fenceKeys (x : NodeState) (revision r : Nat) (reply : Reply) : NodeKeys :=
  (reply.deliver ((x.runs r).write r revision x.keys) x.keys).2

/-- The account of the departure after a call of attempt `r`. -/
def fenceSince (x : NodeState) (r : Nat) (reply : Reply) : Departure :=
  let run := x.runs r
  { x.since with
    bumps :=
      if run.bumps x.keys ∧ reply ≠ .unsent then x.since.bumps + 1 else x.since.bumps
    completed :=
      if run.stage = .clear ∧ run.departure = x.since.count then x.since.completed + 1
      else x.since.completed }

/-- The next call of attempt `r`. -/
def fence (x : NodeState) (fencer : Bool) (revision : Nat) (owned : List ArenaID) (r : Nat)
    (reply : Reply) : NodeState where
  keys := x.fenceKeys revision r reply
  daemon := if (x.runs r).stage = .sever ∧ reply ≠ .unsent then
    { x.daemon with access := false } else x.daemon
  runs := Function.update x.runs r
    ((x.runs r).next fencer x.keys owned x.since.count (reply = .answered))
  since := x.fenceSince r reply

/-- The membership key is deleted, by its lease or by the node itself. -/
def depart (x : NodeState) (announced : Bool) : NodeState :=
  { x with
    keys := { x.keys with member := none, departed := announced || x.keys.departed }
    since := ⟨x.since.count + 1, announced, 0, 0⟩ }

/-- The next call of `grantAndRegister`. -/
def register (x : NodeState) (reply : Reply) : NodeState :=
  let applied := reply ≠ .unsent
  match x.daemon.beat with
  | .put =>
    { x with
      keys := if applied then { x.keys with member := some x.daemon.process } else x.keys
      daemon := { x.daemon with beat := if reply = .answered then .dropIntent else .off } }
  | .dropIntent =>
    { x with
      keys := if applied then { x.keys with intent := none } else x.keys
      daemon := { x.daemon with beat := .dropMark } }
  | .dropMark =>
    { x with
      keys := if applied then { x.keys with done := none } else x.keys
      daemon := { x.daemon with beat := .dropDeparted } }
  | .dropDeparted =>
    { x with
      keys := if applied then { x.keys with departed := false } else x.keys
      daemon := { x.daemon with beat := .beating } }
  | .off | .beating => x

/-- The transaction of `EnsureGenerationKey`, which creates the key if there is none. -/
def ensure (x : NodeState) (reply : Reply) : NodeState :=
  match reply.deliver
    (if x.keys.gen = none then some { x.keys with gen := some 0 } else none) x.keys with
  | (.committed, keys) =>
    { x with keys := keys, daemon := { x.daemon with stage := .initialised, startGen := 0 } }
  | (.rejected, keys) => { x with keys := keys, daemon := { x.daemon with stage := .ensuring } }
  | (.failed, keys) => { x with keys := keys, daemon := { x.daemon with stage := .down } }

/-- Attempt `r` begins. -/
def begin (x : NodeState) (r : Nat) (fromSweep : Bool) (stage : FenceStage) : NodeState :=
  { x with runs := Function.update x.runs r { FenceRun.init with fromSweep, stage } }

def step (x : NodeState) (fencer : Bool) (revision : Nat) (owned : List ArenaID) :
    NodeAct → Option NodeState
  | .start =>
    if x.daemon.stage = .down then
      some { x with
        daemon := { x.daemon with
          process := x.daemon.process + 1, stage := .opened, beat := .off, attached := false } }
    else none
  | .ensure reply => if x.daemon.stage = .opened then some (x.ensure reply) else none
  | .readGeneration reply =>
    if x.daemon.stage = .ensuring then
      some { x with
        daemon := if reply = .answered then
          { x.daemon with stage := .initialised, startGen := x.keys.gen.getD 0 }
        else { x.daemon with stage := .down } }
    else none
  | .adopt _ =>
    if x.daemon.stage = .initialised then
      some { x with daemon := { x.daemon with stage := .serving, beat := .put } }
    else none
  | .attach =>
    if x.daemon.stage ≠ .down ∧ x.daemon.attached = false then
      some { x with daemon := { x.daemon with attached := true, access := true } }
    else none
  | .beat reply =>
    if x.daemon.beat ≠ .off ∧ x.daemon.beat ≠ .beating then some (x.register reply) else none
  | .rejoin =>
    if x.daemon.beat = .beating then some { x with daemon := { x.daemon with beat := .put } }
    else none
  | .crash =>
    if x.daemon.stage ≠ .down then
      some { x with daemon := { x.daemon with stage := .down, beat := .off } }
    else none
  | .expire => if x.keys.member ≠ none then some (x.depart false) else none
  | .announce reply =>
    if x.daemon.stage = .serving then
      if x.keys.member ≠ none ∧ reply ≠ .unsent then some (x.depart true) else some x
    else none
  | .notice r =>
    if (x.runs r).stage = .idle ∧ 0 < x.since.count then some (x.begin r false .hasDeparted)
    else none
  | .sweep r => if (x.runs r).stage = .idle then some (x.begin r true .listIntents) else none
  | .fence r reply =>
    if (x.runs r).stage ≠ .idle then some (x.fence fencer revision owned r reply) else none
  | .loseController r =>
    some { x with runs := Function.update x.runs r { x.runs r with stage := .idle } }
  | .expireClaim => some { x with keys := { x.keys with claim := none } }

end NodeState

inductive FenceRun.Writes (run : FenceRun) (r : Nat) (k : NodeKeys) : NodeKeys → Prop where
  | intent (i : Option Nat) (h : run.stage = .recordIntent ∨ run.stage = .dropIntent ∨
      run.stage = .clear) : Writes run r k { k with intent := i }
  | dropMark (h : run.stage = .dropMark) : Writes run r k { k with done := none }
  | mark (h : run.stage = .mark) : Writes run r k { k with done := some (run.gen + 1) }
  | claim (h : run.stage = .claim) (hfree : k.claim = none) :
      Writes run r k { k with claim := some r }
  | unclaim (h : run.stage = .unclaim) (hheld : k.claim = some r) :
      Writes run r k { k with claim := none }
  | bump (h : run.bumps k = true) : Writes run r k { k with gen := some (run.gen + 1) }

theorem FenceRun.writes_of_write {run : FenceRun} {r revision : Nat} {k k' : NodeKeys}
    (h : run.write r revision k = some k') : run.Writes r k k' := by
  unfold FenceRun.write at h
  cases hstage : run.stage with
  | recordIntent | dropIntent | clear =>
    rw [hstage] at h
    cases h
    exact .intent _ (by simp [hstage])
  | dropMark =>
    rw [hstage] at h
    cases h
    exact .dropMark hstage
  | mark =>
    rw [hstage] at h
    cases h
    exact .mark hstage
  | claim =>
    rw [hstage] at h
    obtain ⟨hfree, rfl⟩ := ite_some_none_eq_some.mp h
    exact .claim hstage hfree
  | unclaim =>
    rw [hstage] at h
    obtain ⟨hheld, rfl⟩ := ite_some_none_eq_some.mp h
    exact .unclaim hstage hheld
  | bump | bumpMissing =>
    rw [hstage] at h
    obtain ⟨hgen, rfl⟩ := ite_some_none_eq_some.mp h
    exact .bump (by simp [FenceRun.bumps, hstage, hgen])
  | _ =>
    rw [hstage] at h
    cases h

theorem NodeState.fenceKeys_cases (x : NodeState) (revision r : Nat) (reply : Reply) :
    x.fenceKeys revision r reply = x.keys ∨
      reply ≠ .unsent ∧ (x.runs r).Writes r x.keys (x.fenceKeys revision r reply) := by
  rcases reply.deliver_cases ((x.runs r).write r revision x.keys) x.keys with
    ⟨hsame, -⟩ | ⟨k, hk, heq, hreply⟩
  · exact .inl hsame
  · right
    rw [NodeState.fenceKeys, heq]
    refine ⟨?_, FenceRun.writes_of_write hk⟩
    rintro rfl
    simp at hreply

/-- A fence writes neither the membership nor the departure key. -/
theorem NodeState.fenceKeys_frame (x : NodeState) (revision r : Nat) (reply : Reply) :
    (x.fenceKeys revision r reply).member = x.keys.member ∧
      (x.fenceKeys revision r reply).departed = x.keys.departed := by
  rcases x.fenceKeys_cases revision r reply with hsame | ⟨-, hwrites⟩
  · rw [hsame]
    exact ⟨rfl, rfl⟩
  · generalize x.fenceKeys revision r reply = k at hwrites
    cases hwrites <;> exact ⟨rfl, rfl⟩

theorem NodeState.register_frame (x : NodeState) (reply : Reply) :
    (x.register reply).since = x.since ∧ (x.register reply).runs = x.runs ∧
      (x.register reply).keys.claim = x.keys.claim ∧
      (x.register reply).keys.gen = x.keys.gen ∧
      ((x.register reply).keys.member = none → x.keys.member = none) ∧
      (x.keys.done = none → (x.register reply).keys.done = none) ∧
      (x.keys.departed = false → (x.register reply).keys.departed = false) := by
  cases hbeat : x.daemon.beat <;> by_cases happlied : reply = .unsent <;>
    simp +contextual [NodeState.register, hbeat, happlied]

theorem NodeState.fenceKeys_of_bumps {x : NodeState} {revision r : Nat} {reply : Reply}
    (hb : (x.runs r).bumps x.keys = true) (hreply : reply ≠ .unsent) :
    x.fenceKeys revision r reply = { x.keys with gen := some ((x.runs r).gen + 1) } := by
  have hwrite : (x.runs r).write r revision x.keys =
      some { x.keys with gen := some ((x.runs r).gen + 1) } := by
    unfold FenceRun.bumps at hb
    split at hb
    case h_1 hstage =>
      simp only [FenceRun.write, hstage, if_pos (of_decide_eq_true hb)]
    case h_2 hstage =>
      simp only [FenceRun.write, hstage, if_pos (of_decide_eq_true hb)]
    case h_3 => cases hb
  rw [NodeState.fenceKeys, hwrite]
  cases reply with
  | unsent => exact absurd rfl hreply
  | lost | answered => rfl

theorem NodeState.ensure_eq (x : NodeState) (reply : Reply) :
    ∃ g d, x.ensure reply = { x with keys := { x.keys with gen := g }, daemon := d } ∧
      d.process = x.daemon.process ∧ d.beat = x.daemon.beat := by
  cases reply <;> cases hg : x.keys.gen <;>
    simp only [NodeState.ensure, Reply.deliver, hg, if_true, reduceCtorEq, if_false]
  case lost.none => exact ⟨some 0, _, rfl, rfl, rfl⟩
  case answered.none => exact ⟨some 0, _, rfl, rfl, rfl⟩
  all_goals exact ⟨x.keys.gen, _, rfl, rfl, rfl⟩

theorem NodeState.daemon_fence (x : NodeState) (fencer : Bool) (revision : Nat)
    (owned : List ArenaID) (r : Nat) (reply : Reply) :
    ∃ access, (x.fence fencer revision owned r reply).daemon =
      { x.daemon with access := access } := by
  simp only [NodeState.fence]
  split
  · exact ⟨false, rfl⟩
  · exact ⟨x.daemon.access, rfl⟩

theorem FenceRun.pastBump_next {run : FenceRun} {fencer : Bool} {k : NodeKeys}
    {owned : List ArenaID} {departure : Nat} {told : Bool}
    (h : (run.next fencer k owned departure told).pastBump = true) :
    run.pastBump = true ∨ run.bumps k = true ∧ told = true := by
  obtain ⟨stage, _⟩ := run
  cases stage with
  | check c =>
    cases c <;> simp only [pastBump, bumps, next, stageAfter] at h ⊢ <;> grind
  | _ =>
    simp only [pastBump, bumps, next, stageAfter, afterBump] at h ⊢
    grind

end EtcFS.Fencing
