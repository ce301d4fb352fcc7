import EtcFS.Arena.Reconstruct
import EtcFS.Core.Transition
import EtcFS.Metadata.Records

/-!
# A node's records in the store

A node's arenas and orphans are found by a scan of the keys that begin with the node's id.
-/

namespace EtcFS.Arena

open EtcFS.Core Metadata List

abbrev RawStore := Store fun _ : Text => List UInt8

/-- The records whose key begins with `range`, in the order of the keys. -/
def getPrefix (range : Text) (s : RawStore) : List (Text × List UInt8) :=
  s.list fun k v => if range <+: k then some (k, v.value) else none

def adoptedArenas (node : NodeID) (s : RawStore) : List Nat :=
  existingArenaIDs ((getPrefix (arenaNodePrefix node) s).map Prod.snd)

def ownsArenas (node : NodeID) (s : RawStore) : Bool :=
  !(getPrefix (arenaNodePrefix node) s).isEmpty

def freeArenaKey (arena : Nat) : Text := "free_arena:".toList ++ decimal arena

def freeValue : List UInt8 := [102, 114, 101, 101]

def releaseOwned (node : NodeID) (arena : UInt64) (s : RawStore) : Option RawStore :=
  s.txn [.present (arenaOwnerKey node arena.toNat)]
    [.delete (arenaOwnerKey node arena.toNat), .put (freeArenaKey arena.toNat) freeValue]

def releaseNext (node : NodeID) (acc : List UInt64 × RawStore) (kv : Text × List UInt8) :
    List UInt64 × RawStore :=
  match parseArenaKey kv.1 with
  | none => acc
  | some (_, arena) =>
    match releaseOwned node arena acc.2 with
    | none => acc
    | some s => (acc.1 ++ [arena], s)

def releaseArena (node : NodeID) (limit : Nat) (s : RawStore) : List UInt64 × RawStore :=
  ((getPrefix (arenaNodePrefix node) s).take limit).foldl (releaseNext node) ([], s)

def listOrphans (node : NodeID) (s : RawStore) : List UInt64 :=
  (getPrefix (orphanPrefix node) s).filterMap fun kv =>
    parseUint ((cutPrefix (orphanPrefix node) kv.1).getD kv.1)

def reclaimOrphans (node : NodeID) (s : RawStore) : RawStore :=
  s.commit ((listOrphans node s).map fun ino => .delete (orphanKey node ino.toNat))

inductive OwnerStep where
  /-- `recordOwnership` of a node. -/
  | own (node : NodeID) (arena : UInt64)
  /-- `ReleaseArena`, by a departing node or for a fenced one. -/
  | release (node : NodeID) (limit : Nat)
  /-- An unlink on a node that holds the file open. -/
  | orphan (node : NodeID) (ino : UInt64)
  /-- `DeleteOrphan`. -/
  | deleteOrphan (node : NodeID) (ino : UInt64)
  /-- A restarting node reclaims its orphans. -/
  | reclaim (node : NodeID)
  /-- A transaction on other keys. -/
  | other (ops : List (Op fun _ : Text => List UInt8))

def Elsewhere (k : Text) : Prop := ¬ prefixArena <+: k ∧ ¬ prefixOrphan <+: k
  deriving Decidable

def nodeRecords : Machine RawStore OwnerStep where
  step s
    | .own node arena =>
      s.txn [.absent (arenaOwnerKey node arena.toNat)]
        [.put (arenaOwnerKey node arena.toNat) (putUint64 arena)]
    | .release node limit => some (releaseArena node limit s).2
    | .orphan node ino => some (s.commit [.put (orphanKey node ino.toNat) []])
    | .deleteOrphan node ino => some (s.commit [.delete (orphanKey node ino.toNat)])
    | .reclaim node => some (reclaimOrphans node s)
    | .other ops => if ∀ op ∈ ops, Elsewhere op.key then some (s.commit ops) else none

end EtcFS.Arena
