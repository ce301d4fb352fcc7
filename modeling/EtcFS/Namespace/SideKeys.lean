import EtcFS.Namespace.Orphans

/-!
# Keys that belong to an inode

Whoever sets an attribute or a quota compares that the inode has a record. `AtomicRmdir` deletes the
record alone, and no operation deletes a quota.
-/

namespace EtcFS.Namespace

open EtcFS.Core Ipc
open Metadata hiding Key Val getInode

inductive SideKey where
  | xattr (ino : Nat) (name : String)
  | quota (ino : Nat)
  deriving DecidableEq, Repr

def SideKey.ino : SideKey → Nat
  | .xattr ino _ => ino
  | .quota ino => ino

structure QuotaRecord where
  bytes : UInt64
  inodes : UInt64
  deriving DecidableEq, Repr

@[reducible] def SideVal : SideKey → Type
  | .xattr _ _ => List UInt8
  | .quota _ => QuotaRecord

instance : ∀ k, DecidableEq (SideVal k)
  | .xattr _ _ => inferInstanceAs (DecidableEq (List UInt8))
  | .quota _ => inferInstanceAs (DecidableEq QuotaRecord)

abbrev SideKeys := Store SideVal

/-! ## Attributes -/

def maxXattrNameLen : Nat := 255

def maxXattrValueLen : Nat := 65536

def xattrCreate : UInt32 := 1

def xattrReplace : UInt32 := 2

inductive XattrErr where
  | errInvalid
  | errTooBig
  | errNotFound
  | errExists
  | errNoData
  deriving DecidableEq, Repr

def validXattrName (name : String) : Bool :=
  name != "" && name.utf8ByteSize ≤ maxXattrNameLen &&
    !name.toList.any fun c => c == '/' || c.toNat == 0

def setXattr (s : Tree) (keys : SideKeys) (ino : Nat) (name : String) (value : List UInt8)
    (flags : UInt32) : Except XattrErr SideKeys :=
  let key : SideKey := .xattr ino name
  let there := (s.get (.inode ino)).isSome
  let allowed :=
    if flags &&& xattrCreate ≠ 0 then (keys.get key).isNone
    else if flags &&& xattrReplace ≠ 0 then (keys.get key).isSome
    else true
  if validXattrName name = false then .error .errInvalid
  else if maxXattrValueLen < value.length then .error .errTooBig
  else if there && allowed then .ok (keys.commit [.put key value])
  else if there = false then .error .errNotFound
  else if flags &&& xattrCreate ≠ 0 then .error .errExists
  else .error .errNoData

def removeXattr (keys : SideKeys) (ino : Nat) (name : String) : Except XattrErr SideKeys :=
  if validXattrName name = false then .error .errInvalid
  else if (keys.get (.xattr ino name)).isSome then .ok (keys.commit [.delete (.xattr ino name)])
  else .error .errNoData

def xattrsOf (inos : List Nat) : SideKey → Bool
  | .xattr ino _ => inos.contains ino
  | .quota _ => false

def clearXattrs (keys : SideKeys) (inos : List Nat) : SideKeys :=
  keys.commit (keys.deleteRange (xattrsOf inos))

/-! ## Quotas -/

def quotaRefusal (s : Tree) (ino : Nat) : Option NsErr :=
  match getInode s ino with
  | none => some .errNotFound
  | some rec => if IsDir rec then none else some .errNotDir

def putQuota (s : Tree) (keys : SideKeys) (ino : Nat) (limits : QuotaRecord) : SideKeys :=
  if (s.get (.inode ino)).isSome then keys.commit [.put (.quota ino) limits] else keys

/-! ## Everything that sets and removes at once -/

def NsOp.WritesOwnTarget : NsOp → Prop
  | .create _ _ new extra =>
    ∀ o ∈ extra.ops, ∀ ino, o.key = .symlink ino → ino = new.record.ino ∧ IsLink new.record
  | .link _ _ _ | .unlink _ _ _ _ | .rmdir _ _ | .rename _ | .times _ _ => True

def targetOf (o : Op Val) : Option Nat :=
  match o.key with
  | .symlink ino => some ino
  | .inode _ | .dirent _ _ | .orphan _ _ | .lock _ _ _ => none

theorem targetOf_eq_some {o : Op Val} {ino : Nat} :
    targetOf o = some ino ↔ o.key = .symlink ino := by
  rw [targetOf]
  cases o.key <;> simp

theorem writesOwnTarget_create (parent : Nat) (name : String) (new : NewRecord)
    (extra : CreateExtra) : (∀ o ∈ extra.ops, ∀ ino ∈ targetOf o,
      ino = new.record.ino ∧ IsLink new.record) ↔
        (NsOp.create parent name new extra).WritesOwnTarget :=
  forall₃_congr fun _ _ _ => imp_congr_left targetOf_eq_some

instance : DecidablePred NsOp.WritesOwnTarget
  | .create parent name new extra =>
    decidable_of_iff _ (writesOwnTarget_create parent name new extra)
  | .link _ _ _ | .unlink _ _ _ _ | .rmdir _ _ | .rename _ | .times _ _ =>
    inferInstanceAs (Decidable True)

def NsOp.isRmdir : NsOp → Bool
  | .rmdir _ _ => true
  | .create _ _ _ _ | .link _ _ _ | .unlink _ _ _ _ | .rename _ | .times _ _ => false

inductive SideCall where
  | setQuota (ino : Nat) (limits : QuotaRecord)
  | deleteOrphan (node : NodeID) (ino : Nat) (read : Option InodeRecord)

structure SideState where
  ns : NsState
  keys : SideKeys
  calls : Nat → Option SideCall

inductive SideStep where
  | name (step : NsStep)
  | setXattr (ino : Nat) (name : String) (value : List UInt8) (flags : UInt32)
  | removeXattr (ino : Nat) (name : String)
  | readQuota (id ino : Nat) (limits : QuotaRecord)
  | putQuota (id : Nat)
  | clearQuota (ino : Nat)
  | readOrphan (id : Nat) (node : NodeID) (ino : Nat)
  | dropOrphan (id : Nat) (now : Time)

def OwnTarget : NsStep → Prop
  | .start _ op => op.WritesOwnTarget
  | .read _ | .commit _ _ | .giveUp _ => True

instance : DecidablePred OwnTarget
  | .start _ op => inferInstanceAs (Decidable op.WritesOwnTarget)
  | .read _ | .commit _ _ | .giveUp _ => inferInstanceAs (Decidable True)

namespace SideState

variable (s : SideState)

def orphanOps (id : Nat) (now : Time) : List (Op Val) :=
  match s.calls id with
  | some (.deleteOrphan node ino read) => Namespace.deleteOrphan node ino read now
  | some (.setQuota _ _) | none => []

def removes : SideStep → List Nat
  | .name step => ((s.ns.applied step).map fun x => deletedInodes x.2.ops).getD []
  | .dropOrphan id now => deletedInodes (s.orphanOps id now)
  | .setXattr _ _ _ _ | .removeXattr _ _ | .readQuota _ _ _ | .putQuota _ | .clearQuota _
  | .readOrphan _ _ _ => []

def clears : SideStep → List Nat
  | .name step => ((s.ns.applied step).map fun x =>
      if x.1.op.isRmdir then [] else deletedInodes x.2.ops).getD []
  | .dropOrphan id now => deletedInodes (s.orphanOps id now)
  | .setXattr _ _ _ _ | .removeXattr _ _ | .readQuota _ _ _ | .putQuota _ | .clearQuota _
  | .readOrphan _ _ _ => []

def rmdirs : SideStep → Bool
  | .name step => (s.ns.applied step).any fun x => x.1.op.isRmdir
  | .setXattr _ _ _ _ | .removeXattr _ _ | .readQuota _ _ _ | .putQuota _ | .clearQuota _
  | .readOrphan _ _ _ | .dropOrphan _ _ => false

def setCall (id : Nat) (c : Option SideCall) : SideState :=
  { s with calls := Function.update s.calls id c }

end SideState

def sideKeyOps : Machine SideState SideStep where
  step s
    | .name step =>
      if OwnTarget step then
        (namespaceOps.step s.ns step).map fun ns =>
          { s with ns := ns, keys := clearXattrs s.keys (s.clears (.name step)) }
      else none
    | .setXattr ino name value flags =>
      some { s with
        keys := (setXattr s.ns.tree s.keys ino name value flags).toOption.getD s.keys }
    | .removeXattr ino name =>
      some { s with keys := (removeXattr s.keys ino name).toOption.getD s.keys }
    | .readQuota id ino limits =>
      if s.calls id = none then
        some (s.setCall id (if quotaRefusal s.ns.tree ino = none then
          some (.setQuota ino limits) else none))
      else none
    | .putQuota id =>
      match s.calls id with
      | some (.setQuota ino limits) =>
        some { s.setCall id none with keys := putQuota s.ns.tree s.keys ino limits }
      | some (.deleteOrphan _ _ _) | none => none
    | .clearQuota ino => some { s with keys := s.keys.commit [.delete (.quota ino)] }
    | .readOrphan id node ino =>
      if s.calls id = none then
        some (s.setCall id (some (.deleteOrphan node ino (getInode s.ns.tree ino))))
      else none
    | .dropOrphan id now =>
      match s.calls id with
      | some (.deleteOrphan _ _ _) =>
        some { s.setCall id none with
          ns := { s.ns with tree := s.ns.tree.commit (s.orphanOps id now) }
          keys := clearXattrs s.keys (s.clears (.dropOrphan id now)) }
      | some (.setQuota _ _) | none => none

end EtcFS.Namespace
