import Mathlib.Data.Finset.Card
import Mathlib.Data.List.AList
import EtcFS.Core.Transition

/-!
# Cached sets of the names in a directory

The sets are kept by the watch, which delivers in revision order and late, and by this node's own
operations when they are acknowledged.
-/

namespace EtcFS.Ipc

open EtcFS.Core

def direntCacheMaxDirs : Nat := 64

def direntCacheMaxDirNames : Nat := 4096

def direntCacheMaxNames : Nat := 65536

structure DirentSet where
  names : Finset String
  mine : Finset String
  filled : Nat
  tooBig : Bool

structure DirentCache where
  armed : Bool
  dirs : AList fun _ : Nat => DirentSet
  names : Int
  filling : Nat → Option Nat

def newDirentCache : DirentCache := ⟨false, ∅, 0, fun _ => none⟩

namespace DirentCache

variable (c : DirentCache)

def arm : DirentCache := { c with armed := true }

def reset (_ : DirentCache) : DirentCache := newDirentCache

def absent (ttl now parent : Nat) (name : String) : Bool :=
  c.armed && (c.dirs.lookup parent).any fun d =>
    !d.tooBig && decide (now - d.filled ≤ ttl) && decide (name ∉ d.names)

def beginFill (ttl now parent : Nat) : Option DirentCache :=
  if c.armed = true ∧ c.filling parent = none ∧
      (c.dirs.lookup parent).all (fun d => decide (ttl < now - d.filled)) = true then
    some { c with filling := Function.update c.filling parent (some 0) }
  else none

def abandonFill (parent : Nat) : DirentCache :=
  { c with filling := Function.update c.filling parent none }

def dropLocked (parent : Nat) : DirentCache :=
  match c.dirs.lookup parent with
  | some d => { c with names := c.names - d.names.card, dirs := c.dirs.erase parent }
  | none => c

def overCaps : Bool :=
  (decide (direntCacheMaxDirs < c.dirs.keys.length) ||
    decide ((direntCacheMaxNames : Int) < c.names)) && !c.dirs.keys.isEmpty

def isOldest (parent : Nat) : Bool :=
  (c.dirs.lookup parent).any fun d => c.dirs.entries.all fun e => decide (d.filled ≤ e.2.filled)

def evictLocked (c : DirentCache) : List Nat → Option DirentCache
  | [] => if c.overCaps then none else some c
  | parent :: rest =>
    if c.overCaps && c.isOldest parent then evictLocked (c.dropLocked parent) rest else none

def installs (parent : Nat) : Bool := c.armed && c.filling parent == some 0

def install (parent : Nat) (entries : Finset String) (now : Nat) : DirentCache :=
  let c := c.dropLocked parent
  if direntCacheMaxDirNames < entries.card then
    { c with dirs := c.dirs.insert parent ⟨∅, ∅, now, true⟩ }
  else
    { c with
      dirs := c.dirs.insert parent ⟨entries, ∅, now, false⟩
      names := c.names + entries.card }

def endFill (parent : Nat) (entries : Finset String) (now : Nat) (victims : List Nat) :
    Option DirentCache :=
  if c.installs parent then ((c.abandonFill parent).install parent entries now).evictLocked victims
  else some (c.abandonFill parent)

def notedLocked (parent : Nat) : DirentCache :=
  { c with filling := Function.update c.filling parent ((c.filling parent).map (· + 1)) }

def mutableLocked (parent : Nat) : Option DirentSet :=
  (c.dirs.lookup parent).filter fun d => !d.tooBig

def insertLocked (parent : Nat) (d : DirentSet) (name : String) (mine : Finset String) :
    DirentCache :=
  { c with
    dirs := c.dirs.insert parent { d with names := insert name d.names, mine := mine }
    names := if name ∈ d.names then c.names else c.names + 1 }

def removeLocked (parent : Nat) (d : DirentSet) (name : String) (mine : Finset String) :
    DirentCache :=
  { c with
    dirs := c.dirs.insert parent { d with names := d.names.erase name, mine := mine }
    names := if name ∈ d.names then c.names - 1 else c.names }

def created (parent : Nat) (name : String) : DirentCache :=
  match c.mutableLocked parent with
  | some d => (c.notedLocked parent).insertLocked parent d name (insert name d.mine)
  | none => c.notedLocked parent

def deleted (parent : Nat) (name : String) : DirentCache :=
  match c.mutableLocked parent with
  | some d => (c.notedLocked parent).removeLocked parent d name (d.mine.erase name)
  | none => c.notedLocked parent

def observed (parent : Nat) (name : String) (present : Bool) : DirentCache :=
  match c.mutableLocked parent with
  | some d =>
    if present then (c.notedLocked parent).insertLocked parent d name (d.mine.erase name)
    else if name ∈ d.mine then c.notedLocked parent
    else (c.notedLocked parent).removeLocked parent d name d.mine
  | none => c.notedLocked parent

end DirentCache

/-! ## The cache beside the store -/

structure DirentEvent where
  parent : Nat
  name : String
  present : Bool
  deriving DecidableEq

inductive CacheCall where
  | created (parent : Nat) (name : String)
  | deleted (parent : Nat) (name : String)
  deriving DecidableEq

inductive NameChange where
  | create (parent : Nat) (name : String)
  | remove (parent : Nat) (name : String)
  | move (oldParent : Nat) (oldName : String) (newParent : Nat) (newName : String)
  deriving DecidableEq

namespace NameChange

def events : NameChange → List DirentEvent
  | .create parent name => [⟨parent, name, true⟩]
  | .remove parent name => [⟨parent, name, false⟩]
  | .move oldParent oldName newParent newName =>
    [⟨oldParent, oldName, false⟩, ⟨newParent, newName, true⟩]

def calls : NameChange → List CacheCall
  | .create parent name => [.created parent name]
  | .remove parent name => [.deleted parent name]
  | .move oldParent oldName newParent newName =>
    [.deleted oldParent oldName, .created newParent newName]

def Commits (dirents : Nat → Finset String) : NameChange → Prop
  | .create parent name => name ∉ dirents parent
  | .remove parent name => name ∈ dirents parent
  | .move oldParent oldName newParent newName =>
    oldName ∈ dirents oldParent ∧ (oldParent, oldName) ≠ (newParent, newName)

instance (dirents : Nat → Finset String) : DecidablePred (Commits dirents)
  | .create parent name => inferInstanceAs (Decidable (name ∉ dirents parent))
  | .remove parent name => inferInstanceAs (Decidable (name ∈ dirents parent))
  | .move _ _ _ _ => inferInstanceAs (Decidable (_ ∧ _))

end NameChange

@[ext] structure DirentFill where
  parent : Nat
  read : Option (Finset String)

instance : DecidableEq DirentFill := fun a b =>
  decidable_of_iff (a.parent = b.parent ∧ a.read = b.read)
    (DirentFill.ext_iff (x := a) (y := b)).symm

structure DirentWorld where
  dirents : Nat → Finset String
  watching : Bool
  pending : List DirentEvent
  cache : DirentCache
  acks : List (List CacheCall)
  fills : List DirentFill
  lookups : List (Nat × String)

inductive DirentStep where
  | peer (op : NameChange)
  | commit (op : NameChange)
  | ack (calls : List CacheCall)
  | deliver
  | gap
  | reopen
  | arm
  | beginFill (parent now : Nat)
  | readFill (fill : DirentFill)
  | endFill (fill : DirentFill) (entries : Finset String) (now : Nat) (victims : List Nat)
  | abandonFill (fill : DirentFill)
  | look (parent : Nat) (name : String)
  | seen (parent : Nat) (name : String)

def DirentCache.apply (c : DirentCache) : CacheCall → DirentCache
  | .created parent name => c.created parent name
  | .deleted parent name => c.deleted parent name

namespace DirentWorld

variable (s : DirentWorld)

def record (e : DirentEvent) : DirentWorld :=
  { s with
    dirents := Function.update s.dirents e.parent
      (if e.present then insert e.name (s.dirents e.parent) else (s.dirents e.parent).erase e.name)
    pending := if s.watching then s.pending ++ [e] else s.pending }

def change (op : NameChange) : DirentWorld := op.events.foldl record s

def Awaits (parent : Nat) (name : String) : Prop :=
  ∃ e ∈ s.pending, e.parent = parent ∧ e.name = name
  deriving Decidable

end DirentWorld

def remaining (acks : List (List CacheCall)) (calls rest : List CacheCall) :
    List (List CacheCall) :=
  if rest = [] then acks.erase calls else rest :: acks.erase calls

def direntCaching (ttl : Nat) : Machine DirentWorld DirentStep where
  step s
    | .peer op => if op.Commits s.dirents then some (s.change op) else none
    | .commit op =>
      if op.Commits s.dirents then some { s.change op with acks := op.calls :: s.acks } else none
    | .ack calls =>
      if calls ∈ s.acks then
        match calls with
        | [] => none
        | call :: rest =>
          some { s with cache := s.cache.apply call, acks := remaining s.acks (call :: rest) rest }
      else none
    | .deliver =>
      match s.pending with
      | [] => none
      | e :: rest =>
        some { s with cache := s.cache.observed e.parent e.name e.present, pending := rest }
    | .gap =>
      if s.watching then some { s with watching := false, pending := [], cache := s.cache.reset }
      else none
    | .reopen => if s.watching then none else some { s with watching := true }
    | .arm => if s.watching then some { s with cache := s.cache.arm } else none
    | .beginFill parent now =>
      (s.cache.beginFill ttl now parent).map fun c =>
        { s with cache := c, fills := ⟨parent, none⟩ :: s.fills }
    | .readFill fill =>
      if fill ∈ s.fills ∧ fill.read = none then
        some { s with
          fills := ⟨fill.parent, some (s.dirents fill.parent)⟩ :: s.fills.erase fill }
      else none
    | .endFill fill entries now victims =>
      if fill ∈ s.fills ∧ fill.read = some entries then
        (s.cache.endFill fill.parent entries now victims).map fun c =>
          { s with cache := c, fills := s.fills.erase fill }
      else none
    | .abandonFill fill =>
      if fill ∈ s.fills then
        some { s with cache := s.cache.abandonFill fill.parent, fills := s.fills.erase fill }
      else none
    | .look parent name =>
      if name ∈ s.dirents parent then some { s with lookups := (parent, name) :: s.lookups }
      else none
    | .seen parent name =>
      if (parent, name) ∈ s.lookups then
        some { s with
          cache := s.cache.observed parent name true
          lookups := s.lookups.erase (parent, name) }
      else none

end EtcFS.Ipc
