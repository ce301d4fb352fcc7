import EtcFS.Core.Edges
import EtcFS.Metadata.LockKeys
import EtcFS.Namespace.Edits

/-!
# Moving directories

A rename of a directory walks up from the new parent and refuses if it meets the directory. Nothing
in the transaction compares what the walk saw.
-/

namespace EtcFS.Namespace

open EtcFS.Core Ipc Relation List Option
open Metadata hiding Key Val getInode

/-! ## The walk -/

def Entry.later (a b : Entry) : Entry :=
  if direntKey a.parent a.name < direntKey b.parent b.name then b else a

def lastEntry : List Entry → Option Entry
  | [] => none
  | e :: es => some ((lastEntry es).elim e e.later)

def parentIndex (es : List Entry) (ino : Nat) : Option Nat :=
  (lastEntry (es.filter fun e => e.ino = ino)).map Entry.parent

def walkUp (index : Nat → Option Nat) (ancestor : Nat) : Nat → Nat → Option Bool
  | 0, _ => none
  | steps + 1, ino =>
    match index ino with
    | none => some false
    | some next => if next = ancestor then some true else walkUp index ancestor steps next

def listEntries (s : Tree) : List Entry := s.list fun k v => decodeEntry k v.value

def isDescendant (s : Tree) (ino ancestor : Nat) : Option Bool :=
  if ino = ancestor then some true
  else walkUp (parentIndex (listEntries s)) ancestor
    (((listEntries s).map Entry.ino).dedup.length + 1) ino

def Child (s : Tree) (p c : Nat) : Prop := ∃ name, lookupDirent s p name = some c

theorem not_above_of_walkUp {index : Nat → Option Nat} {ancestor steps ino : Nat}
    (h : walkUp index ancestor steps ino = some false) :
    ¬ TransGen (fun p c => index c = some p) ancestor ino := by
  induction steps generalizing ino with
  | zero => cases h
  | succ steps ih =>
    intro hpath
    obtain ⟨p, hp, hlast⟩ := TransGen.tail'_iff.mp hpath
    simp only [walkUp, hlast] at h
    obtain ⟨hne, hrest⟩ : p ≠ ancestor ∧ walkUp index ancestor steps p = some false := by
      split at h
      · cases h
      · next hne => exact ⟨hne, h⟩
    rcases reflTransGen_iff_eq_or_transGen.mp hp with rfl | hp
    · exact hne rfl
    · exact ih hrest hp

theorem lastEntry_mem {es : List Entry} {e : Entry} (h : lastEntry es = some e) : e ∈ es := by
  induction es generalizing e with
  | nil => cases h
  | cons a es ih =>
    cases h
    cases hlast : lastEntry es with
    | none => exact mem_cons_self
    | some b =>
      simp only [elim_some, Entry.later]
      split
      · exact mem_cons_of_mem _ (ih hlast)
      · exact mem_cons_self

theorem mem_listEntries {s : Tree} {e : Entry} : e ∈ listEntries s ↔ e ∈ entries s := Iff.rfl

theorem parentIndex_eq {s : Tree} {e : Entry} (he : e ∈ entries s)
    (honce : ∀ e' ∈ entries s, e'.ino = e.ino → e' = e) :
    parentIndex (listEntries s) e.ino = some e.parent := by
  have hmem : e ∈ (listEntries s).filter fun x => x.ino = e.ino :=
    mem_filter.mpr ⟨mem_listEntries.mpr he, by simp⟩
  obtain ⟨x, hx⟩ : ∃ x, lastEntry ((listEntries s).filter fun x => x.ino = e.ino) = some x := by
    cases hl : (listEntries s).filter fun x => x.ino = e.ino with
    | nil =>
      rw [hl] at hmem
      cases hmem
    | cons a as => exact ⟨_, rfl⟩
  obtain ⟨hxs, hino⟩ := mem_filter.mp (lastEntry_mem hx)
  rw [parentIndex, hx, map_some, honce x (mem_listEntries.mp hxs) (of_decide_eq_true hino)]

/-! ## Trees -/

structure IsTree (s : Tree) : Prop where
  root : isDirectory s 1 = true
  parents : ParentsAreDirectories s
  once : ∀ e ∈ entries s, ∀ e' ∈ entries s, isDirectory s e.ino = true → e'.ino = e.ino → e' = e
  reach : ∀ d, isDirectory s d = true → ReflTransGen (Child s) 1 d
  acyclic : ∀ d, ¬ TransGen (Child s) d d

namespace IsTree

variable {s t : Tree}

theorem directory_of_child (h : IsTree s) {p c : Nat} (hc : Child s p c) :
    isDirectory s p = true := by
  obtain ⟨name, hname⟩ := hc
  exact h.parents ⟨p, name, c⟩ (mem_entries.mpr hname)

theorem index_of_path (h : IsTree s) {p c : Nat} (hpath : TransGen (Child s) p c)
    (hc : isDirectory s c = true) :
    TransGen (fun p c => parentIndex (listEntries s) c = some p) p c := by
  have hedge : ∀ {p c}, Child s p c → isDirectory s c = true →
      parentIndex (listEntries s) c = some p := by
    rintro p c ⟨name, hname⟩ hc
    have he : (⟨p, name, c⟩ : Entry) ∈ entries s := mem_entries.mpr hname
    exact parentIndex_eq he fun e' he' hino => h.once _ he e' he' hc hino
  induction hpath with
  | single hstep => exact .single (hedge hstep hc)
  | tail _ hstep ih => exact (ih (h.directory_of_child hstep)).tail (hedge hstep hc)

theorem not_below (h : IsTree s) {c a : Nat} (hc : isDirectory s c = true)
    (hcheck : isDescendant s c a = some false) : ¬ ReflTransGen (Child s) a c := by
  rw [isDescendant] at hcheck
  split at hcheck
  · cases hcheck
  · next hne =>
    intro hpath
    rcases reflTransGen_iff_eq_or_transGen.mp hpath with he | hpath
    · exact hne he
    · exact not_above_of_walkUp hcheck (h.index_of_path hpath hc)

structure Moves (s t : Tree) (ino oldParent newParent : Nat) : Prop where
  came : ∀ {p c}, Child t p c → Child s p c ∨ p = newParent ∧ c = ino
  went : ∀ {p c}, Child s p c → (∀ q, ¬ Child s c q) ∧ isDirectory t c = false ∨ Child t p c ∨
    p = oldParent ∧ c = ino
  new : Child t newParent ino
  dirs : ∀ d, isDirectory t d = true → isDirectory s d = true
  parent : isDirectory s newParent = true
  above : ¬ ReflTransGen (Child s) ino newParent

theorem acyclic_of_moves (h : IsTree s) {ino p q : Nat} (hm : Moves s t ino p q) (d : Nat) :
    ¬ TransGen (Child t) d d := by
  intro hcycle
  rcases cycle_split (fun _ _ => hm.came) hcycle with hcycle | hpath
  · exact h.acyclic d hcycle
  · exact hm.above hpath

theorem path_of_moves {ino p q : Nat} (hm : Moves s t ino p q) {d : Nat}
    (hpath : ReflTransGen (Child s) 1 d) (hd : isDirectory t d = true ∨ ∃ c, Child s d c) :
    ReflTransGen (Child t) 1 d ∨ ReflTransGen (Child t) ino d := by
  have hkept : ReflTransGen (fun a b => Child t a b ∨ a = p ∧ b = ino) 1 d := by
    induction hpath with
    | refl => exact .refl
    | @tail b c _ hstep ih =>
      refine (ih (.inr ⟨c, hstep⟩)).tail ?_
      rcases hm.went hstep with ⟨hleaf, hgone⟩ | hedge
      · rcases hd with hd | ⟨x, hx⟩
        · rw [hgone] at hd
          cases hd
        · exact absurd hx (hleaf x)
      · exact hedge
  rcases path_split (fun _ _ hab => hab) hkept with hpath | ⟨-, hpath⟩
  · exact .inl hpath
  · exact .inr hpath

theorem reach_of_moves (h : IsTree s) {ino p q : Nat} (hm : Moves s t ino p q)
    (hparent : isDirectory t q = true) (d : Nat) (hd : isDirectory t d = true) :
    ReflTransGen (Child t) 1 d := by
  rcases path_of_moves hm (h.reach d (hm.dirs d hd)) (.inl hd) with hpath | hbelow
  · exact hpath
  · rcases path_of_moves hm (h.reach q hm.parent) (.inl hparent) with hup | hloop
    · exact (hup.tail hm.new).trans hbelow
    · rcases path_split (fun _ _ => hm.came) hloop with hloop | ⟨hloop, -⟩ <;>
        exact absurd hloop hm.above

end IsTree

/-! ## Renames of directories -/

structure RenameState where
  ns : NsState
  walked : Nat → Bool

inductive RenameStep where
  | start (id : Nat) (r : RenameArgs)
  | read (id : Nat)
  | walk (id : Nat)
  | commit (id : Nat) (now : Time)
  | giveUp (id : Nat)

def RenameState.mustWalk (s : RenameState) (id : Nat) (a : Attempt) : Bool :=
  a.reads.length == 1 && !s.walked id && a.op.source.any fun ino => isDirectory (a.read 0) ino

def directoryRenames : Machine RenameState RenameStep where
  step s
    | .start id r =>
      if isDirectory s.ns.tree r.ino = true then
        (namespaceOps.step s.ns (.start id (.rename { r with isDescendant := false }))).map
          fun ns => ⟨ns, Function.update s.walked id false⟩
      else none
    | .read id => do
      let a ← s.ns.attempts id
      if s.mustWalk id a then none
      else (namespaceOps.step s.ns (.read id)).map fun ns => { s with ns := ns }
    | .walk id => do
      let a ← s.ns.attempts id
      let r ← a.op.renameArgs
      if s.mustWalk id a then
        match isDescendant s.ns.tree r.newParent r.ino with
        | none => some { s with ns := s.ns.setAttempt id none }
        | some under => some {
            ns := s.ns.setAttempt id
              (some { a with op := .rename { r with isDescendant := under } })
            walked := Function.update s.walked id true }
      else none
    | .commit id now =>
      (namespaceOps.step s.ns (.commit id now)).map fun ns => { s with ns := ns }
    | .giveUp id => some { s with ns := s.ns.setAttempt id none }

def RenameState.applied (s : RenameState) : RenameStep → Option (Attempt × Txn)
  | .commit id now => s.ns.applied (.commit id now)
  | .start _ _ | .read _ | .walk _ | .giveUp _ => none

end EtcFS.Namespace
