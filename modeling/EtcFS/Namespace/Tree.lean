import EtcFS.Ipc.Attributes

/-!
# The namespace as it is stored

A file's count is the number of entries that name it. A directory's count is two, and one more for
every directory it holds.
-/

namespace EtcFS.Namespace

open EtcFS.Core Ipc Option
open Metadata hiding Key Val getInode

inductive Key where
  | inode (ino : Nat)
  | dirent (parent : Nat) (name : String)
  | symlink (ino : Nat)
  | orphan (node : NodeID) (ino : Nat)
  | lock (ino : Nat) (mode : LockMode) (holder : Holder)
  deriving DecidableEq, Repr

@[reducible] def Val : Key → Type
  | .inode _ => InodeRecord
  | .dirent _ _ => Nat
  | .symlink _ => String
  | .orphan _ _ => Unit
  | .lock _ _ _ => NodeID

instance : ∀ k, DecidableEq (Val k)
  | .inode _ => inferInstanceAs (DecidableEq InodeRecord)
  | .dirent _ _ => inferInstanceAs (DecidableEq Nat)
  | .symlink _ => inferInstanceAs (DecidableEq String)
  | .orphan _ _ => inferInstanceAs (DecidableEq Unit)
  | .lock _ _ _ => inferInstanceAs (DecidableEq NodeID)

abbrev Tree := Store Val

def getInode (s : Tree) (ino : Nat) : Option InodeRecord := (s.get (.inode ino)).map Versioned.value

def lookupDirent (s : Tree) (parent : Nat) (name : String) : Option Nat :=
  (s.get (.dirent parent name)).map Versioned.value

def IsDir (rec : InodeRecord) : Prop := rec.mode &&& sIFMT = modeDir
  deriving Decidable

def isDirectory (s : Tree) (ino : Nat) : Bool := (getInode s ino).any fun rec => IsDir rec

structure Entry where
  parent : Nat
  name : String
  ino : Nat
  deriving DecidableEq, Repr

def decodeEntry : (k : Key) → Val k → Option Entry
  | .dirent parent name, ino => some ⟨parent, name, ino⟩
  | .inode _, _ | .symlink _, _ | .orphan _ _, _ | .lock _ _ _, _ => none

def entries (s : Tree) : Multiset Entry := s.contents decodeEntry

def names (es : Multiset Entry) (ino : Nat) : Nat := es.countP fun e => e.ino = ino

def subdirs (isDir : Nat → Bool) (es : Multiset Entry) (ino : Nat) : Nat :=
  es.countP fun e => e.parent = ino ∧ isDir e.ino

def initialNlink (mode : UInt32) : UInt32 := if mode &&& sIFMT = modeDir then 2 else 1

def expectedNlink (rec : InodeRecord) (dirents subdirs : Nat) : Nat :=
  if IsDir rec then (initialNlink rec.mode).toNat + subdirs else dirents

structure Counted (s : Tree) : Prop where
  nlink : ∀ ino rec, getInode s ino = some rec →
    rec.nlink.toNat =
      expectedNlink rec (names (entries s) ino) (subdirs (isDirectory s) (entries s) ino)
  named : ∀ e ∈ entries s, (getInode s e.ino).isSome

structure Sound (s : Tree) : Prop extends Counted s where
  own : ∀ ino rec, getInode s ino = some rec → rec.ino = ino
  once : ∀ ino, isDirectory s ino = true → names (entries s) ino ≤ 1

theorem mem_entries {s : Tree} {e : Entry} :
    e ∈ entries s ↔ lookupDirent s e.parent e.name = some e.ino := by
  simp only [entries, Store.contents, Multiset.mem_coe, Store.mem_list, lookupDirent,
    map_eq_some_iff]
  constructor
  · rintro ⟨k, v, hg, hd⟩
    cases k with
    | dirent p n =>
      cases hd
      exact ⟨v, hg, rfl⟩
    | inode | symlink | orphan | lock => cases hd
  · rintro ⟨v, hg, hv⟩
    refine ⟨.dirent e.parent e.name, v, hg, ?_⟩
    simp only [decodeEntry, hv]

theorem isDirectory_eq_true {s : Tree} {ino : Nat} :
    isDirectory s ino = true ↔ ∃ rec, getInode s ino = some rec ∧ IsDir rec := by
  simp only [isDirectory, any_eq_true, decide_eq_true_eq]

theorem isDirectory_of_get {s : Tree} {ino : Nat} {rec : InodeRecord}
    (h : getInode s ino = some rec) : isDirectory s ino = decide (IsDir rec) := by
  rw [isDirectory, h, any_some]

section

theorem names_add (es es' : Multiset Entry) (ino : Nat) :
    names (es + es') ino = names es ino + names es' ino :=
  Multiset.countP_add ..

theorem subdirs_add (isDir : Nat → Bool) (es es' : Multiset Entry) (ino : Nat) :
    subdirs isDir (es + es') ino = subdirs isDir es ino + subdirs isDir es' ino :=
  Multiset.countP_add ..

@[simp] theorem names_zero (ino : Nat) : names 0 ino = 0 := Multiset.countP_zero _

@[simp] theorem subdirs_zero (isDir : Nat → Bool) (ino : Nat) : subdirs isDir 0 ino = 0 :=
  Multiset.countP_zero _

@[simp] theorem names_singleton (e : Entry) (ino : Nat) :
    names {e} ino = if e.ino = ino then 1 else 0 := by
  rw [names, ← Multiset.cons_zero, Multiset.countP_cons, Multiset.countP_zero, Nat.zero_add]

@[simp] theorem subdirs_singleton (isDir : Nat → Bool) (e : Entry) (ino : Nat) :
    subdirs isDir {e} ino = if e.parent = ino ∧ isDir e.ino then 1 else 0 := by
  rw [subdirs, ← Multiset.cons_zero, Multiset.countP_cons, Multiset.countP_zero, Nat.zero_add]

variable {es : Multiset Entry}

theorem names_eq_zero {ino : Nat} : names es ino = 0 ↔ ∀ e ∈ es, e.ino ≠ ino :=
  Multiset.countP_eq_zero

theorem names_pos {e : Entry} (h : e ∈ es) : 0 < names es e.ino :=
  Multiset.countP_pos_of_mem h rfl

theorem subdirs_congr {isDir isDir' : Nat → Bool}
    (h : ∀ e ∈ es, isDir e.ino = isDir' e.ino) (ino : Nat) :
    subdirs isDir es ino = subdirs isDir' es ino :=
  Multiset.countP_congr rfl fun e he => by rw [h e he]

end

/-! ## What a transaction exchanges -/

section

def share (isDir : Nat → Bool) (es : Multiset Entry) (ino : Nat) : Nat :=
  if isDir ino then subdirs isDir es ino else names es ino

theorem share_add (isDir : Nat → Bool) (es es' : Multiset Entry) (ino : Nat) :
    share isDir (es + es') ino = share isDir es ino + share isDir es' ino := by
  simp only [share]
  split
  · exact subdirs_add ..
  · exact names_add ..

def Types (isDir : Nat → Bool) (s : Tree) : Prop :=
  ∀ ino rec, getInode s ino = some rec → isDir ino = decide (IsDir rec)

theorem Types.eq_isDirectory {isDir : Nat → Bool} {s : Tree} (ht : Types isDir s) {ino : Nat}
    (h : (getInode s ino).isSome) : isDir ino = isDirectory s ino := by
  obtain ⟨rec, hrec⟩ := isSome_iff_exists.mp h
  rw [ht ino rec hrec, isDirectory_of_get hrec]

theorem expectedNlink_eq {isDir : Nat → Bool} {s : Tree} (ht : Types isDir s)
    (hn : ∀ e ∈ entries s, (getInode s e.ino).isSome) {ino : Nat} {rec : InodeRecord}
    (h : getInode s ino = some rec) :
    expectedNlink rec (names (entries s) ino) (subdirs (isDirectory s) (entries s) ino) =
      (if isDir ino then 2 else 0) + share isDir (entries s) ino := by
  have hsub : subdirs (isDirectory s) (entries s) ino = subdirs isDir (entries s) ino :=
    subdirs_congr (fun e he => (ht.eq_isDirectory (hn e he)).symm) ino
  have hd : isDir ino = decide (IsDir rec) := ht ino rec h
  by_cases hdir : IsDir rec
  · have htwo : initialNlink rec.mode = 2 := if_pos hdir
    simp [expectedNlink, share, hd, hdir, htwo, hsub]
  · simp [expectedNlink, share, hd, hdir]

structure Moved (delta : Int) (rec rec' : InodeRecord) : Prop where
  ino : rec'.ino = rec.ino
  mode : rec'.mode = rec.mode
  nlink : (rec'.nlink.toNat : Int) = rec.nlink.toNat + delta

theorem Moved.isDir {delta : Int} {rec rec' : InodeRecord} (h : Moved delta rec rec') :
    IsDir rec' ↔ IsDir rec := by
  rw [IsDir, IsDir, h.mode]

theorem Moved.trans {delta delta' : Int} {rec rec' rec'' : InodeRecord}
    (h : Moved delta rec rec') (h' : Moved delta' rec' rec'') :
    Moved (delta + delta') rec rec'' where
  ino := h'.ino.trans h.ino
  mode := h'.mode.trans h.mode
  nlink := by
    have := h.nlink
    have := h'.nlink
    omega

structure Recount (s t : Tree) (delta : Nat → Int) (born died : Option Nat) : Prop where
  fresh : ∀ ino ∈ born, getInode s ino = none ∧ ∃ rec, getInode t ino = some rec ∧ rec.ino = ino
  removed : ∀ ino ∈ died, getInode t ino = none
  kept : ∀ ino, ino ∉ died → ∀ rec, getInode s ino = some rec →
    ∃ rec', getInode t ino = some rec' ∧ Moved (delta ino) rec rec'
  only : ∀ ino, ino ∉ born → getInode s ino = none → getInode t ino = none

def eitherDir (s t : Tree) (ino : Nat) : Bool := isDirectory s ino || isDirectory t ino

namespace Recount

variable {s t : Tree} {delta : Nat → Int} {born died : Option Nat}

theorem cases (h : Recount s t delta born died) {ino : Nat} {rec : InodeRecord}
    (hrec : getInode t ino = some rec) : ino ∈ born ∧ getInode s ino = none ∨
      ino ∉ died ∧ ∃ rec₀, getInode s ino = some rec₀ ∧ Moved (delta ino) rec₀ rec := by
  cases hold : getInode s ino with
  | none =>
    by_cases hb : ino ∈ born
    · exact .inl ⟨hb, rfl⟩
    · rw [h.only ino hb hold] at hrec
      cases hrec
  | some rec₀ =>
    have hd : ino ∉ died := by
      intro hd
      rw [h.removed ino hd] at hrec
      cases hrec
    obtain ⟨rec', hrec', hm⟩ := h.kept ino hd rec₀ hold
    obtain rfl := some.inj (hrec.symm.trans hrec')
    exact .inr ⟨hd, rec₀, rfl, hm⟩

theorem types_before (h : Recount s t delta born died) : Types (eitherDir s t) s := by
  intro ino rec hrec
  rw [eitherDir, isDirectory_of_get hrec]
  cases hnew : getInode t ino with
  | none => simp [isDirectory, hnew]
  | some rec' =>
    rcases h.cases hnew with ⟨-, hnone⟩ | ⟨-, rec₀, hrec₀, hm⟩
    · rw [hrec] at hnone
      cases hnone
    · obtain rfl := some.inj (hrec.symm.trans hrec₀)
      rw [isDirectory_of_get hnew, decide_eq_decide.mpr hm.isDir, Bool.or_self]

theorem types_after (h : Recount s t delta born died) : Types (eitherDir s t) t := by
  intro ino rec hrec
  rw [eitherDir, isDirectory_of_get hrec]
  rcases h.cases hrec with ⟨-, hnone⟩ | ⟨-, rec₀, hrec₀, hm⟩
  · simp [isDirectory, hnone]
  · rw [isDirectory_of_get hrec₀, decide_eq_decide.mpr hm.isDir, Bool.or_self]

theorem isDirectory_before (h : Recount s t delta born died) {ino : Nat} (hb : ino ∉ born)
    (hd : isDirectory t ino = true) : isDirectory s ino = true := by
  obtain ⟨rec, hrec, hdir⟩ := isDirectory_eq_true.mp hd
  rcases h.cases hrec with ⟨hb', -⟩ | ⟨-, rec₀, hrec₀, hm⟩
  · exact absurd hb' hb
  · exact isDirectory_eq_true.mpr ⟨rec₀, hrec₀, hm.isDir.mp hdir⟩

end Recount

theorem Sound.names_eq_zero {s : Tree} (hs : Sound s) {ino : Nat} (h : getInode s ino = none) :
    names (entries s) ino = 0 := by
  refine Namespace.names_eq_zero.mpr ?_
  rintro e he rfl
  have hsome := hs.named e he
  rw [h] at hsome
  cases hsome

structure Exchange (s t : Tree) (delta : Nat → Int) (born died : Option Nat)
    (gone come : Multiset Entry) : Prop where
  entries : entries t + gone = entries s + come
  records : Recount s t delta born died
  balance : ∀ ino, (getInode s ino).isSome → ino ∉ died →
    (share (eitherDir s t) come ino : Int) = share (eitherDir s t) gone ino + delta ino
  birth : ∀ ino ∈ born, ∀ rec, getInode t ino = some rec →
    rec.nlink.toNat = (if eitherDir s t ino then 2 else 0) +
      share (eitherDir s t) (Namespace.entries t) ino
  death : ∀ ino ∈ died, names (Namespace.entries s) ino + names come ino ≤ names gone ino
  refers : ∀ e ∈ come, (getInode t e.ino).isSome
  once : ∀ ino, isDirectory t ino = true →
    names come ino ≤ names gone ino + if ino ∈ born then 1 else 0

theorem Sound.exchange {s t : Tree} {delta : Nat → Int} {born died : Option Nat}
    (hs : Sound s) (gone come : Multiset Entry) (h : Exchange s t delta born died gone come) :
    Sound t := by
  have hcount : ∀ ino, names (entries t) ino + names gone ino =
      names (entries s) ino + names come ino := fun ino => by
    rw [← names_add, h.entries, names_add]
  have hnamed : ∀ e ∈ entries t, (getInode t e.ino).isSome := by
    intro e he
    have hmem : e ∈ entries s + come := h.entries ▸ Multiset.mem_add.mpr (.inl he)
    rcases Multiset.mem_add.mp hmem with hold | hnew
    · -- an entry that was there named a record, which goes only with its last name
      obtain ⟨rec, hrec⟩ := isSome_iff_exists.mp (hs.named e hold)
      have hd : e.ino ∉ died := by
        intro hd
        have hpos := names_pos he
        have hlast := h.death e.ino hd
        have hsum := hcount e.ino
        omega
      obtain ⟨rec', hrec', -⟩ := h.records.kept e.ino hd rec hrec
      exact isSome_iff_exists.mpr ⟨rec', hrec'⟩
    · exact h.refers e hnew
  refine ⟨⟨?_, hnamed⟩, ?_, ?_⟩
  · intro ino rec hrec
    rw [expectedNlink_eq h.records.types_after hnamed hrec]
    rcases h.records.cases hrec with ⟨hb, -⟩ | ⟨hd, rec₀, hrec₀, hm⟩
    · exact h.birth ino hb rec hrec
    · have hbefore := hs.nlink ino rec₀ hrec₀
      rw [expectedNlink_eq h.records.types_before hs.named hrec₀] at hbefore
      have hshare : share (eitherDir s t) (entries t) ino + share (eitherDir s t) gone ino =
          share (eitherDir s t) (entries s) ino + share (eitherDir s t) come ino := by
        rw [← share_add, h.entries, share_add]
      have hbal := h.balance ino (isSome_iff_exists.mpr ⟨rec₀, hrec₀⟩) hd
      have hmoved := hm.nlink
      omega
  · intro ino rec hrec
    rcases h.records.cases hrec with ⟨hb, -⟩ | ⟨-, rec₀, hrec₀, hm⟩
    · obtain ⟨-, rec', hrec', hown⟩ := h.records.fresh ino hb
      rwa [some.inj (hrec.symm.trans hrec')]
    · exact hm.ino.trans (hs.own ino rec₀ hrec₀)
  · intro ino hdir
    have hsum := hcount ino
    have honce := h.once ino hdir
    by_cases hb : ino ∈ born
    · have hzero := hs.names_eq_zero (h.records.fresh ino hb).1
      rw [if_pos hb] at honce
      omega
    · have hbefore := hs.once ino (h.records.isDirectory_before hb hdir)
      rw [if_neg hb] at honce
      omega

end

end EtcFS.Namespace
