import EtcFS.Core.Traversal
import EtcFS.Metadata.Keys
import EtcFS.Namespace.Tree
import Mathlib.Algebra.BigOperators.Group.Finset.Basic
import Mathlib.Algebra.Order.BigOperators.Group.Finset
import Mathlib.Data.Finset.Card

/-!
# Usage beneath the quota roots

The namespace is built from a scan of the entries, with cycles and dangling names if there are any,
and walked once from each quota root.
-/

namespace EtcFS.Quota

open EtcFS.Core Metadata Relation List Option

/-! ## The walk -/

structure Limits where
  bytes : UInt64
  inodes : UInt64
  deriving DecidableEq, Repr

structure Usage where
  root : UInt64
  limits : Limits
  bytes : UInt64
  inodes : UInt64
  deriving DecidableEq, Repr

structure Tree where
  children : UInt64 → List UInt64

/-- Models `BuildTree`: a key without a target ends the loop, one that is not the key of an
entry is passed over. -/
def buildTree (direntKeys : List Text) (targets : List UInt64) : Tree :=
  (direntKeys.zip targets).foldl (fun t kt =>
    match parseDirentKey kt.1 with
    | some (parent, _) => ⟨Function.update t.children parent (t.children parent ++ [kt.2])⟩
    | none => t) ⟨fun _ => []⟩

def Usage.charge (inodes : UInt64 → Option InodeRecord) (u : Usage) (ino : UInt64) : Usage :=
  if ino ≠ u.root then
    match inodes ino with
    | some rec =>
      { u with
        inodes := u.inodes + 1
        bytes := if Namespace.IsDir rec then u.bytes else u.bytes + UInt64.ofNat rec.size }
    | none => u
  else u

def computeRoot (fuel : Nat) (tree : Tree) (inodes : UInt64 → Option InodeRecord)
    (q : UInt64 × Limits) : Option Usage :=
  traverse tree.children (Usage.charge inodes) fuel [q.1] ∅ ⟨q.1, q.2, 0, 0⟩

/-- Models `Compute`, with the roots in the order in which the map yields them. -/
def compute (fuel : Nat) (tree : Tree) (inodes : UInt64 → Option InodeRecord)
    (limits : List (UInt64 × Limits)) : Option (List Usage) :=
  limits.mapM (computeRoot fuel tree inodes)

/-! ## The entries as a graph -/

def edges (direntKeys : List Text) (targets : List UInt64) : List (UInt64 × UInt64) :=
  (direntKeys.zip targets).filterMap fun kt => (parseDirentKey kt.1).map fun pn => (pn.1, kt.2)

theorem children_buildTree (keys : List Text) (targets : List UInt64) :
    (buildTree keys targets).children = succs (edges keys targets) := by
  rw [buildTree, edges]
  induction keys.zip targets using reverseRecOn with
  | nil => rfl
  | append_singleton l kt ih =>
    rw [foldl_concat, filterMap_append]
    cases hkey : parseDirentKey kt.1 with
    | none => simp [hkey, ih]
    | some pn =>
      funext p
      by_cases hp : pn.1 = p
      · subst hp
        simp [hkey, ih, succs]
      · simp [hkey, ih, succs, hp, Function.update_of_ne (Ne.symm hp)]

theorem length_edges_le (keys : List Text) (targets : List UInt64) :
    (edges keys targets).length ≤ keys.length := by
  refine (length_filterMap_le ..).trans ?_
  rw [length_zip]
  exact Nat.min_le_left ..

/-! ## What is charged -/

def bytesOf (inodes : UInt64 → Option InodeRecord) (ino : UInt64) : Nat :=
  (inodes ino).elim 0 fun rec => if Namespace.IsDir rec then 0 else rec.size

def named (es : List (UInt64 × UInt64)) : Finset UInt64 := (es.map Prod.snd).toFinset

open Classical in
/-- The inodes with a record that some path of entries leads to, apart from the root. -/
noncomputable def charged (es : List (UInt64 × UInt64)) (inodes : UInt64 → Option InodeRecord)
    (root : UInt64) : Finset UInt64 :=
  (named es).filter fun x =>
    TransGen (fun p c => (p, c) ∈ es) root x ∧ x ≠ root ∧ (inodes x).isSome = true

section

variable {inodes : UInt64 → Option InodeRecord} {es : List (UInt64 × UInt64)} {root : UInt64}

theorem mem_charged {x : UInt64} : x ∈ charged es inodes root ↔
    ReflTransGen (fun p c => (p, c) ∈ es) root x ∧ x ≠ root ∧ (inodes x).isSome = true := by
  classical
  rw [charged, Finset.mem_filter, reflTransGen_iff_eq_or_transGen]
  constructor
  · rintro ⟨-, hpath, hne, hrec⟩
    exact ⟨.inr hpath, hne, hrec⟩
  · rintro ⟨hpath, hne, hrec⟩
    have hpath := hpath.resolve_left hne
    obtain ⟨p, -, hlast⟩ := TransGen.tail'_iff.mp hpath
    exact ⟨mem_toFinset.mpr (mem_map.mpr ⟨_, hlast, rfl⟩), hpath, hne, hrec⟩

theorem charged_subset : charged es inodes root ⊆ named es := by
  classical
  exact Finset.filter_subset ..

theorem root_charge (inodes : UInt64 → Option InodeRecord) (u : Usage) (ino : UInt64) :
    (u.charge inodes ino).root = u.root ∧
    (u.charge inodes ino).limits = u.limits := by
  unfold Usage.charge
  split_ifs
  · split <;> exact ⟨rfl, rfl⟩
  · exact ⟨rfl, rfl⟩

/-- What is charged for a list of inodes, as numbers that have not wrapped. -/
theorem foldl_charge (inodes : UInt64 → Option InodeRecord) (u : Usage) (l : List UInt64) :
    let charges := l.filter fun x => x ≠ u.root ∧ (inodes x).isSome = true
    let v := l.foldl (Usage.charge inodes) u
    v.root = u.root ∧ v.limits = u.limits ∧
      v.inodes.toNat = (u.inodes.toNat + charges.length) % 2 ^ 64 ∧
      v.bytes.toNat = (u.bytes.toNat + (charges.map (bytesOf inodes)).sum) % 2 ^ 64 := by
  induction l generalizing u with
  | nil => exact ⟨rfl, rfl, (Nat.mod_eq_of_lt u.inodes.toNat_lt).symm,
      (Nat.mod_eq_of_lt u.bytes.toNat_lt).symm⟩
  | cons x l ih =>
    obtain ⟨hroot, hlimits⟩ := root_charge inodes u x
    obtain ⟨ihroot, ihlimits, ihinodes, ihbytes⟩ := ih (u.charge inodes x)
    rw [hroot] at ihroot ihinodes ihbytes
    refine ⟨ihroot, ihlimits.trans hlimits, ?_, ?_⟩
    · rw [foldl_cons, ihinodes, filter_cons]
      by_cases hx : x = u.root
      · simp [Usage.charge, hx]
      · cases hrec : inodes x with
        | none => simp [Usage.charge, hx, hrec]
        | some rec =>
          simp only [Usage.charge, hx, hrec, ne_eq, not_false_eq_true, if_true, isSome_some,
            and_self, decide_true, UInt64.toNat_add, length_cons, UInt64.toNat_one]
          omega
    · rw [foldl_cons, ihbytes, filter_cons]
      by_cases hx : x = u.root
      · simp [Usage.charge, hx]
      · cases hrec : inodes x with
        | none => simp [Usage.charge, hx, hrec]
        | some rec =>
          by_cases hdir : Namespace.IsDir rec
          · simp [Usage.charge, bytesOf, hx, hrec, hdir]
          · simp only [Usage.charge, bytesOf, hx, hrec, hdir, ne_eq, not_false_eq_true, if_true,
              if_false, isSome_some, and_self, decide_true, map_cons, sum_cons,
              elim_some, UInt64.toNat_add, UInt64.toNat_ofNat']
            omega

theorem card_charged_lt : (charged es inodes root).card < 2 ^ 64 := by
  have hsub : (charged es inodes root).image UInt64.toNat ⊆
      (Finset.range (2 ^ 64)).erase root.toNat := by
    intro n hn
    obtain ⟨x, hx, rfl⟩ := Finset.mem_image.mp hn
    have hne := (mem_charged.mp hx).2.1
    exact Finset.mem_erase.mpr ⟨fun h => hne (UInt64.toNat_inj.mp h),
      Finset.mem_range.mpr x.toNat_lt⟩
  have hcard := Finset.card_le_card hsub
  rw [Finset.card_image_of_injective _ fun x y => UInt64.toNat_inj.mp,
    Finset.card_erase_of_mem (Finset.mem_range.mpr root.toNat_lt), Finset.card_range] at hcard
  exact Nat.lt_of_le_of_lt hcard (by decide)

theorem computeRoot_eq {keys : List Text} {targets : List UInt64} {fuel : Nat}
    (hsize : ∑ x ∈ named (edges keys targets), bytesOf inodes x < 2 ^ 64)
    (hfuel : keys.length < fuel) (q : UInt64 × Limits) :
    ∃ u, computeRoot fuel (buildTree keys targets) inodes q = some u ∧
      u.root = q.1 ∧ u.limits = q.2 ∧
      u.inodes.toNat = (charged (edges keys targets) inodes q.1).card ∧
      u.bytes.toNat = ∑ x ∈ charged (edges keys targets) inodes q.1, bytesOf inodes x := by
  obtain ⟨l, hnodup, hmem, hwalk⟩ := traverse_from (Usage.charge inodes) ⟨q.1, q.2, 0, 0⟩ q.1
    (Nat.lt_of_le_of_lt (length_edges_le keys targets) hfuel)
  rw [← children_buildTree] at hwalk
  obtain ⟨hroot, hlimits, hinodes, hbytes⟩ :=
    foldl_charge inodes ⟨q.1, q.2, 0, 0⟩ l
  have hcharged : (l.filter fun x => x ≠ q.1 ∧ (inodes x).isSome = true).toFinset =
      charged (edges keys targets) inodes q.1 := by
    ext x
    simp only [List.mem_toFinset, mem_filter, hmem, decide_eq_true_eq, mem_charged]
  have hnodup := hnodup.filter fun x => x ≠ q.1 ∧ (inodes x).isSome = true
  have hsum : ∑ x ∈ charged (edges keys targets) inodes q.1, bytesOf inodes x < 2 ^ 64 :=
    Nat.lt_of_le_of_lt (Finset.sum_le_sum_of_subset charged_subset) hsize
  refine ⟨_, hwalk, hroot, hlimits, ?_, ?_⟩
  · rw [hinodes, ← toFinset_card_of_nodup hnodup, hcharged]
    simpa using Nat.mod_eq_of_lt card_charged_lt
  · rw [hbytes, ← sum_toFinset _ hnodup, hcharged]
    simpa using Nat.mod_eq_of_lt hsum

end

/-- Every walk ends, and each root is charged for each inode with a record that a path of
entries leads to, other than itself, once: one inode, and its size unless it is a directory.
What is charged depends on the set of the entries alone. -/
theorem compute_eq {keys : List Text} {targets : List UInt64}
    {inodes : UInt64 → Option InodeRecord} (limits : List (UInt64 × Limits)) {fuel : Nat}
    (hsize : ∑ x ∈ named (edges keys targets), bytesOf inodes x < 2 ^ 64)
    (hfuel : keys.length < fuel) :
    ∃ us, compute fuel (buildTree keys targets) inodes limits = some us ∧
      List.Forall₂ (fun q u => u.root = q.1 ∧ u.limits = q.2 ∧
        u.inodes.toNat = (charged (edges keys targets) inodes q.1).card ∧
        u.bytes.toNat = ∑ x ∈ charged (edges keys targets) inodes q.1, bytesOf inodes x)
        limits us := by
  induction limits with
  | nil => exact ⟨[], rfl, .nil⟩
  | cons q limits ih =>
    obtain ⟨u, hu, hq⟩ := computeRoot_eq hsize hfuel q
    obtain ⟨us, hus, hrest⟩ := ih
    refine ⟨u :: us, ?_, .cons hq hrest⟩
    rw [compute] at hus ⊢
    simp [hu, hus]

def sampleFile (ino : UInt64) : Option InodeRecord :=
  if ino = 7 then some ⟨7, 10, 8, 0o100644, 2, 0, 0, 0, 4096, 0, 0, 0⟩ else none

def loopKeys : List Text := [direntKey 5 "x", direntKey 6 "y", direntKey 6 "z", direntKey 5 "z"]

theorem compute_eq_loop :
    compute 5 (buildTree loopKeys [6, 5, 7, 7]) sampleFile [(5, ⟨0, 0⟩)] =
        some [⟨5, ⟨0, 0⟩, 10, 1⟩] ∧
      (charged (edges loopKeys [6, 5, 7, 7]) sampleFile 5).card = 1 := by
  have hrun : compute 5 (buildTree loopKeys [6, 5, 7, 7]) sampleFile [(5, ⟨0, 0⟩)] =
      some [⟨5, ⟨0, 0⟩, 10, 1⟩] := by decide +kernel
  obtain ⟨us, hus, hcharges⟩ := compute_eq [(5, ⟨0, 0⟩)]
    (by decide +kernel : ∑ x ∈ named (edges loopKeys [6, 5, 7, 7]), bytesOf sampleFile x < 2 ^ 64)
    (by decide : loopKeys.length < 5)
  cases hrun.symm.trans hus
  cases hcharges with
  | cons hcharge _ => exact ⟨hrun, hcharge.2.2.1.symm⟩

end EtcFS.Quota
