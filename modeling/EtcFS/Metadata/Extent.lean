import Mathlib.Data.List.Sort
import Mathlib.Algebra.Group.Nat.Defs

/-!
# Extents and their resolution order

An extent maps a logical byte range onto a range of the shared device. Offsets and lengths are
bounded by every request so that no sum wraps.
-/

namespace EtcFS.Metadata

open List

abbrev NodeID := String

def blockSize : Nat := 4096

structure ExtentValue where
  logOff : Nat
  diskOff : Nat
  length : Nat
  gen : Nat
  seq : Nat
  node : NodeID
  deriving DecidableEq, Repr

structure Extent extends ExtentValue where
  chunk : Nat
  modRevision : Nat
  deriving DecidableEq, Repr

def ExtentValue.endOff (e : ExtentValue) : Nat := e.logOff + e.length

def ExtentValue.end64 (e : ExtentValue) : Nat := (e.logOff + e.length) % 2 ^ 64

def ExtentValue.Covers (e : ExtentValue) (b : Nat) : Prop := e.logOff ≤ b ∧ b < e.endOff
  deriving Decidable

def ExtentValue.devicePos (e : ExtentValue) (b : Nat) : Nat := e.diskOff + (b - e.logOff)

def ExtentValue.Touches (e : ExtentValue) (block : Nat) : Prop :=
  ∃ p, e.diskOff ≤ p ∧ p < e.diskOff + e.length ∧ p / blockSize = block

def ExtentValue.Overlaps (e : ExtentValue) (start stop : Nat) : Prop :=
  e.logOff < stop ∧ start < e.endOff
  deriving Decidable

def extentOrder (a b : Extent) : Ordering :=
  if a.logOff ≠ b.logOff then compare a.logOff b.logOff
  else if a.seq ≠ b.seq then compare b.seq a.seq
  else compare b.chunk a.chunk

def Extent.Before (a b : Extent) : Prop := extentOrder a b = .lt
  deriving Decidable

def Extent.supersedes (e other : Extent) : Bool :=
  other.seq < e.seq && e.logOff ≤ other.logOff && other.end64 ≤ e.end64

def sortExtents (extents : List Extent) : List Extent :=
  extents.insertionSort fun a b => extentOrder a b ≠ .gt

def insertExtent (extents : List Extent) (e : Extent) : List Extent :=
  extents.takeWhile (fun x => x.Before e) ++ e :: extents.dropWhile (fun x => x.Before e)

variable {a b : Extent} {extents : List Extent}

theorem Extent.before_iff : a.Before b ↔ a.logOff < b.logOff ∨ a.logOff = b.logOff ∧
      (b.seq < a.seq ∨ b.seq = a.seq ∧ b.chunk < a.chunk) := by
  unfold Extent.Before extentOrder
  split
  · rw [Nat.compare_eq_lt]
    omega
  · split
    · rw [Nat.compare_eq_lt]
      omega
    · rw [Nat.compare_eq_lt]
      omega

instance : Std.Asymm Extent.Before := ⟨by
  intro a b hab hba
  rw [Extent.before_iff] at hab hba
  omega⟩

theorem Extent.before_trans {c : Extent} (hab : a.Before b) (hbc : b.Before c) : a.Before c := by
  rw [Extent.before_iff] at *
  omega

theorem Extent.before_or_before (h : a.chunk ≠ b.chunk) : a.Before b ∨ b.Before a := by
  rw [Extent.before_iff, Extent.before_iff]
  omega

theorem extentOrder_ne_gt_iff : extentOrder a b ≠ .gt ↔ ¬ b.Before a := by
  rw [Extent.before_iff]
  unfold extentOrder
  split
  · rw [ne_eq, Nat.compare_eq_gt]
    omega
  · split
    · rw [ne_eq, Nat.compare_eq_gt]
      omega
    · rw [ne_eq, Nat.compare_eq_gt]
      omega

def DistinctChunks (extents : List Extent) : Prop := (extents.map Extent.chunk).Nodup
  deriving Decidable

def Ordered (extents : List Extent) : Prop := extents.Pairwise Extent.Before

theorem sortExtents_perm (extents : List Extent) : (sortExtents extents).Perm extents :=
  perm_insertionSort _ _

@[simp] theorem mem_sortExtents {e : Extent} :
    e ∈ sortExtents extents ↔ e ∈ extents := (sortExtents_perm extents).mem_iff

theorem DistinctChunks.perm {xs ys : List Extent} (h : DistinctChunks xs) (hp : xs.Perm ys) :
    DistinctChunks ys := (hp.map _).nodup_iff.mp h

theorem DistinctChunks.eq_of_mem (h : DistinctChunks extents)
    (ha : a ∈ extents) (hb : b ∈ extents) (hc : a.chunk = b.chunk) : a = b :=
  inj_on_of_nodup_map h ha hb hc

theorem sortExtents_ordered (h : DistinctChunks extents) : Ordered (sortExtents extents) := by
  have htotal : Std.Total fun a b => extentOrder a b ≠ .gt := ⟨by
    intro a b
    simp only [extentOrder_ne_gt_iff]
    exact (em (b.Before a)).symm.imp_right fun hba => Std.Asymm.asymm _ _ hba⟩
  have htrans : IsTrans Extent fun a b => extentOrder a b ≠ .gt := ⟨by
    intro a b c
    simp only [extentOrder_ne_gt_iff, Extent.before_iff]
    omega⟩
  have hsorted := pairwise_insertionSort (fun a b => extentOrder a b ≠ .gt) extents
  have hchunks : (sortExtents extents).Pairwise fun a b => a.chunk ≠ b.chunk := by
    have hd := h.perm (sortExtents_perm extents).symm
    rwa [DistinctChunks, List.Nodup, pairwise_map] at hd
  refine (hsorted.and hchunks).imp ?_
  rintro a b ⟨hab, hne⟩
  exact (Extent.before_or_before hne).resolve_right (extentOrder_ne_gt_iff.mp hab)

theorem insertExtent_perm (extents : List Extent) (e : Extent) :
    (insertExtent extents e).Perm (e :: extents) := by
  refine perm_middle.trans ?_
  rw [takeWhile_append_dropWhile]

@[simp] theorem mem_insertExtent {e x : Extent} :
    x ∈ insertExtent extents e ↔ x = e ∨ x ∈ extents := by
  rw [(insertExtent_perm extents e).mem_iff, mem_cons]

theorem insertExtent_ordered {e : Extent} (h : Ordered extents)
    (hfresh : ∀ x ∈ extents, x.chunk ≠ e.chunk) : Ordered (insertExtent extents e) := by
  induction extents with
  | nil => simp [insertExtent, Ordered]
  | cons y ys ih =>
    obtain ⟨hy, hys⟩ := pairwise_cons.mp h
    by_cases hb : y.Before e
    · have hstep : insertExtent (y :: ys) e = y :: insertExtent ys e := by
        simp [insertExtent, hb]
      rw [hstep]
      refine List.Pairwise.cons ?_ (ih hys fun x hx => hfresh x (mem_cons_of_mem _ hx))
      intro x hx
      rcases mem_insertExtent.mp hx with rfl | hx
      · exact hb
      · exact hy x hx
    · have hstep : insertExtent (y :: ys) e = e :: y :: ys := by
        simp [insertExtent, hb]
      have hey : e.Before y :=
        (Extent.before_or_before (hfresh y mem_cons_self)).resolve_left hb
      rw [hstep]
      refine List.Pairwise.cons ?_ h
      intro x hx
      rcases mem_cons.mp hx with rfl | hx
      · exact hey
      · exact Extent.before_trans hey (hy x hx)

theorem Ordered.eq_of_mem_iff {xs ys : List Extent} (hx : Ordered xs) (hy : Ordered ys)
    (h : ∀ e, e ∈ xs ↔ e ∈ ys) : xs = ys := by
  have hnodup : ∀ {zs : List Extent}, Ordered zs → zs.Nodup := by
    intro zs hz
    refine List.Pairwise.imp ?_ hz
    rintro a b hab rfl
    exact Std.Asymm.asymm _ _ hab hab
  have hperm : xs.Perm ys := (perm_ext_iff_of_nodup (hnodup hx) (hnodup hy)).mpr h
  refine hperm.eq_of_pairwise ?_ hx hy
  intro a b _ _ hab hba
  exact absurd hba (Std.Asymm.asymm _ _ hab)

theorem Ordered.logOff_sorted (h : Ordered extents) :
    extents.Pairwise fun a b => a.logOff ≤ b.logOff := by
  refine List.Pairwise.imp ?_ h
  intro a b hab
  rw [Extent.before_iff] at hab
  omega

end EtcFS.Metadata
