import EtcFS.Metadata.Keys

/-!
# The scrubber's check of generations

A scrub pass reads all extents and, later, all generations, and reports every extent that is stamped
above the generation of its node.
-/

namespace EtcFS.Scrub

open EtcFS.Core Metadata

structure Snapshot where
  extents : List (Nat × Extent)
  generations : NodeID → Option Nat

structure Result where
  type : Text
  detail : Text
  ino : Nat
  diskOff : Nat
  length : Nat := 0
  key : Text
  modRev : Nat := 0
  autoFix : Bool := false

def decodeAnyExtent : (k : Key) → Versioned (Val k) → Option (Nat × Extent)
  | .extent ino chunk, v => some (ino, ⟨v.value, chunk, v.modRevision⟩)
  | .inode _, _ | .lock _ _ _, _ | .gen _, _ => none

def scan (atExtents atGenerations : Etcd) : Snapshot where
  extents := atExtents.list decodeAnyExtent
  generations node := (atGenerations.get (.gen node)).map Versioned.value

def checkGenerationConsistency (snap : Snapshot) : List Result :=
  snap.extents.filterMap fun (ino, ext) =>
    match snap.generations ext.node with
    | none => none
    | some current =>
      if ext.gen ≤ current then none
      else some
        { type := "generation".toList
          detail := "extent ".toList ++ extentKey ino ext.chunk ++ " stamped gen=".toList ++
            decimal ext.gen ++ ", but ".toList ++ ext.node.toList ++
            " has only reached ".toList ++ decimal current
          ino := ino
          diskOff := ext.diskOff
          key := extentKey ino ext.chunk }

theorem mem_scan_extents {s t : Etcd} {ino : Nat} {ext : Extent}
    (h : (ino, ext) ∈ (scan s t).extents) :
    s.get (.extent ino ext.chunk) = some ⟨ext.toExtentValue, ext.modRevision⟩ := by
  obtain ⟨k, v, hget, hdec⟩ := Store.mem_list.mp h
  cases k with
  | extent i c =>
    cases hdec
    exact hget
  | inode | lock | gen => cases hdec

theorem checkGenerationConsistency_eq_nil {snap : Snapshot}
    (h : ∀ x ∈ snap.extents, ∃ current, snap.generations x.2.node = some current ∧
      x.2.gen ≤ current) : checkGenerationConsistency snap = [] := by
  refine List.filterMap_eq_nil_iff.mpr fun x hx => ?_
  obtain ⟨current, hcurrent, hle⟩ := h x hx
  simp only [hcurrent, if_pos hle]

end EtcFS.Scrub
