import EtcFS.Scrub.Consistency

/-!
# The scrubber's checks of extents

Neighbours by device offset are compared, and extents are looked for that have no inode, lie past
the end of their file, or are covered.
-/

namespace EtcFS.Scrub

open EtcFS.Core Metadata List

def keyOf (x : Nat × Extent) : Text := extentKey x.1 x.2.chunk

def diskEnd64 (e : Extent) : Nat := (e.diskOff + e.length) % 2 ^ 64

def collision (prev cur : Nat × Extent) : Result where
  type := "collision".toList
  detail := "extent ".toList ++ keyOf cur ++ " (ino ".toList ++ decimal cur.1 ++ ") at ".toList ++
    decimal cur.2.diskOff ++ "+".toList ++ decimal cur.2.length ++ " overlaps ".toList ++
    keyOf prev ++ " (ino ".toList ++ decimal prev.1 ++ ") at ".toList ++
    decimal prev.2.diskOff ++ "+".toList ++ decimal prev.2.length
  ino := cur.1
  diskOff := cur.2.diskOff
  key := keyOf cur

def adjacentCollisions : List (Nat × Extent) → List Result
  | prev :: cur :: rest =>
    if diskEnd64 prev.2 ≤ cur.2.diskOff then adjacentCollisions (cur :: rest)
    else if keyOf prev = keyOf cur then adjacentCollisions (cur :: rest)
    else collision prev cur :: adjacentCollisions (cur :: rest)
  | [] | [_] => []

def checkExtentCollisions (extents : List (Nat × Extent)) : List Result :=
  adjacentCollisions (extents.insertionSort fun x y => x.2.diskOff ≤ y.2.diskOff)

def checkOrphanExtents (extents : List (Nat × Extent)) (inodes : Nat → Option InodeRecord) :
    List Result :=
  extents.filterMap fun x =>
    if (inodes x.1).isSome then none
    else some
      { type := "orphan".toList
        detail := "extent ".toList ++ keyOf x ++ " has no inode reference".toList
        ino := x.1
        diskOff := x.2.diskOff
        length := x.2.length
        key := keyOf x
        modRev := x.2.modRevision
        autoFix := true }

def deadReason (ino : Nat) (ext : Extent) (size : Nat) (siblings : List Extent) : Text :=
  if ext.logOff ≥ size then
    "it starts at ".toList ++ decimal ext.logOff ++ ", past the file size of ".toList ++
      decimal size
  else
    match siblings.find? fun other => other.supersedes ext with
    | some other => "extent ".toList ++ keyOf (ino, other) ++ " overwrote it".toList
    | none => []

def ofInode (extents : List (Nat × Extent)) (ino : Nat) : List Extent :=
  (extents.filter fun x => x.1 = ino).map Prod.snd

def checkDeadExtents (extents : List (Nat × Extent)) (inodes : Nat → Option InodeRecord) :
    List Result :=
  extents.filterMap fun x =>
    match inodes x.1 with
    | none => none
    | some rec =>
      let reason := deadReason x.1 x.2 rec.size (ofInode extents x.1)
      if reason = [] then none
      else some
        { type := "dead".toList
          detail := "extent ".toList ++ keyOf x ++ " is unreachable: ".toList ++ reason
          ino := x.1
          diskOff := x.2.diskOff
          length := x.2.length
          key := keyOf x
          modRev := x.2.modRevision
          autoFix := true }

theorem deadReason_ne_nil_iff {ino size : Nat} {ext : Extent} {siblings : List Extent} :
    deadReason ino ext size siblings ≠ [] ↔
      size ≤ ext.logOff ∨ ∃ other ∈ siblings, other.supersedes ext = true := by
  rw [deadReason]
  split
  · rename_i hpast
    refine iff_of_true ?_ (.inl hpast)
    exact append_ne_nil_of_left_ne_nil (append_ne_nil_of_left_ne_nil
      (append_ne_nil_of_left_ne_nil (by decide) _) _) _
  · rename_i hpast
    rw [or_iff_right hpast]
    cases hfind : siblings.find? fun other => other.supersedes ext with
    | some other =>
      have hsup := find?_some hfind
      refine iff_of_true ?_ ⟨other, mem_of_find?_eq_some hfind, hsup⟩
      exact append_ne_nil_of_left_ne_nil (append_ne_nil_of_left_ne_nil (by decide) _) _
    | none =>
      refine iff_of_false (fun h => h rfl) ?_
      rintro ⟨other, hmem, hsup⟩
      exact find?_eq_none.mp hfind other hmem hsup

end EtcFS.Scrub
