import EtcFS.Metadata.LockKeys

/-!
# Textual keys and their parsers

A number before a `/` is read back at the first separator, an arena key at its last one, since a
node id may contain the separator.
-/

namespace EtcFS.Metadata

open EtcFS.Core List Option

def numberedPrefix (word : Text) (ino : Nat) : Text := word ++ (decimal ino ++ ['/'])

def numberedKey (word : Text) (ino : Nat) (name : Text) : Text :=
  word ++ (decimal ino ++ '/' :: name)

def parseNumberedKey (word key : Text) : Option (UInt64 × Text) := do
  let rest ← cutPrefix word key
  let (ino, name) ← cut '/' rest
  let ino ← parseUint ino
  some (ino, name)

def prefixExtent : Text := "extent:".toList

def extentKey (ino chunk : Nat) : Text := numberedKey prefixExtent ino (decimal chunk)

def extentPrefix (ino : Nat) : Text := numberedPrefix prefixExtent ino

def parseExtentKey (key : Text) : Option (UInt64 × UInt64) := do
  let (ino, name) ← parseNumberedKey prefixExtent key
  let chunk ← parseUint name
  some (ino, chunk)

def prefixDirent : Text := "dirent:".toList

def direntPrefix (parent : Nat) : Text := numberedPrefix prefixDirent parent

def parseDirentKey (key : Text) : Option (UInt64 × Text) := parseNumberedKey prefixDirent key

def prefixXattr : Text := "xattr:".toList

def xattrKey (ino : Nat) (name : String) : Text := numberedKey prefixXattr ino name.toList

def xattrPrefix (ino : Nat) : Text := numberedPrefix prefixXattr ino

def parseXattrKey (key : Text) : Option (UInt64 × Text) := parseNumberedKey prefixXattr key

def parseInodeKey (key : Text) : Option UInt64 := (cutPrefix "inode:".toList key).bind parseUint

def parseLockWantKey (key : Text) : Option (UInt64 × Text) :=
  parseNumberedKey "lock_want:".toList key

def nodePrefix (word : Text) (node : NodeID) : Text := word ++ (node.toList ++ ['/'])

def nodeKey (word : Text) (node : NodeID) (n : Nat) : Text :=
  word ++ (node.toList ++ '/' :: decimal n)

def prefixArena : Text := "arena:".toList

def arenaOwnerKey (node : NodeID) (arena : Nat) : Text := nodeKey prefixArena node arena

def arenaNodePrefix (node : NodeID) : Text := nodePrefix prefixArena node

def parseArenaKey (key : Text) : Option (Text × UInt64) := do
  let rest ← cutPrefix prefixArena key
  let (node, arena) ← cutLast '/' rest
  if node = [] then none
  else
    let arena ← parseUint arena
    some (node, arena)

def prefixOrphan : Text := "orphan:".toList

def orphanKey (node : NodeID) (ino : Nat) : Text := nodeKey prefixOrphan node ino

def orphanPrefix (node : NodeID) : Text := nodePrefix prefixOrphan node

/-! ## Keys under a number -/

theorem slash_not_mem_decimal (n : Nat) : '/' ∉ decimal n := not_mem_decimal (by decide) n

theorem parseNumberedKey_numberedKey (word : Text) (ino : UInt64) (name : Text) :
    parseNumberedKey word (numberedKey word ino.toNat name) = some (ino, name) := by
  simp only [parseNumberedKey, numberedKey, cutPrefix_append,
    cut_append (slash_not_mem_decimal _), parseUint_decimal, bind_eq_bind,
    bind_some]

theorem numberedPrefix_iff {word : Text} {ino ino' : Nat} {name : Text} :
    numberedPrefix word ino <+: numberedKey word ino' name ↔ ino = ino' := by
  rw [numberedPrefix, numberedKey, prefix_append_right_inj]
  constructor
  · intro h
    exact decimal_inj (field_eq_of_begins (slash_not_mem_decimal _) (slash_not_mem_decimal _) h)
  · rintro rfl
    exact (prefix_append_right_inj _).mpr (prefix_append ['/'] name)

theorem parseExtentKey_extentKey (ino chunk : UInt64) :
    parseExtentKey (extentKey ino.toNat chunk.toNat) = some (ino, chunk) := by
  simp only [parseExtentKey, extentKey, parseNumberedKey_numberedKey, parseUint_decimal,
    bind_eq_bind, bind_some]

theorem parseExtentKey_eq_some {ino chunk : Nat} {i c : UInt64}
    (h : parseExtentKey (extentKey ino chunk) = some (i, c)) :
    i.toNat = ino ∧ c.toNat = chunk := by
  simp only [parseExtentKey, extentKey, parseNumberedKey, numberedKey, cutPrefix_append,
    cut_append (slash_not_mem_decimal _), bind_eq_bind, bind_some,
    bind_eq_some_iff, some.injEq] at h
  obtain ⟨⟨i', name⟩, ⟨_, hi, hname⟩, c', hc, heq⟩ := h
  cases hname
  cases heq
  exact ⟨parseUint_eq_some hi, parseUint_eq_some hc⟩

theorem parseUint_cutPrefix (word : Text) (n : UInt64) :
    (cutPrefix word (word ++ decimal n.toNat)).bind parseUint = some n := by
  rw [cutPrefix_append, bind_some, parseUint_decimal]

theorem parseInodeKey_inodeKey (ino : UInt64) : parseInodeKey (inodeKey ino.toNat) = some ino :=
  parseUint_cutPrefix _ ino

/-! ## Keys of a node -/

theorem parseArenaKey_arenaOwnerKey (node : NodeID) (arena : UInt64) :
    parseArenaKey (arenaOwnerKey node arena.toNat) =
      if node = "" then none else some (node.toList, arena) := by
  simp only [parseArenaKey, arenaOwnerKey, nodeKey, cutPrefix_append,
    cutLast_append _ (slash_not_mem_decimal _), parseUint_decimal, bind_eq_bind,
    bind_some, String.toList_eq_nil_iff]

theorem nodePrefix_iff {word : Text} {node node' : NodeID} {n : Nat} :
    nodePrefix word node <+: nodeKey word node' n ↔
      node = node' ∨ node.toList ++ ['/'] <+: node'.toList := by
  rw [nodePrefix, nodeKey, prefix_append_right_inj,
    begins_append_iff (slash_not_mem_decimal n), String.toList_inj]

theorem nodeKey_inj {word : Text} {node node' : NodeID} {n n' : Nat} :
    nodeKey word node n = nodeKey word node' n' ↔ node = node' ∧ n = n' := by
  constructor
  · intro h
    have hcut := congrArg (cutLast '/') (append_cancel_left h)
    rw [cutLast_append _ (slash_not_mem_decimal n), cutLast_append _ (slash_not_mem_decimal n'),
      some.injEq, Prod.mk.injEq, String.toList_inj] at hcut
    exact ⟨hcut.1, decimal_inj hcut.2⟩
  · rintro ⟨rfl, rfl⟩
    rfl

end EtcFS.Metadata
