import EtcFS.Metadata.Records

/-!
# What the stored formats keep

Lost are the generation of a record, which has no place in the layout, and the arena keys of an
empty node id.
-/

namespace EtcFS.Correctness

open EtcFS.Core Metadata List Option

structure KeysParse : Prop where
  extent : ∀ ino chunk : UInt64,
    parseExtentKey (extentKey ino.toNat chunk.toNat) = some (ino, chunk)
  dirent : ∀ (parent : UInt64) (name : String),
    parseDirentKey (direntKey parent.toNat name) = some (parent, name.toList)
  xattr : ∀ (ino : UInt64) (name : String),
    parseXattrKey (xattrKey ino.toNat name) = some (ino, name.toList)
  inode : ∀ ino : UInt64, parseInodeKey (inodeKey ino.toNat) = some ino
  lockWant : ∀ (ino : UInt64) (node : NodeID),
    parseLockWantKey (lockWantKey ino.toNat node) = some (ino, node.toList)
  arena : ∀ (node : NodeID) (arena : UInt64),
    parseArenaKey (arenaOwnerKey node arena.toNat) = some (node.toList, arena) ↔ node ≠ ""

structure PrefixesApart : Prop where
  extent : ∀ ino ino' chunk : UInt64,
    extentPrefix ino.toNat <+: extentKey ino'.toNat chunk.toNat ↔ ino = ino'
  dirent : ∀ (parent parent' : UInt64) (name : String),
    direntPrefix parent.toNat <+: direntKey parent'.toNat name ↔ parent = parent'
  xattr : ∀ (ino ino' : UInt64) (name : String),
    xattrPrefix ino.toNat <+: xattrKey ino'.toNat name ↔ ino = ino'
  lock : ∀ (ino ino' : UInt64) (mode : LockMode) (holder : Text),
    lockPrefix ino.toNat <+: lockModePrefix ino'.toNat mode ++ holder ↔ ino = ino'

theorem keysParse : KeysParse where
  extent := parseExtentKey_extentKey
  dirent := fun parent name => parseNumberedKey_numberedKey prefixDirent parent name.toList
  xattr := fun ino name => parseNumberedKey_numberedKey prefixXattr ino name.toList
  inode := parseInodeKey_inodeKey
  lockWant := fun ino node => parseNumberedKey_numberedKey _ ino node.toList
  arena := by
    intro node arena
    rw [parseArenaKey_arenaOwnerKey]
    by_cases h : node = ""
    · rw [if_pos h]
      exact iff_of_false (some_ne_none _).symm (not_not.mpr h)
    · rw [if_neg h]
      exact iff_of_true rfl h

theorem prefixesApart : PrefixesApart where
  extent := fun _ _ _ => numberedPrefix_iff.trans UInt64.toNat_inj
  dirent := by
    intro parent parent' name
    have hkey : numberedPrefix prefixDirent parent.toNat <+:
        numberedKey prefixDirent parent'.toNat name.toList ↔ _ := numberedPrefix_iff
    exact hkey.trans UInt64.toNat_inj
  xattr := fun _ _ _ => numberedPrefix_iff.trans UInt64.toNat_inj
  lock := by
    intro ino ino' mode holder
    have hkey : numberedPrefix prefixLock ino.toNat <+:
        numberedKey prefixLock ino'.toNat (mode.text ++ '/' :: holder) ↔ _ := numberedPrefix_iff
    have heq : lockModePrefix ino'.toNat mode ++ holder =
        numberedKey prefixLock ino'.toNat (mode.text ++ '/' :: holder) := by
      simp only [lockModePrefix, lockPrefix, numberedKey, append_assoc, cons_append,
        nil_append]
    rw [heq]
    exact hkey.trans UInt64.toNat_inj

section

variable (r : InodeWords)

theorem decode_encode_iff : InodeWords.decode r.encode = some r ↔ r.generation = 0 := by
  rw [InodeWords.decode_encode, some.injEq]
  exact ⟨fun h => congrArg InodeWords.generation h.symm, fun h => by rw [← h]⟩

theorem decode_take_iff : InodeWords.decode (r.encode.take inodeBytesV1) = some r.wholeSeconds ↔
    r.generation = 0 := by
  rw [InodeWords.decode_take, some.injEq]
  refine ⟨fun h => congrArg InodeWords.generation h.symm, fun h => ?_⟩
  simp only [InodeWords.wholeSeconds, h]

end

theorem decodeExtentText_iff (ino : UInt64) (e : StoredExtent) :
    decodeExtentText (extentKey ino.toNat e.chunk.toNat) e.encode = some e ↔
      e.key = extentKey ino.toNat e.chunk.toNat ∧ e.modRevision = 0 := by
  rw [decodeExtentText_encode, some.injEq]
  constructor
  · intro h
    exact ⟨(congrArg StoredExtent.key h).symm, (congrArg StoredExtent.modRevision h).symm⟩
  · rintro ⟨hkey, hrev⟩
    rw [← hkey, ← hrev]

/-- A record reads back if its generation is zero, and from its first 72 bytes with
whole seconds. An extent reads back under its key, and its revision is etcd's. Keys
parse, and those of two inodes are apart. -/
theorem stored_formats (r : InodeWords) (ino : UInt64) (e : StoredExtent) :
    (InodeWords.decode r.encode = some r ↔ r.generation = 0) ∧
    (InodeWords.decode (r.encode.take inodeBytesV1) = some r.wholeSeconds ↔
      r.generation = 0) ∧
    (decodeExtentText (extentKey ino.toNat e.chunk.toNat) e.encode = some e ↔
      e.key = extentKey ino.toNat e.chunk.toNat ∧ e.modRevision = 0) ∧
    KeysParse ∧ PrefixesApart :=
  ⟨decode_encode_iff r, decode_take_iff r, decodeExtentText_iff ino e, keysParse,
    prefixesApart⟩

def thirdGeneration : InodeWords :=
  ⟨7, 0, 0, 0o100644, 1, 0, 0, 0, 4096, 3, .unix 0, .unix 0, .unix 0⟩

/-- The generation reads back as zero, and the key of a nameless node's arena as no key. -/
theorem generation_lost :
    InodeWords.decode thirdGeneration.encode = some { thirdGeneration with generation := 0 } ∧
      InodeWords.decode thirdGeneration.encode ≠ some thirdGeneration ∧
      parseArenaKey (arenaOwnerKey "" 5) = none := by
  decide +kernel

end EtcFS.Correctness
