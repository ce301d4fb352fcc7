import EtcFS.Namespace.Atomic

/-!
# The transactions of the operations

When an operation gets as far as a transaction, this is what it read and what the transaction
compares and writes.
-/

namespace EtcFS.Namespace

open EtcFS.Core Ipc List
open Metadata hiding Key Val getInode

variable {now : Time} {tx : Txn}

theorem atomicLink_txn {ino parent : Nat} {name : String} {r : Tree}
    (h : atomicLink ino parent name r now = .txn tx) :
    ∃ rec rev, r.get (.inode ino) = some ⟨rec, rev⟩ ∧ ¬ IsDir rec ∧
      tx = ⟨[.absent (.dirent parent name), inodeUnchanged ino rev],
        [.put (.dirent parent name) ino,
          .put (.inode ino) { rec with nlink := rec.nlink + 1, ctime := now }]⟩ := by
  rw [atomicLink] at h
  split at h
  · cases h
  next hget =>
  split at h
  · cases h
  next hd => exact ⟨_, _, hget, hd, (Plan.txn.inj h).symm⟩

theorem atomicUnlink_txn {node : NodeID} {parent : Nat} {name : String} {heldOpen : Bool}
    {r r' : Tree} (h : atomicUnlink node parent name heldOpen r r' now = .txn tx) :
    ∃ ino direntRev rec rev, r.get (.dirent parent name) = some ⟨ino, direntRev⟩ ∧
      r'.get (.inode ino) = some ⟨rec, rev⟩ ∧
      tx = ⟨[.modRevisionEq (.dirent parent name) direntRev, inodeUnchanged ino rev],
        .delete (.dirent parent name) ::
          if rec.nlink ≤ 1 ∧ ¬ IsDir rec ∧ heldOpen = true then
            [.put (.inode ino) { rec with nlink := 0, ctime := now }, .put (.orphan node ino) ()]
          else unlinkInodeOps rec now⟩ := by
  rw [atomicUnlink] at h
  split at h
  · cases h
  next hname =>
  split at h
  · cases h
  next hget => exact ⟨_, _, _, _, hname, hget, (Plan.txn.inj h).symm⟩

theorem atomicRmdir_txn {parent : Nat} {name : String} {r r' r'' : Tree}
    (h : atomicRmdir parent name r r' r'' now = .txn tx) :
    ∃ ino direntRev rec rev, r.get (.dirent parent name) = some ⟨ino, direntRev⟩ ∧
      r'.get (.inode ino) = some ⟨rec, rev⟩ ∧ IsDir rec ∧
      tx = ⟨[.modRevisionEq (.dirent parent name) direntRev, inodeUnchanged ino rev,
          dirEmpty ino], [.delete (.dirent parent name), .delete (.inode ino)]⟩ ++
        adjustDirNlink r'' parent (-1) now := by
  rw [atomicRmdir] at h
  split at h
  · cases h
  next hname =>
  split at h
  · cases h
  next hget =>
  split at h
  · next hd => exact ⟨_, _, _, _, hname, hget, hd, (Plan.txn.inj h).symm⟩
  · cases h

theorem commitInodeTimes_txn {ino : Nat} {u : TimeUpdate} {r : Tree}
    (h : commitInodeTimes ino u r = .txn tx) :
    ∃ rec rev, r.get (.inode ino) = some ⟨rec, rev⟩ ∧
      tx = ⟨[inodeUnchanged ino rev], [.put (.inode ino) (u.apply rec)]⟩ := by
  rw [commitInodeTimes] at h
  split at h
  · cases h
  next hget =>
  split at h
  · cases h
  · exact ⟨_, _, hget, (Plan.txn.inj h).symm⟩

inductive Target (r : RenameArgs) (srcIsDir : Bool) (targetRead victimRead : Tree) (now : Time) :
    Txn → Bool → Prop where
  | free (h : targetRead.get (.dirent r.newParent r.newName) = none) :
    Target r srcIsDir targetRead victimRead now
      ⟨[.absent (.dirent r.newParent r.newName)], []⟩ false
  | dangling (ino rev : Nat)
    (h : targetRead.get (.dirent r.newParent r.newName) = some ⟨ino, rev⟩)
    (hnone : victimRead.get (.inode ino) = none) :
    Target r srcIsDir targetRead victimRead now
      ⟨[.modRevisionEq (.dirent r.newParent r.newName) rev], []⟩ false
  | replaced (ino rev : Nat) (victim : InodeRecord) (victimRev : Nat)
    (h : targetRead.get (.dirent r.newParent r.newName) = some ⟨ino, rev⟩)
    (hvictim : victimRead.get (.inode ino) = some ⟨victim, victimRev⟩)
    (hsame : srcIsDir = decide (IsDir victim)) :
    Target r srcIsDir targetRead victimRead now
      ⟨.modRevisionEq (.dirent r.newParent r.newName) rev ::
          (if IsDir victim then [dirEmpty ino] else []) ++ [inodeUnchanged ino victimRev],
        unlinkInodeOps victim now⟩ (IsDir victim)

def RenameArgs.moves (r : RenameArgs) : List (Op Val) :=
  [.delete (.dirent r.oldParent r.oldName), .put (.dirent r.newParent r.newName) r.ino]

theorem atomicRename_txn {r : RenameArgs} {a b c d e f : Tree}
    (h : atomicRename r a b c d e f now = .txn tx) :
    ∃ target victimIsDir, Target r (isDirectory a r.ino) b c now target victimIsDir ∧
      tx.cmps = .present (.dirent r.oldParent r.oldName) :: target.cmps ++
        (applyRenameNlink r.oldParent r.newParent (isDirectory a r.ino) victimIsDir e f now).cmps ∧
      tx.ops = r.moves ++ target.ops ++
        (applyRenameNlink r.oldParent r.newParent (isDirectory a r.ino) victimIsDir e f now).ops
      := by
  simp only [atomicRename] at h
  split at h
  · cases h
  split at h
  · cases h
  cases hname : b.get (.dirent r.newParent r.newName) with
  | none =>
    simp only [hname] at h
    obtain rfl := Plan.txn.inj h
    exact ⟨_, _, .free hname, rfl, rfl⟩
  | some v =>
    simp only [hname] at h
    split at h
    · cases h
    cases hget : c.get (.inode v.value) with
    | none =>
      simp only [hget] at h
      obtain rfl := Plan.txn.inj h
      exact ⟨_, _, .dangling _ _ hname hget, rfl, rfl⟩
    | some w =>
      simp only [hget] at h
      split at h
      · cases h
      next hnotDir =>
      split at h
      · cases h
      next hisDir =>
      split at h
      · cases h
      obtain rfl := Plan.txn.inj h
      refine ⟨_, _, .replaced _ _ w.value w.modRevision hname hget ?_, ?_, ?_⟩
      · by_cases hd : IsDir w.value
        · simp only [hd, and_true, Bool.not_eq_true, Bool.not_eq_false] at hisDir
          simp [hd, hisDir]
        · simp only [hd, not_false_eq_true, and_true, Bool.not_eq_true] at hnotDir
          simp [hd, hnotDir]
      · simp
      · simp [RenameArgs.moves]

theorem adjustDirNlink_puts {s : Tree} {p : Nat} {delta : Int} {now : Time} {o : Op Val}
    (ho : o ∈ (adjustDirNlink s p delta now).ops) : ∃ rec, o = .put (.inode p) rec := by
  rw [adjustDirNlink] at ho
  cases hget : s.get (.inode p) with
  | none =>
    rw [hget] at ho
    cases ho
  | some v =>
    simp only [hget] at ho
    split at ho
    · exact ⟨_, mem_singleton.mp ho⟩
    · split at ho
      · exact ⟨_, mem_singleton.mp ho⟩
      · cases ho

end EtcFS.Namespace
