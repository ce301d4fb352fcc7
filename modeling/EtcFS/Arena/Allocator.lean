import EtcFS.Metadata.Split
import Mathlib.Algebra.BigOperators.Group.List.Basic

/-!
# Block reservations

The model keeps the bitmap of reserved blocks. Any list of runs that covers a request with free
blocks, each once, is one the allocator may return.
-/

namespace EtcFS.Arena

open Metadata

structure Run where
  diskOff : Nat
  length : Nat
  deriving DecidableEq, Repr

def Run.blocks (r : Run) : List Nat := rangeBlocks r.diskOff r.length

def Run.Whole (r : Run) : Prop := 0 < r.length ∧ blockSize ∣ r.length ∧ blockSize ∣ r.diskOff

instance (r : Run) : Decidable r.Whole := inferInstanceAs (Decidable (_ ∧ _))

def RunsFor (size : Nat) (runs : List Run) : Prop :=
  (∀ r ∈ runs, r.Whole) ∧ (runs.map Run.length).sum = blocksFor size * blockSize
  deriving Decidable

abbrev Bitmap := Nat → Bool

def MayAllocate (a : Bitmap) (size : Nat) (runs : List Run) : Prop :=
  RunsFor size runs ∧ (runs.flatMap Run.blocks).Nodup ∧
    ∀ block ∈ runs.flatMap Run.blocks, a block = false

instance (a : Bitmap) (size : Nat) (runs : List Run) : Decidable (MayAllocate a size runs) :=
  inferInstanceAs (Decidable (_ ∧ _ ∧ _))

def reserve (a : Bitmap) (blocks : List Nat) : Bitmap := fun b => a b || blocks.contains b

def release (a : Bitmap) (blocks : List Nat) : Bitmap := fun b => a b && !blocks.contains b

@[simp] theorem reserve_eq_true {a : Bitmap} {blocks : List Nat} {b : Nat} :
    reserve a blocks b = true ↔ a b = true ∨ b ∈ blocks := by
  simp [reserve]

@[simp] theorem release_eq_true {a : Bitmap} {blocks : List Nat} {b : Nat} :
    release a blocks b = true ↔ a b = true ∧ b ∉ blocks := by
  simp [release]

end EtcFS.Arena
