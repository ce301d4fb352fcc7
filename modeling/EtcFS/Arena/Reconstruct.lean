import EtcFS.Arena.Search
import EtcFS.Core.Bytes
import EtcFS.Core.Transition

/-!
# Rebuilding the arenas at the start

A node that starts reads which arenas it owns and marks the blocks of every extent in them, while
extents come and go in etcd.
-/

namespace EtcFS.Metadata

def ExtentValue.deviceBlocks (e : ExtentValue) : List Nat :=
  if e.length = 0 then []
  else List.range' (e.diskOff / blockSize)
    ((e.diskOff + e.length - 1) / blockSize - e.diskOff / blockSize + 1)

theorem ExtentValue.mem_deviceBlocks {e : ExtentValue} {b : Nat} :
    b ∈ e.deviceBlocks ↔ e.Touches b := by
  rw [deviceBlocks, Touches]
  split
  · rename_i hl
    refine iff_of_false (List.not_mem_nil) ?_
    rintro ⟨p, hlo, hhi, -⟩
    omega
  · rw [List.mem_range'_1]
    simp only [blockSize]
    constructor
    · intro h
      exact ⟨max e.diskOff (b * 4096), by omega, by omega, by omega⟩
    · rintro ⟨p, hlo, hhi, rfl⟩
      omega

def touched (extents : List ExtentValue) : List Nat := extents.flatMap ExtentValue.deviceBlocks

theorem mem_touched {extents : List ExtentValue} {b : Nat} :
    b ∈ touched extents ↔ ∃ e ∈ extents, b ∈ e.deviceBlocks := List.mem_flatMap

def ExtentValue.withinDisk (e : ExtentValue) (start stop : Nat) : Bool :=
  start ≤ e.diskOff && (e.diskOff + e.length) % 2 ^ 64 ≤ stop

end EtcFS.Metadata

namespace EtcFS.Arena

open EtcFS.Core Metadata List

def fresh (i : Nat) : Arena := ⟨i, fun _ => 0#64, 0⟩

def markLiveExtent (ar : Arena) (e : ExtentValue) : Arena :=
  if e.withinDisk ar.diskStart ar.diskEnd then
    let start := (e.diskOff - ar.diskStart) / blockSize
    ar.markRun start (min (blocksFor64 e.length) (blocksPerArena - start))
  else ar

def markLiveExtents (ar : Arena) (extents : List ExtentValue) : Arena :=
  extents.foldl markLiveExtent ar

def decodeUint64 (value : List UInt8) : Nat := Bytes.le value.reverse

def existingArenaIDs (values : List (List UInt8)) : List Nat :=
  values.filterMap fun v => if v.length = 8 then some (decodeUint64 v) else none

def reconstruct (records : Option (List (List UInt8))) (extents : Option (List ExtentValue))
    (arenas : List Arena) : Bool × List Arena :=
  match records with
  | none => (false, arenas)
  | some values =>
    -- the arenas are installed before the extents are read
    let installed := (existingArenaIDs values).map fresh
    match extents with
    | none => (false, installed)
    | some extents => (true, installed.map (markLiveExtents · extents))

def acquireArena (deviceSize : Nat) (arenas : List Arena) (extents : List ExtentValue) (i : Nat)
    (reused recorded answered : Bool) : List Arena :=
  if 0 < deviceSize ∧ deviceSize < arenaSizeBytes then arenas
  else if 0 < deviceSize ∧ deviceSize < (fresh i).diskEnd then arenas
  else if !recorded then arenas
  else if !reused then arenas ++ [fresh i]
  else if answered then arenas ++ [markLiveExtents (fresh i) extents]
  else arenas

def isEmpty (ar : Arena) : Bool := (range (blocksPerArena / 64)).all (ar.bitmap · == 0#64)

inductive ReleaseReply where
  | released
  | refused
  | failed
  deriving DecidableEq, Repr

def reattached : List Arena → List ReleaseReply → List Arena
  | [], _ => []
  | _ :: empty, .released :: replies => reattached empty replies
  | ar :: empty, .refused :: replies => ar :: reattached empty replies
  | ar :: _, .failed :: _ | ar :: _, [] => [ar]

def releaseEmptyArenas (arenas : List Arena) (replies : List ReleaseReply) : List Arena :=
  arenas.filter (!isEmpty ·) ++ reattached (arenas.filter isEmpty) replies

/-! ## The life of an allocator -/

structure Life where
  deviceSize : Nat
  arenas : List Arena
  extents : List ExtentValue
  handed : List Nat

inductive LifeStep where
  | allocate (size : Nat)
  | free (diskOff size : Nat)
  | acquire (i : Nat) (reused recorded answered : Bool)
  | release (replies : List ReleaseReply)
  /-- A transaction, of this node or another, leaves these extents. -/
  | publish (extents : List ExtentValue)
  deriving DecidableEq, Repr

def freedBlocks (diskOff size : Nat) : List Nat :=
  range' (diskOff / blockSize) (blocksFor64 size)

def allocatorLife : Machine Life LifeStep where
  step s
    | .allocate size =>
      some { s with arenas := (allocate s.arenas size).2,
                    handed := s.handed ++ ((allocate s.arenas size).1.getD []).flatMap Run.blocks }
    | .free diskOff size =>
      some { s with arenas := freeLocked diskOff size s.arenas,
                    handed := s.handed.filter (· ∉ freedBlocks diskOff size) }
    | .acquire i reused recorded answered =>
      some { s with arenas := acquireArena s.deviceSize s.arenas s.extents i reused recorded
                      answered }
    | .release replies => some { s with arenas := releaseEmptyArenas s.arenas replies }
    | .publish extents =>
      if ∀ b ∈ touched extents, b ∈ touched s.extents ∨ b ∈ s.handed ∨
          ∀ ar ∈ s.arenas, ¬ ar.Has b then
        some { s with extents := extents }
      else none

inductive ReconstructRead where
  | records
  | extents
  deriving DecidableEq, Repr

def restarted (deviceSize : Nat) (records : List (List UInt8)) (extents : List ExtentValue)
    (fault : Option ReconstructRead) : Life where
  deviceSize := deviceSize
  arenas := (reconstruct (if fault = some .records then none else some records)
    (if fault = some .extents then none else some extents) []).2
  extents := extents
  handed := []

theorem acquireArena_cases (deviceSize : Nat) (arenas : List Arena) (extents : List ExtentValue)
    (i : Nat) (reused recorded answered : Bool) :
    acquireArena deviceSize arenas extents i reused recorded answered = arenas ∨
      (reused = false ∧ acquireArena deviceSize arenas extents i reused recorded answered =
        arenas ++ [fresh i]) ∨
      (reused = true ∧ acquireArena deviceSize arenas extents i reused recorded answered =
        arenas ++ [markLiveExtents (fresh i) extents]) := by
  rw [acquireArena]
  split
  · exact .inl rfl
  · split
    · exact .inl rfl
    · cases recorded <;> cases reused <;> cases answered <;> simp

/-! ## What is marked -/

def ShownIn (i : Nat) (e : ExtentValue) : Prop :=
  i * arenaSizeBytes ≤ e.diskOff ∧ e.diskOff + e.length ≤ (i + 1) * arenaSizeBytes ∧
    e.diskOff % blockSize + e.length ≤ blocksFor e.length * blockSize
  deriving Decidable

def InArena (i : Nat) (e : ExtentValue) : Prop :=
  (fresh i).diskStart ≤ e.diskOff ∧ e.diskOff + e.length ≤ (fresh i).diskEnd
  deriving Decidable

def Placed (e : ExtentValue) : Prop := (∃ i, InArena i e) ∧ blockSize ∣ e.diskOff

def MarksExactly (extents : List ExtentValue) (ar : Arena) : Prop :=
  ∀ b, ar.Has b → (¬ ar.Free b ↔ b ∈ touched extents)

section

variable {ar : Arena} {extents : List ExtentValue} {e : ExtentValue} {b : Nat}

theorem markLiveExtent_ids (ar : Arena) (e : ExtentValue) :
    (markLiveExtent ar e).arenaID = ar.arenaID ∧ (markLiveExtent ar e).hint = ar.hint := by
  rw [markLiveExtent]
  split <;> exact ⟨rfl, rfl⟩

theorem free_of_markLiveExtent (h : (markLiveExtent ar e).Free b) : ar.Free b := by
  rw [markLiveExtent] at h
  split at h
  · exact ⟨h.1, (Words.isClear_setRange.mp h.2).1⟩
  · exact h

theorem not_free_markLiveExtent (hi : ar.arenaID + 1 < 2 ^ 34) (he : ShownIn ar.arenaID e)
    (hb : b ∈ e.deviceBlocks) : ¬ (markLiveExtent ar e).Free b := by
  obtain ⟨hlo, hhi, hblocks⟩ := he
  obtain ⟨p, hp, hp', rfl⟩ := ExtentValue.mem_deviceBlocks.mp hb
  have hfirst := firstBlock_of_lt hi
  have hend : ar.diskEnd = (ar.arenaID + 1) * arenaSizeBytes := by
    refine Nat.mod_eq_of_lt ?_
    simp only [arenaSizeBytes]
    omega
  have hstart : ar.diskStart = ar.arenaID * arenaSizeBytes := by
    refine Nat.mod_eq_of_lt ?_
    simp only [arenaSizeBytes]
    omega
  have hwithin : e.withinDisk ar.diskStart ar.diskEnd = true := by
    rw [ExtentValue.withinDisk, hend, hstart, Bool.and_eq_true, decide_eq_true_iff,
      decide_eq_true_iff]
    exact ⟨hlo, Nat.le_trans (Nat.mod_le ..) hhi⟩
  rw [markLiveExtent, if_pos hwithin]
  rintro ⟨hhas, hclear⟩
  have hhas' : ar.Has (p / blockSize) := hhas
  refine (Words.isClear_setRange.mp hclear).2 ?_
  have h64 : blocksFor64 e.length = blocksFor e.length := by
    simp only [blocksFor64, blocksFor, blockSize, arenaSizeBytes] at *
    omega
  have hfirst' : firstBlock (ar.markRun ((e.diskOff - ar.diskStart) / blockSize)
      (min (blocksFor64 e.length) (blocksPerArena - (e.diskOff - ar.diskStart) / blockSize))) =
        ar.arenaID * blocksPerArena := hfirst
  rw [hfirst', h64, hstart]
  rw [Has, hfirst] at hhas'
  simp only [blocksFor, blocksPerArena, blockSize, arenaSizeBytes] at hlo hhi hblocks hp hp' hhas' ⊢
  omega

theorem markLiveExtents_ids (ar : Arena) (extents : List ExtentValue) :
    (markLiveExtents ar extents).arenaID = ar.arenaID ∧
      (markLiveExtents ar extents).hint = ar.hint := by
  induction extents generalizing ar with
  | nil => exact ⟨rfl, rfl⟩
  | cons e extents ih =>
    obtain ⟨hid, hhint⟩ := ih (markLiveExtent ar e)
    exact ⟨hid.trans (markLiveExtent_ids ar e).1, hhint.trans (markLiveExtent_ids ar e).2⟩

theorem free_of_markLiveExtents (h : (markLiveExtents ar extents).Free b) : ar.Free b := by
  induction extents generalizing ar with
  | nil => exact h
  | cons e extents ih => exact free_of_markLiveExtent (ih h)

theorem not_free_markLiveExtents (ar : Arena) (hi : ar.arenaID + 1 < 2 ^ 34) (hm : e ∈ extents)
    (he : ShownIn ar.arenaID e) (hb : b ∈ e.deviceBlocks) :
    ¬ (markLiveExtents ar extents).Free b := by
  induction extents generalizing ar with
  | nil => cases hm
  | cons e' extents ih =>
    intro hfree
    rcases mem_cons.mp hm with rfl | hm
    · exact not_free_markLiveExtent hi he hb (free_of_markLiveExtents hfree)
    · have hid := (markLiveExtent_ids ar e').1
      rw [← hid] at hi he
      exact ih (markLiveExtent ar e') hi hm he hfree

theorem diskStart_eq (ar : Arena) : ar.diskStart = ar.arenaID % 2 ^ 34 * arenaSizeBytes := by
  rw [diskStart, show 2 ^ 64 = 2 ^ 34 * arenaSizeBytes from rfl, Nat.mul_mod_mul_right]

theorem diskEnd_eq (ar : Arena) : ar.diskEnd = (ar.arenaID + 1) % 2 ^ 34 * arenaSizeBytes := by
  rw [diskEnd, show 2 ^ 64 = 2 ^ 34 * arenaSizeBytes from rfl, Nat.mul_mod_mul_right]

theorem withinDisk_iff (he : Placed e) : e.withinDisk ar.diskStart ar.diskEnd = true ↔
    ar.diskStart ≤ e.diskOff ∧ e.diskOff + e.length ≤ ar.diskEnd := by
  obtain ⟨⟨i, -, hhi⟩, -⟩ := he
  have hlt : (fresh i).diskEnd < 2 ^ 64 := Nat.mod_lt _ (by decide)
  rw [ExtentValue.withinDisk, Nat.mod_eq_of_lt (Nat.lt_of_le_of_lt hhi hlt), Bool.and_eq_true,
    decide_eq_true_iff, decide_eq_true_iff]

theorem marked_range_iff (he : Placed e) (hlo : ar.diskStart ≤ e.diskOff)
    (hhi : e.diskOff + e.length ≤ ar.diskEnd) (hb : ar.Has b) :
    (e.diskOff - ar.diskStart) / blockSize ≤ b - ar.firstBlock ∧
      b - ar.firstBlock < (e.diskOff - ar.diskStart) / blockSize +
        min (blocksFor64 e.length) (blocksPerArena - (e.diskOff - ar.diskStart) / blockSize) ↔
      e.Touches b := by
  have hmul := ar.firstBlock_mul
  have hlt : ar.diskEnd < 2 ^ 64 := Nat.mod_lt _ (by decide)
  have hlen : e.length ≤ arenaSizeBytes := by
    rw [diskStart_eq] at hlo
    rw [diskEnd_eq] at hhi
    simp only [arenaSizeBytes] at *
    omega
  have h64 : blocksFor64 e.length = blocksFor e.length := by
    simp only [blocksFor64, blocksFor, blockSize, arenaSizeBytes] at *
    omega
  rw [touches_iff he.2, h64]
  obtain ⟨k, hk⟩ := he.2
  rw [Has] at hb
  simp only [blocksFor, blockSize, blocksPerArena, arenaSizeBytes] at *
  omega

theorem inArena_of_touches (he : Placed e) (hb : ar.Has b) (ht : e.Touches b) :
    ar.diskStart ≤ e.diskOff ∧ e.diskOff + e.length ≤ ar.diskEnd := by
  obtain ⟨⟨i, hlo, hhi⟩, -⟩ := he
  obtain ⟨p, hp, hp', rfl⟩ := ht
  have hmul := ar.firstBlock_mul
  rw [diskStart_eq] at hlo hmul ⊢
  rw [diskEnd_eq] at hhi ⊢
  rw [Has] at hb
  simp only [fresh, blockSize, blocksPerArena, arenaSizeBytes] at *
  omega

theorem free_markLiveExtent_iff (he : Placed e) (hb : ar.Has b) :
    (markLiveExtent ar e).Free b ↔ ar.Free b ∧ b ∉ e.deviceBlocks := by
  rw [ExtentValue.mem_deviceBlocks, markLiveExtent]
  by_cases hw : e.withinDisk ar.diskStart ar.diskEnd = true
  · obtain ⟨hlo, hhi⟩ := (withinDisk_iff he).mp hw
    rw [if_pos hw, ← marked_range_iff he hlo hhi hb]
    exact (and_congr_right fun _ => Words.isClear_setRange).trans and_assoc.symm
  · rw [if_neg hw]
    exact (and_iff_left fun ht => hw ((withinDisk_iff he).mpr (inArena_of_touches he hb ht))).symm

theorem free_markLiveExtents_iff (he : ∀ e ∈ extents, Placed e) (hb : ar.Has b) :
    (markLiveExtents ar extents).Free b ↔ ar.Free b ∧ b ∉ touched extents := by
  induction extents generalizing ar with
  | nil => exact (and_iff_left not_mem_nil).symm
  | cons e extents ih =>
    obtain ⟨he, hrest⟩ := forall_mem_cons.mp he
    have hb' : (markLiveExtent ar e).Has b := (has_of_id (markLiveExtent_ids ar e).1).mpr hb
    have hcons : touched (e :: extents) = e.deviceBlocks ++ touched extents := flatMap_cons
    rw [hcons, mem_append, not_or, ← and_assoc, ← free_markLiveExtent_iff he hb]
    exact ih hrest hb'

theorem marksExactly_fresh (he : ∀ e ∈ extents, Placed e) (i : Nat) :
    MarksExactly extents (markLiveExtents (fresh i) extents) := by
  intro b hb
  have hb' : (fresh i).Has b := (has_of_id (markLiveExtents_ids (fresh i) extents).1).mp hb
  have hclear : (fresh i).bitmap.isClear (b - (fresh i).firstBlock) = true := by
    rw [Words.isClear_eq]
    simp [fresh]
  rw [free_markLiveExtents_iff he hb', and_iff_right ⟨hb', hclear⟩, not_not]

theorem fresh_hint_fits (i : Nat) : (fresh i).Fits := Nat.zero_le _

theorem markLiveExtents_fits (h : ar.Fits) : (markLiveExtents ar extents).Fits := by
  rw [Fits, (markLiveExtents_ids ar extents).2]
  exact h

theorem has_markLiveExtents : (markLiveExtents ar extents).Has b ↔ ar.Has b := by
  simp only [Has, firstBlock, diskStart, (markLiveExtents_ids ar extents).1]

end

end EtcFS.Arena
