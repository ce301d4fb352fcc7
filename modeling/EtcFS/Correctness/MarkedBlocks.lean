import EtcFS.Arena.Reconstruct
import EtcFS.Arena.Supply

/-!
# The blocks marked from extents

If each extent lies in one arena and starts at a block boundary, a block is allocated if an extent
has a byte in it and free if none has.
-/

namespace EtcFS.Correctness

open EtcFS.Core Metadata Arena List

structure Draw where
  arenaID : Nat
  recorded : Bool
  answered : Bool
  deriving DecidableEq, Repr

def acquireDrawn (deviceSize : Nat) (extents : List ExtentValue) :
    List Arena → List Draw → List Arena :=
  foldl fun arenas d =>
    acquireArena deviceSize arenas extents d.arenaID true d.recorded d.answered

variable {extents : List ExtentValue} {arenas : List Arena}

theorem marksExactly_acquireArena (he : ∀ e ∈ extents, Placed e) (deviceSize i : Nat)
    (recorded answered : Bool) {ar : Arena}
    (hm : ar ∈ acquireArena deviceSize arenas extents i true recorded answered) :
    ar ∈ arenas ∨ (MarksExactly extents ar ∧ ar.Fits) := by
  rcases acquireArena_cases deviceSize arenas extents i true recorded answered with
    hsame | ⟨hr, -⟩ | ⟨-, happend⟩
  · exact .inl (hsame ▸ hm)
  · cases hr
  · rw [happend, mem_append, mem_singleton] at hm
    rcases hm with hm | rfl
    · exact .inl hm
    · exact .inr ⟨marksExactly_fresh he i, markLiveExtents_fits (fresh_hint_fits i)⟩

theorem marksExactly_acquireDrawn (he : ∀ e ∈ extents, Placed e) (deviceSize : Nat)
    (draws : List Draw) (h : ∀ ar ∈ arenas, MarksExactly extents ar ∧ ar.Fits) :
    ∀ ar ∈ acquireDrawn deviceSize extents arenas draws, MarksExactly extents ar ∧ ar.Fits := by
  induction draws generalizing arenas with
  | nil => exact h
  | cons d draws ih =>
    refine ih fun ar hm => ?_
    rcases marksExactly_acquireArena he deviceSize d.arenaID d.recorded d.answered hm with hm | hm
    · exact h ar hm
    · exact hm

theorem marksExactly_reconstruct (he : ∀ e ∈ extents, Placed e)
    {records : Option (List (List UInt8))} {before : List Arena}
    (hrec : reconstruct records (some extents) before = (true, arenas)) :
    ∀ ar ∈ arenas, MarksExactly extents ar ∧ ar.Fits := by
  cases records with
  | none => cases hrec
  | some values =>
    obtain rfl : _ = arenas := congrArg Prod.snd hrec
    intro ar hm
    obtain ⟨x, hx, rfl⟩ := mem_map.mp hm
    obtain ⟨i, -, rfl⟩ := mem_map.mp hx
    exact ⟨marksExactly_fresh he i, markLiveExtents_fits (fresh_hint_fits i)⟩

/-- After `Reconstruct`, and after each arena taken from the free pool since, a block is
allocated exactly if an extent touches it, and no allocation gets a block of an extent.
An arena taken by an allocator in any state is marked the same way. -/
theorem marks_exactly {records : Option (List (List UInt8))} {before : List Arena}
    (he : ∀ e ∈ extents, Placed e)
    (hrec : reconstruct records (some extents) before = (true, arenas)) (deviceSize : Nat)
    (draws : List Draw) :
    (∀ ar ∈ acquireDrawn deviceSize extents arenas draws, MarksExactly extents ar) ∧
      (∀ size, ∀ runs ∈ (allocate (acquireDrawn deviceSize extents arenas draws) size).1,
        ∀ b ∈ runs.flatMap Run.blocks, b ∉ touched extents) ∧
      ∀ held i recorded answered,
        ∀ ar ∈ acquireArena deviceSize held extents i true recorded answered,
          ar ∈ held ∨ MarksExactly extents ar := by
  have hall := marksExactly_acquireDrawn he deviceSize draws (marksExactly_reconstruct he hrec)
  refine ⟨fun ar hm => (hall ar hm).1, fun size runs hruns b hb htouched => ?_, ?_⟩
  · obtain ⟨r, hr, hb⟩ := mem_flatMap.mp hb
    obtain ⟨ar, hm, hfree⟩ := allocate_inside (fun ar hm => (hall ar hm).2) runs hruns r hr
    exact ((hall ar hm).1 b (hfree b hb).1).mpr htouched (hfree b hb)
  · intro held i recorded answered ar hm
    exact (marksExactly_acquireArena he deviceSize i recorded answered hm).imp_right And.left

/-- A node with arena 1 and extents in arenas 1 and 3, one of them of an odd length, takes
arena 3 from the free pool. -/
theorem marks_exactly_recycled :
    let extents : List ExtentValue :=
      [⟨0, 2 ^ 30, 5000, 1, 1, "a"⟩, ⟨0, 3 * 2 ^ 30 + 4096, 1, 1, 2, "b"⟩]
    let arenas := acquireDrawn 0 extents
      (reconstruct (some [[0, 0, 0, 0, 0, 0, 0, 1]]) (some extents) []).2 [⟨3, true, true⟩]
    arenas.map Arena.arenaID = [1, 3] ∧ ∀ ar ∈ arenas, MarksExactly extents ar := by
  intro extents arenas
  have he : ∀ e ∈ extents, Placed e := by
    rw [forall_mem_cons, forall_mem_singleton]
    exact ⟨⟨⟨1, by decide⟩, by decide⟩, ⟨⟨3, by decide⟩, by decide⟩⟩
  have hrec : reconstruct (some [[0, 0, 0, 0, 0, 0, 0, 1]]) (some extents) [] =
      (true, (reconstruct (some [[0, 0, 0, 0, 0, 0, 0, 1]]) (some extents) []).2) := rfl
  exact ⟨by decide, (marks_exactly he hrec 0 [⟨3, true, true⟩]).1⟩

end EtcFS.Correctness
