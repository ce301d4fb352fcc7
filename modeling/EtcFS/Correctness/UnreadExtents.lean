import EtcFS.Ipc.Read
import EtcFS.Scrub.Reclaimable

/-!
# Reads without the dead extents

A newer extent that covers another stands before it in resolution order, so a read's cursor is past
the covered one when it comes to it.
-/

namespace EtcFS.Correctness

open Metadata Ipc Scrub List

def aliveExtents (ino : Nat) (extents : List Extent) (size : Nat) : List Extent :=
  extents.filter fun e => deadReason ino e size extents = []

def Passed (reqEnd pos : Nat) (e : Extent) : Prop := e.end64 ≤ pos ∨ reqEnd ≤ pos

section

variable {extents : List Extent} {ext : Extent} {reqEnd pos : Nat}

theorem readWalk64_eq_nil (h : reqEnd ≤ pos ∨ ∀ e ∈ extents, reqEnd ≤ e.logOff) :
    readWalk64 reqEnd pos extents = [] := by
  cases extents with
  | nil => rfl
  | cons ext extents =>
    rw [readWalk64, if_pos]
    exact h.imp_right fun h => h ext mem_cons_self

theorem readWalk64_of_passed (h : Passed reqEnd pos ext) :
    readWalk64 reqEnd pos (ext :: extents) = readWalk64 reqEnd pos extents ∨
      reqEnd ≤ ext.logOff := by
  by_cases hend : reqEnd ≤ pos
  · exact .inl ((readWalk64_eq_nil (.inl hend)).trans (readWalk64_eq_nil (.inl hend)).symm)
  · by_cases hlog : reqEnd ≤ ext.logOff
    · exact .inr hlog
    · refine .inl ?_
      rw [readWalk64, if_neg (not_or.mpr ⟨hend, hlog⟩), if_pos (h.resolve_right hend)]

theorem readWalk64_cons (hreq : reqEnd ≤ 2 ^ 64) (hpos : pos < reqEnd)
    (hlog : ext.logOff < reqEnd) :
    ∃ fills next, pos ≤ next ∧ Passed reqEnd next ext ∧ ∀ rest,
      readWalk64 reqEnd pos (ext :: rest) = fills ++ readWalk64 reqEnd next rest := by
  have hgo : ¬ (pos ≥ reqEnd ∨ ext.logOff ≥ reqEnd) :=
    not_or.mpr ⟨not_le.mpr hpos, not_le.mpr hlog⟩
  by_cases hend : ext.end64 ≤ pos
  · refine ⟨[], pos, Nat.le_refl _, .inl hend, fun rest => ?_⟩
    rw [readWalk64, if_neg hgo, if_pos hend, nil_append]
  · generalize hp : (if ext.logOff > pos then ext.logOff else pos) = p
    generalize hn : min (ext.length - (p - ext.logOff)) (reqEnd - p) = n
    have hmax : pos ≤ p ∧ ext.logOff ≤ p ∧ p < reqEnd ∧ (p = pos ∨ p = ext.logOff) := by
      rw [← hp]
      split <;> omega
    refine ⟨[⟨p, n, ext⟩], p + n, by omega, ?_, fun rest => ?_⟩
    · simp only [Passed, ExtentValue.end64] at hend ⊢
      omega
    · rw [readWalk64, if_neg hgo, if_neg hend]
      simp only [hp, hn, singleton_append]

theorem readWalk64_filter {dead : Extent → Bool} (hreq : reqEnd ≤ 2 ^ 64) (ho : Ordered extents)
    (hdead : ∀ x ∈ extents, dead x = true → reqEnd ≤ x.logOff ∨ Passed reqEnd pos x ∨
      ∃ o ∈ extents, o.Before x ∧ x.end64 ≤ o.end64) :
    readWalk64 reqEnd pos (extents.filter (!dead ·)) = readWalk64 reqEnd pos extents := by
  induction extents generalizing pos with
  | nil => rfl
  | cons ext extents ih =>
    obtain ⟨hbefore, hrest⟩ := pairwise_cons.mp ho
    by_cases hdone : reqEnd ≤ pos ∨ reqEnd ≤ ext.logOff
    · -- the rest starts no earlier, so neither walk goes on
      have hall : reqEnd ≤ pos ∨ ∀ e ∈ ext :: extents, reqEnd ≤ e.logOff := by
        refine hdone.imp_right fun hlog => forall_mem_cons.mpr ⟨hlog, fun e he => ?_⟩
        have hle := (pairwise_cons.mp (Ordered.logOff_sorted ho)).1 e he
        omega
      rw [readWalk64_eq_nil hall, readWalk64_eq_nil]
      exact hall.imp_right fun h e he => h e (mem_of_mem_filter he)
    · rw [not_or, not_le, not_le] at hdone
      obtain ⟨fills, next, hnext, hpassed, hwalk⟩ := readWalk64_cons hreq hdone.1 hdone.2
      have hkeep : ∀ p, pos ≤ p → Passed reqEnd p ext → ∀ x ∈ extents, dead x = true →
          reqEnd ≤ x.logOff ∨ Passed reqEnd p x ∨
            ∃ o ∈ extents, o.Before x ∧ x.end64 ≤ o.end64 := by
        intro p hp hpast x hx hdx
        rcases hdead x (mem_cons_of_mem _ hx) hdx with h | h | ⟨o, ho', hox, hend⟩
        · exact .inl h
        · exact .inr (.inl (h.imp (fun h => h.trans hp) (fun h => h.trans hp)))
        · rcases mem_cons.mp ho' with rfl | ho'
          · exact .inr (.inl (hpast.imp_left fun h => hend.trans h))
          · exact .inr (.inr ⟨o, ho', hox, hend⟩)
      cases hd : dead ext with
      | true =>
        have hpast : Passed reqEnd pos ext := by
          rcases hdead ext mem_cons_self hd with h | h | ⟨o, ho', hox, -⟩
          · exact absurd h (not_le.mpr hdone.2)
          · exact h
          · rcases mem_cons.mp ho' with rfl | ho'
            · exact absurd hox (Std.Asymm.asymm _ _ hox)
            · exact absurd hox (Std.Asymm.asymm _ _ (hbefore o ho'))
        rw [filter_cons_of_neg (by simp [hd]),
          (readWalk64_of_passed hpast).resolve_right (not_le.mpr hdone.2)]
        exact ih hrest (hkeep pos (Nat.le_refl _) hpast)
      | false =>
        rw [filter_cons_of_pos (by simp [hd]), hwalk, hwalk, ih hrest (hkeep next hnext hpassed)]

end

theorem before_of_supersedes {o x : Extent} (h : o.supersedes x = true) :
    o.Before x ∧ x.end64 ≤ o.end64 := by
  simp only [Extent.supersedes, Bool.and_eq_true, decide_eq_true_eq] at h
  obtain ⟨⟨hseq, hlog⟩, hend⟩ := h
  refine ⟨Extent.before_iff.mpr ?_, hend⟩
  omega

theorem sortExtents_aliveExtents {extents : List Extent} (hd : DistinctChunks extents)
    (ino size : Nat) : sortExtents (aliveExtents ino extents size) =
      (sortExtents extents).filter fun e => !decide (deadReason ino e size extents ≠ []) := by
  have hd' : DistinctChunks (aliveExtents ino extents size) :=
    hd.sublist (List.filter_sublist.map _)
  refine (sortExtents_ordered hd').eq_of_mem_iff ((sortExtents_ordered hd).filter _) fun e => ?_
  simp only [mem_sortExtents, aliveExtents, mem_filter, decide_eq_true_eq, ne_eq,
    Bool.not_eq_true', decide_eq_false_iff_not, not_not]

/-- Whatever the extents of an inode and its size, a read of a range below the size makes
the same steps without the dead extents: it takes the same bytes from the same places of
the device and leaves the same holes. -/
theorem reads_without_dead {extents : List Extent} (hd : DistinctChunks extents)
    {size : Nat} (hsize : size < 2 ^ 64) (ino offset : Nat) {reqEnd : Nat}
    (hreq : reqEnd ≤ size) :
    readWalk64 reqEnd offset (sortExtents (aliveExtents ino extents size)) =
      readWalk64 reqEnd offset (sortExtents extents) := by
  rw [sortExtents_aliveExtents hd]
  refine readWalk64_filter (hreq.trans hsize.le) (sortExtents_ordered hd) fun x _ hx => ?_
  rcases deadReason_ne_nil_iff.mp (of_decide_eq_true hx) with hpast | ⟨o, ho, hsup⟩
  · exact .inl (hreq.trans hpast)
  · exact .inr (.inr ⟨o, mem_sortExtents.mpr ho, before_of_supersedes hsup⟩)

def overwritten : List Extent :=
  [⟨⟨2, 0, 2, 1, 0, "a"⟩, 0, 1⟩, ⟨⟨1, 4096, 4, 1, 1, "a"⟩, 1, 2⟩, ⟨⟨0, 8192, 6, 1, 2, "a"⟩, 2, 3⟩,
    ⟨⟨9, 12288, 1, 1, 3, "a"⟩, 3, 4⟩]

theorem reads_without_dead_overwritten :
    aliveExtents 7 overwritten 8 = [⟨⟨0, 8192, 6, 1, 2, "a"⟩, 2, 3⟩] ∧
      readWalk64 8 1 (sortExtents (aliveExtents 7 overwritten 8)) =
        readWalk64 8 1 (sortExtents overwritten) :=
  ⟨by decide, reads_without_dead (by decide) (by decide) 7 1 (by decide)⟩

/-- Once the extents that a pass reports as orphaned or dead are gone, the same checks report
nothing. -/
theorem second_pass_clean (extents : List (Nat × Extent)) (inodes : Nat → Option InodeRecord) :
    let reported := (checkOrphanExtents extents inodes ++ checkDeadExtents extents inodes).map
      Result.key
    let kept := extents.filter fun x => keyOf x ∉ reported
    checkOrphanExtents kept inodes = [] ∧ checkDeadExtents kept inodes = [] := by
  intro reported kept
  have hkept : ∀ x ∈ kept, ∃ rec, inodes x.1 = some rec ∧
      deadReason x.1 x.2 rec.size (ofInode extents x.1) = [] := by
    intro x hx
    obtain ⟨hmem, hfree⟩ := mem_filter.mp hx
    simp only [reported, decide_eq_true_eq, map_append, mem_append, not_or, checkOrphanExtents,
      checkDeadExtents, map_filterMap, mem_filterMap] at hfree
    cases hrec : inodes x.1 with
    | none => exact absurd ⟨x, hmem, by simp [hrec]⟩ hfree.1
    | some rec =>
      refine ⟨rec, rfl, of_not_not fun hdead => hfree.2 ⟨x, hmem, ?_⟩⟩
      simp [hrec, hdead]
  refine ⟨filterMap_eq_nil_iff.mpr fun x hx => ?_, filterMap_eq_nil_iff.mpr fun x hx => ?_⟩
  · obtain ⟨rec, hrec, -⟩ := hkept x hx
    rw [hrec]
    rfl
  · obtain ⟨rec, hrec, halive⟩ := hkept x hx
    -- what is kept has no more siblings than before
    have hsub : ofInode kept x.1 ⊆ ofInode extents x.1 :=
      ((filter_sublist.filter _).map _).subset
    have hnil : deadReason x.1 x.2 rec.size (ofInode kept x.1) = [] := by
      refine of_not_not fun hdead => deadReason_ne_nil_iff.mpr ?_ halive
      exact (deadReason_ne_nil_iff.mp hdead).imp_right fun ⟨o, ho, hsup⟩ => ⟨o, hsub ho, hsup⟩
    rw [hrec]
    exact if_pos hnil

end EtcFS.Correctness
