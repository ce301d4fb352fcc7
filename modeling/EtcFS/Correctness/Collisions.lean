import EtcFS.Scrub.Reclaimable

/-!
# Extents that share device bytes

The check compares neighbours by device offset. An extent inside a long one hides the long one from
those after it.
-/

namespace EtcFS.Correctness

open EtcFS.Core Metadata Scrub List

def ReachesOver (x y : Nat × Extent) : Prop :=
  x.2.diskOff < y.2.diskOff ∧ y.2.diskOff < x.2.diskOff + x.2.length
  deriving Decidable

def DevicesApart (x y : Nat × Extent) : Prop :=
  x.2.diskOff + x.2.length ≤ y.2.diskOff ∨ y.2.diskOff + y.2.length ≤ x.2.diskOff
  deriving Decidable

/-- No extent starts between the two. -/
def NextStart (extents : List (Nat × Extent)) (y z : Nat × Extent) : Prop :=
  y.2.diskOff < z.2.diskOff ∧
    ∀ w ∈ extents, w.2.diskOff ≤ y.2.diskOff ∨ z.2.diskOff ≤ w.2.diskOff
  deriving Decidable

/-- Into an extent that any other one reaches, those of the start before it reach as well. -/
def NoneHidden (extents : List (Nat × Extent)) : Prop :=
  ∀ x ∈ extents, ∀ y ∈ extents, ∀ z ∈ extents, ReachesOver x z → NextStart extents y z →
    ReachesOver y z
  deriving Decidable

structure ProperExtents (extents : List (Nat × Extent)) : Prop where
  keys : (extents.map keyOf).Nodup
  nonempty : ∀ x ∈ extents, 0 < x.2.length
  bounded : ∀ x ∈ extents, x.2.diskOff + x.2.length < 2 ^ 64

def ByStart (extents byStart : List (Nat × Extent)) : Prop :=
  byStart.Perm extents ∧ byStart.Pairwise fun x y => x.2.diskOff ≤ y.2.diskOff

section

variable {extents byStart : List (Nat × Extent)} {x y : Nat × Extent}

theorem byStart_insertionSort (extents : List (Nat × Extent)) :
    ByStart extents (extents.insertionSort fun x y => x.2.diskOff ≤ y.2.diskOff) := by
  have htotal : Std.Total fun x y : Nat × Extent => x.2.diskOff ≤ y.2.diskOff :=
    ⟨fun x y => Nat.le_total _ _⟩
  have htrans : IsTrans (Nat × Extent) fun x y => x.2.diskOff ≤ y.2.diskOff :=
    ⟨fun _ _ _ hxy hyz => Nat.le_trans hxy hyz⟩
  exact ⟨perm_insertionSort _ _, pairwise_insertionSort _ _⟩

theorem ProperExtents.perm (h : ProperExtents extents) (hp : byStart.Perm extents) :
    ProperExtents byStart where
  keys := (hp.map keyOf).nodup_iff.mpr h.keys
  nonempty := fun x hx => h.nonempty x (hp.mem_iff.mp hx)
  bounded := fun x hx => h.bounded x (hp.mem_iff.mp hx)

theorem ProperExtents.tail (h : ProperExtents (x :: extents)) : ProperExtents extents where
  keys := (nodup_cons.mp h.keys).2
  nonempty := fun y hy => h.nonempty y (mem_cons_of_mem _ hy)
  bounded := fun y hy => h.bounded y (mem_cons_of_mem _ hy)

theorem mem_adjacentCollisions_cons {r : Result} (h : r ∈ adjacentCollisions byStart) :
    r ∈ adjacentCollisions (x :: byStart) := by
  cases byStart with
  | nil => cases h
  | cons y rest =>
    rw [adjacentCollisions]
    split
    · exact h
    · split
      · exact h
      · exact mem_cons_of_mem _ h

/-- What is reported is one of two neighbours, with the other reaching into it. -/
theorem neighbours_of_mem {r : Result} (h : r ∈ adjacentCollisions byStart) :
    ∃ before p c after, byStart = before ++ p :: c :: after ∧ r = collision p c ∧
      ¬ diskEnd64 p.2 ≤ c.2.diskOff := by
  induction byStart with
  | nil => cases h
  | cons p rest ih =>
    have hlater : r ∈ adjacentCollisions rest → ∃ before q c after,
        p :: rest = before ++ q :: c :: after ∧ r = collision q c ∧
          ¬ diskEnd64 q.2 ≤ c.2.diskOff := by
      intro h
      obtain ⟨before, q, c, after, rfl, hr⟩ := ih h
      exact ⟨p :: before, q, c, after, rfl, hr⟩
    cases rest with
    | nil => cases h
    | cons c rest =>
      rw [adjacentCollisions] at h
      split at h
      · exact hlater h
      · rename_i hreach
        split at h
        · exact hlater h
        · rcases mem_cons.mp h with rfl | h
          · exact ⟨[], p, c, rest, rfl, rfl, hreach⟩
          · exact hlater h

theorem collision_mem {before after : List (Nat × Extent)}
    (h : ProperExtents (before ++ x :: y :: after))
    (hreach : y.2.diskOff < x.2.diskOff + x.2.length) :
    collision x y ∈ adjacentCollisions (before ++ x :: y :: after) := by
  induction before with
  | nil =>
    have hend : diskEnd64 x.2 = x.2.diskOff + x.2.length :=
      Nat.mod_eq_of_lt (h.bounded x mem_cons_self)
    have hkey : keyOf x ≠ keyOf y := by
      have hnot := (nodup_cons.mp h.keys).1
      exact fun heq => hnot (heq ▸ mem_map_of_mem mem_cons_self)
    rw [nil_append, adjacentCollisions, hend, if_neg (Nat.not_le.mpr hreach), if_neg hkey]
    exact mem_cons_self
  | cons z before ih => exact mem_adjacentCollisions_cons (ih h.tail)

theorem exists_previous (hsorted : byStart.Pairwise fun x y => x.2.diskOff ≤ y.2.diskOff)
    (hx : x ∈ byStart) (hy : y ∈ byStart) (hlt : x.2.diskOff < y.2.diskOff) :
    ∃ before p after, byStart = before ++ p :: y :: after ∧ p.2.diskOff ≤ y.2.diskOff ∧
      ∀ w ∈ byStart, w.2.diskOff ≤ p.2.diskOff ∨ y.2.diskOff ≤ w.2.diskOff := by
  obtain ⟨front, after, rfl⟩ := append_of_mem hy
  obtain ⟨hfront, hback, hcross⟩ := pairwise_append.mp hsorted
  have hmem : x ∈ front := by
    rcases mem_append.mp hx with hx | hx
    · exact hx
    · rcases mem_cons.mp hx with rfl | hx
      · exact absurd hlt (Nat.lt_irrefl _)
      · exact absurd hlt (Nat.not_lt.mpr ((pairwise_cons.mp hback).1 x hx))
  rcases eq_nil_or_concat front with rfl | ⟨before, p, rfl⟩
  · cases hmem
  · rw [concat_eq_append] at hfront hcross ⊢
    refine ⟨before, p, after, by simp, ?_, fun w hw => ?_⟩
    · exact hcross p (mem_append_right _ (mem_singleton_self p)) y mem_cons_self
    · rcases mem_append.mp hw with hw | hw
      · rcases mem_append.mp hw with hw | hw
        · exact .inl ((pairwise_append.mp hfront).2.2 w hw p (mem_singleton_self p))
        · rw [mem_singleton.mp hw]
          exact .inl le_rfl
      · rcases mem_cons.mp hw with rfl | hw
        · exact .inr le_rfl
        · exact .inr ((pairwise_cons.mp hback).1 w hw)

theorem ProperExtents.eq_of_key (h : ProperExtents extents) (hx : x ∈ extents) (hy : y ∈ extents)
    (hkey : keyOf x = keyOf y) : x = y := inj_on_of_nodup_map h.keys hx hy hkey

/-- An extent that its neighbour ends before is not reported. -/
theorem not_reported {before after : List (Nat × Extent)}
    (h : ProperExtents (before ++ x :: y :: after))
    (hends : x.2.diskOff + x.2.length ≤ y.2.diskOff) {r : Result}
    (hr : r ∈ adjacentCollisions (before ++ x :: y :: after)) : r.key ≠ keyOf y := by
  obtain ⟨before', p, c, after', hsplit, rfl, hreach⟩ := neighbours_of_mem hr
  intro hkey
  have hc : c ∈ before ++ x :: y :: after := by simp [hsplit]
  obtain rfl : c = y := h.eq_of_key hc (by simp) hkey
  have hnodup := List.Nodup.of_map _ h.keys
  have hnot : c ∉ before ++ [x] ∧ c ∉ after := by
    rw [← singleton_append, ← append_assoc, nodup_append, nodup_cons] at hnodup
    exact ⟨fun hm => hnodup.2.2 c hm c mem_cons_self rfl, hnodup.2.1.1⟩
  have hsame : (before ++ [x]) ++ c :: after = (before' ++ [p]) ++ c :: after' := by
    simpa using hsplit
  obtain ⟨hfront, -⟩ := (append_cons_inj_of_notMem hnot.1 hnot.2).mp hsame
  obtain ⟨-, rfl⟩ := append_inj' hfront rfl |>.imp_right singleton_inj.mp
  rw [diskEnd64, Nat.mod_eq_of_lt (h.bounded x (by simp))] at hreach
  exact hreach hends

/-- The sort may leave an extent right before one with the next start. -/
theorem exists_byStart_adjacent (hx : x ∈ extents) (hy : y ∈ extents)
    (hnext : NextStart extents x y) :
    ∃ before after, ByStart extents (before ++ x :: y :: after) := by
  have hne : y ≠ x := fun heq => absurd (heq ▸ hnext.1) (Nat.lt_irrefl _)
  let rest := (extents.erase x).erase y
  let low (w : Nat × Extent) : Bool := w.2.diskOff ≤ x.2.diskOff
  obtain ⟨lows, hlow, hlows⟩ : ∃ l, ByStart (rest.filter low) l := ⟨_, byStart_insertionSort _⟩
  obtain ⟨highs, hhigh, hhighs⟩ : ∃ l, ByStart (rest.filter (! low ·)) l :=
    ⟨_, byStart_insertionSort _⟩
  have hbelow : ∀ w ∈ lows, w.2.diskOff ≤ x.2.diskOff :=
    fun w hw => of_decide_eq_true (mem_filter.mp (hlow.mem_iff.mp hw)).2
  have habove : ∀ w ∈ highs, y.2.diskOff ≤ w.2.diskOff := by
    intro w hw
    obtain ⟨hmem, hnot⟩ := mem_filter.mp (hhigh.mem_iff.mp hw)
    refine (hnext.2 w (mem_of_mem_erase (mem_of_mem_erase hmem))).resolve_left fun hle => ?_
    simp [low, hle] at hnot
  refine ⟨lows, highs, ?_, pairwise_append.mpr ⟨hlows, pairwise_cons.mpr ⟨?_, pairwise_cons.mpr ⟨?_,
    hhighs⟩⟩, ?_⟩⟩
  · calc _ ~ rest.filter low ++ x :: y :: rest.filter (! low ·) :=
          hlow.append ((hhigh.cons y).cons x)
      _ ~ x :: y :: (rest.filter low ++ rest.filter (! low ·)) :=
          perm_middle.trans (perm_middle.cons x)
      _ ~ x :: y :: rest := ((filter_append_perm low rest).cons y).cons x
      _ ~ x :: extents.erase x :=
          ((perm_cons_erase ((mem_erase_of_ne hne).mpr hy)).symm).cons x
      _ ~ extents := (perm_cons_erase hx).symm
  · exact forall_mem_cons.mpr ⟨hnext.1.le, fun w hw => hnext.1.le.trans (habove w hw)⟩
  · exact habove
  · intro a ha
    have hle := hbelow a ha
    refine forall_mem_cons.mpr ⟨hle, forall_mem_cons.mpr ⟨hle.trans hnext.1.le, fun w hw => ?_⟩⟩
    exact hle.trans (hnext.1.le.trans (habove w hw))

theorem adjacentCollisions_eq_nil (h : ProperExtents byStart)
    (hsorted : byStart.Pairwise fun x y => x.2.diskOff ≤ y.2.diskOff)
    (hapart : byStart.Pairwise DevicesApart) : adjacentCollisions byStart = [] := by
  induction byStart with
  | nil => rfl
  | cons x rest ih =>
    obtain ⟨hle, hrest⟩ := pairwise_cons.mp hsorted
    obtain ⟨hx, hapart'⟩ := pairwise_cons.mp hapart
    cases rest with
    | nil => rfl
    | cons y rest =>
      have hend : diskEnd64 x.2 = x.2.diskOff + x.2.length :=
        Nat.mod_eq_of_lt (h.bounded x mem_cons_self)
      have hstart := hle y mem_cons_self
      have hlen := h.nonempty y (mem_cons_of_mem _ mem_cons_self)
      have hbefore : x.2.diskOff + x.2.length ≤ y.2.diskOff := by
        rcases hx y mem_cons_self with hxy | hyx
        · exact hxy
        · omega
      rw [adjacentCollisions, hend, if_pos hbefore]
      exact ih h.tail hrest hapart'

end

/-- Whatever order the sort leaves extents with one device offset in, each extent that another
reaches into is reported under its key, exactly where none is hidden by one that starts between.
If no two share a byte, nothing is reported, with no condition. -/
theorem collisions_reported {extents : List (Nat × Extent)} (h : ProperExtents extents) :
    ((∀ byStart, ByStart extents byStart → ∀ x ∈ extents, ∀ y ∈ extents, ReachesOver x y →
        ∃ r ∈ adjacentCollisions byStart, r.key = keyOf y) ↔ NoneHidden extents) ∧
      (extents.Pairwise DevicesApart →
        ∀ byStart, ByStart extents byStart → adjacentCollisions byStart = []) := by
  refine ⟨⟨fun hall x hx y hy z hz hover hnext => ?_, ?_⟩, ?_⟩
  · by_contra hnot
    obtain ⟨before, after, hsort⟩ := exists_byStart_adjacent hy hz hnext
    obtain ⟨r, hr, hkey⟩ := hall _ hsort x hx z hz hover
    refine not_reported (h.perm hsort.1) (Nat.not_lt.mp fun hlt => hnot ⟨hnext.1, hlt⟩) hr hkey
  · rintro hhid byStart ⟨hperm, hsorted⟩ x hx y hy hover
    have hproper := h.perm hperm
    obtain ⟨before, p, after, rfl, hhi, hgap⟩ :=
      exists_previous hsorted (hperm.mem_iff.mpr hx) (hperm.mem_iff.mpr hy) hover.1
    have hp : p ∈ before ++ p :: y :: after := mem_append_right _ mem_cons_self
    have hreach : y.2.diskOff < p.2.diskOff + p.2.length := by
      rcases Nat.eq_or_lt_of_le hhi with heq | hlt
      · have hlen := hproper.nonempty p hp
        omega
      · exact (hhid x hx p (hperm.mem_iff.mp hp) y hy hover
          ⟨hlt, fun w hw => hgap w (hperm.mem_iff.mpr hw)⟩).2
    exact ⟨collision p y, collision_mem hproper hreach, rfl⟩
  · rintro hapart byStart ⟨hperm, hsorted⟩
    refine adjacentCollisions_eq_nil (h.perm hperm) hsorted ?_
    exact (hperm.pairwise_iff fun {x y} hxy => hxy.symm).mpr hapart

def chained : List (Nat × Extent) :=
  [(1, ⟨⟨0, 8192, 5000, 1, 1, "a"⟩, 0, 1⟩), (1, ⟨⟨0, 0, 5000, 1, 1, "a"⟩, 1, 1⟩),
    (2, ⟨⟨0, 4096, 5000, 1, 1, "a"⟩, 0, 1⟩), (3, ⟨⟨0, 20480, 1, 1, 1, "b"⟩, 0, 1⟩)]

theorem collisions_reported_chained :
    NoneHidden chained ∧ ∃ r ∈ checkExtentCollisions chained, r.key = extentKey 1 0 := by
  have hhid : NoneHidden chained := by decide
  have hproper : ProperExtents chained := ⟨by decide, by decide, by decide⟩
  have hreport := (collisions_reported hproper).1.mpr hhid _ (byStart_insertionSort chained)
  exact ⟨hhid, hreport (2, ⟨⟨0, 4096, 5000, 1, 1, "a"⟩, 0, 1⟩) (by decide)
    (1, ⟨⟨0, 8192, 5000, 1, 1, "a"⟩, 0, 1⟩) (by decide) (by decide)⟩

def nested : List (Nat × Extent) :=
  [(1, ⟨⟨0, 0, 12288, 1, 1, "a"⟩, 0, 1⟩), (2, ⟨⟨0, 4096, 4096, 1, 1, "a"⟩, 0, 1⟩),
    (3, ⟨⟨0, 8192, 4096, 1, 1, "a"⟩, 0, 1⟩)]

/-- The first reaches into the third, which is compared with the second only and is not
reported. -/
theorem nested_not_reported :
    ((nested.map keyOf).Nodup ∧ (∀ x ∈ nested, 0 < x.2.length) ∧
      ∀ x ∈ nested, x.2.diskOff + x.2.length < 2 ^ 64) ∧
    (∃ x ∈ nested, ∃ y ∈ nested, keyOf y = extentKey 3 0 ∧ ReachesOver x y) ∧
      (checkExtentCollisions nested).map Result.key = [extentKey 2 0] := by
  decide

end EtcFS.Correctness
