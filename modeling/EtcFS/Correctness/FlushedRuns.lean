import EtcFS.Ipc.DeviceLog

/-!
# What a flush leaves on the device

A flush that succeeds leaves each run's bytes and touches nothing else, if the device takes whole
writes.
-/

namespace EtcFS.Correctness

open EtcFS.Core Ipc List Option

def NoShared (r r' : BufferedRun) : Prop := ∀ pos, r.Holds pos → ¬ r'.Holds pos

/-- A write of the flush fails, or each one that has bytes is taken whole. -/
def FailsOrTakesAll (device : Nat → DeviceReply) (order : List BufferedRun) : Prop :=
  (∃ i < order.length, device i = .failed) ∨
    ∀ i g left, order[i]? = some g → device i = .wrote left → g.buf ≠ [] → left = 0

variable {data groups : List BufferedRun} {r r' g : BufferedRun} {dev : Bytes} {pos : Nat}

theorem NoShared.symm (h : NoShared r r') : NoShared r' r := fun pos hr' hr => h pos hr hr'

instance : Std.Symm NoShared := ⟨fun _ _ => NoShared.symm⟩

/-! ## Writes that share no byte -/

theorem writeRun_of_holds (h : r.Holds pos) :
    dev.writeRun r pos = r.buf.getD (pos - r.diskOff) 0 := if_pos h

theorem writeRun_of_not_holds (h : ¬ r.Holds pos) : dev.writeRun r pos = dev pos := if_neg h

theorem writeRun_comm (h : NoShared r r') :
    (dev.writeRun r).writeRun r' = (dev.writeRun r').writeRun r := by
  funext pos
  by_cases hr : r.Holds pos
  · rw [writeRun_of_not_holds (h pos hr), writeRun_of_holds hr, writeRun_of_holds hr]
  · rw [writeRun_of_not_holds hr]
    by_cases hr' : r'.Holds pos
    · rw [writeRun_of_holds hr', writeRun_of_holds hr']
    · rw [writeRun_of_not_holds hr', writeRun_of_not_holds hr', writeRun_of_not_holds hr]

theorem foldl_writeRun_perm {runs : List BufferedRun} (h : data.Pairwise NoShared)
    (hperm : data.Perm runs) (dev : Bytes) :
    data.foldl Bytes.writeRun dev = runs.foldl Bytes.writeRun dev := by
  refine hperm.foldl_eq' (fun x hx y hy dev => ?_) dev
  rcases eq_or_ne x y with rfl | hne
  · rfl
  · exact writeRun_comm (h.forall hx hy hne)

theorem foldl_writeRun_unheld (h : ∀ r ∈ data, ¬ r.Holds pos) (dev : Bytes) :
    data.foldl Bytes.writeRun dev pos = dev pos := by
  induction data generalizing dev with
  | nil => rfl
  | cons x data ih =>
    obtain ⟨hx, hrest⟩ := forall_mem_cons.mp h
    rw [foldl_cons, ih hrest, writeRun_of_not_holds hx]

theorem foldl_writeRun_held (h : data.Pairwise NoShared) (hr : r ∈ data) (hheld : r.Holds pos)
    (dev : Bytes) : data.foldl Bytes.writeRun dev pos = r.buf.getD (pos - r.diskOff) 0 := by
  induction data generalizing dev with
  | nil => cases hr
  | cons x data ih =>
    obtain ⟨hx, hrest⟩ := pairwise_cons.mp h
    rw [foldl_cons]
    rcases mem_cons.mp hr with rfl | hr
    · rw [foldl_writeRun_unheld fun r' hr' => hx r' hr' pos hheld, writeRun_of_holds hheld]
    · exact ih hrest hr _

/-! ## Merged runs -/

theorem holds_merged (hadj : g.diskOff = r.endOff) :
    BufferedRun.Holds ⟨r.diskOff, r.buf ++ g.buf⟩ pos ↔ r.Holds pos ∨ g.Holds pos := by
  simp only [BufferedRun.Holds, BufferedRun.endOff, length_append] at hadj ⊢
  omega

theorem holds_of_coalesce (hg : g ∈ coalesce data) (hheld : g.Holds pos) :
    ∃ r ∈ data, r.Holds pos := by
  induction data generalizing g with
  | nil => cases hg
  | cons x data ih =>
    have hrest : ∀ g ∈ coalesce data, g.Holds pos → ∃ r ∈ x :: data, r.Holds pos := by
      intro g hg hheld
      obtain ⟨r, hr, hheld⟩ := ih hg hheld
      exact ⟨r, mem_cons_of_mem _ hr, hheld⟩
    rw [coalesce] at hg
    cases hgroups : coalesce data with
    | nil =>
      rw [hgroups] at hg
      obtain rfl := mem_singleton.mp hg
      exact ⟨g, mem_cons_self, hheld⟩
    | cons first groups =>
      rw [hgroups] at hg hrest
      dsimp only at hg
      split at hg
      · rename_i hadj
        rcases mem_cons.mp hg with rfl | hg
        · rcases (holds_merged hadj).mp hheld with hheld | hheld
          · exact ⟨x, mem_cons_self, hheld⟩
          · exact hrest first mem_cons_self hheld
        · exact hrest g (mem_cons_of_mem _ hg) hheld
      · rcases mem_cons.mp hg with rfl | hg
        · exact ⟨g, mem_cons_self, hheld⟩
        · exact hrest g hg hheld

theorem coalesce_noShared (h : data.Pairwise NoShared) : (coalesce data).Pairwise NoShared := by
  induction data with
  | nil => exact List.Pairwise.nil
  | cons x data ih =>
    obtain ⟨hx, hrest⟩ := pairwise_cons.mp h
    have hgroups := ih hrest
    have happart : ∀ g ∈ coalesce data, NoShared x g := by
      intro g hg pos hheld hgheld
      obtain ⟨r, hr, hrheld⟩ := holds_of_coalesce hg hgheld
      exact hx r hr pos hheld hrheld
    rw [coalesce]
    cases hcase : coalesce data with
    | nil => exact pairwise_singleton _ _
    | cons first groups =>
      rw [hcase] at hgroups happart
      dsimp only
      split
      · rename_i hadj
        obtain ⟨hfirst, hgroups⟩ := pairwise_cons.mp hgroups
        refine pairwise_cons.mpr ⟨fun g hg pos hheld => ?_, hgroups⟩
        rcases (holds_merged hadj).mp hheld with hheld | hheld
        · exact happart g (mem_cons_of_mem _ hg) pos hheld
        · exact hfirst g hg pos hheld
      · exact pairwise_cons.mpr ⟨happart, hgroups⟩

/-! ## Writes that succeed -/

theorem writeGroups_whole {device : Nat → DeviceReply} {i : Nat} {log : DeviceLog}
    (hw : ∀ j g left, groups[j]? = some g → device (i + j) = .wrote left → g.buf ≠ [] → left = 0)
    (hok : (writeGroups device i log groups).1 = true) :
    (writeGroups device i log groups).2 = log ++ groups := by
  induction groups generalizing i log with
  | nil => exact (append_nil _).symm
  | cons g groups ih =>
    rw [writeGroups, Bool.and_eq_true] at hok
    rw [writeGroups, ih (fun j x left hx hreply => hw (j + 1) x left hx (by
      rwa [← Nat.add_assoc, Nat.add_right_comm])) hok.2]
    cases hreply : device i with
    | wrote left =>
      have htake : g.buf.take (g.buf.length - left) = g.buf := by
        by_cases hempty : g.buf = []
        · rw [hempty, take_nil]
        · rw [hw 0 g left rfl hreply hempty, Nat.sub_zero, take_length]
      rw [writeRun, htake, append_assoc]
      rfl
    | failed =>
      rw [hreply] at hok
      cases hok.1

theorem writeGroups_ok_iff {device : Nat → DeviceReply} {i : Nat} {log : DeviceLog} :
    (writeGroups device i log groups).1 = true ↔
      ∀ j < groups.length, device (i + j) ≠ .failed := by
  induction groups generalizing i log with
  | nil => exact iff_of_true rfl nofun
  | cons g groups ih =>
    have hfirst : (writeRun log g (device i)).1 = true ↔ device i ≠ .failed := by
      cases device i <;> simp [writeRun]
    rw [writeGroups, Bool.and_eq_true, ih, hfirst]
    constructor
    · rintro ⟨hi, hrest⟩ (_ | j) hj
      · exact hi
      · rw [← Nat.add_assoc, Nat.add_right_comm]
        exact hrest j (Nat.lt_of_succ_lt_succ hj)
    · refine fun h => ⟨h 0 (Nat.zero_lt_succ _), fun j hj => ?_⟩
      rw [Nat.add_right_comm]
      exact h (j + 1) (Nat.succ_lt_succ hj)

theorem mem_writeGroups {device : Nat → DeviceReply} {i : Nat} {log : DeviceLog}
    (hr : r ∈ (writeGroups device i log groups).2) : r ∈ log ∨ ∃ j g left,
      groups[j]? = some g ∧ device (i + j) = .wrote left ∧
        r = ⟨g.diskOff, g.buf.take (g.buf.length - left)⟩ := by
  induction groups generalizing i log with
  | nil => exact .inl hr
  | cons g groups ih =>
    rw [writeGroups] at hr
    rcases ih hr with hr | ⟨j, x, left, hx, hreply, rfl⟩
    · cases hreply : device i with
      | wrote left =>
        rw [hreply] at hr
        refine (mem_append.mp hr).imp_right fun hr => ?_
        exact ⟨0, g, left, rfl, hreply, mem_singleton.mp hr⟩
      | failed =>
        rw [hreply] at hr
        exact .inl hr
    · rw [Nat.add_assoc, Nat.add_comm 1] at hreply
      exact .inr ⟨j + 1, x, left, hx, hreply, rfl⟩

theorem flushInOrder_eq {device : Nat → DeviceReply} {sorted order : List BufferedRun}
    {dev' : Bytes} (hdata : data.Pairwise NoShared) (hsorted : data.Perm sorted)
    (horder : (coalesce sorted).Perm order) (hw : FailsOrTakesAll device order)
    (hflush : flushInOrder device order dev = (true, dev')) :
    dev' = data.foldl Bytes.writeRun dev := by
  obtain ⟨hok, rfl⟩ := Prod.mk.inj hflush
  have hshared : sorted.Pairwise NoShared := hsorted.pairwise hdata NoShared.symm
  rcases hw with ⟨i, hi, hfail⟩ | hw
  · exact absurd (i.zero_add.symm ▸ hfail) (writeGroups_ok_iff.mp hok i hi)
  · have hwhole := writeGroups_whole (fun j g left hg hreply =>
      hw j g left hg (j.zero_add ▸ hreply)) hok
    rw [hwhole, nil_append, ← foldl_writeRun_perm (coalesce_noShared hshared) horder,
      foldl_coalesce, foldl_writeRun_perm hdata hsorted]

theorem holds_last (hbuf : g.buf ≠ []) (hpos : pos = g.diskOff + (g.buf.length - 1)) :
    g.Holds pos := by
  have hlen := length_pos_iff.mpr hbuf
  simp only [BufferedRun.Holds, BufferedRun.endOff]
  omega

/-- The last byte of a group that is cut short stays what it was. -/
theorem flushInOrder_short {device : Nat → DeviceReply} {order : List BufferedRun} {i left : Nat}
    (hshared : order.Pairwise NoShared) (hg : order[i]? = some g)
    (hreply : device i = .wrote left) (hbuf : g.buf ≠ []) (hleft : left ≠ 0)
    (hpos : pos = g.diskOff + (g.buf.length - 1)) (dev : Bytes) :
    (flushInOrder device order dev).2 pos = dev pos := by
  have hlast := holds_last hbuf hpos
  have hlen := List.length_pos_iff.mpr hbuf
  refine foldl_writeRun_unheld (fun x hx hheld => ?_) dev
  rcases mem_writeGroups hx with hx | ⟨j, g', left', hg', hreply', rfl⟩
  · cases hx
  · rw [Nat.zero_add] at hreply'
    have hheld' : g'.Holds pos := by
      simp only [BufferedRun.Holds, BufferedRun.endOff, List.length_take] at hheld ⊢
      omega
    obtain ⟨hi, rfl⟩ := List.getElem?_eq_some_iff.mp hg
    obtain ⟨hj, rfl⟩ := List.getElem?_eq_some_iff.mp hg'
    have hpair := pairwise_iff_getElem.mp hshared
    rcases Nat.lt_trichotomy i j with hlt | rfl | hlt
    · exact hpair i j hi hj hlt pos hlast hheld'
    · obtain rfl : left' = left := DeviceReply.wrote.inj (hreply'.symm.trans hreply)
      simp only [BufferedRun.Holds, BufferedRun.endOff, List.length_take] at hheld
      omega
    · exact hpair j i hj hi hlt pos hheld' hlast

theorem exists_other_byte (a : Byte) : ∃ b, b ≠ a := by
  by_cases ha : a = 0
  · exact ⟨1, by rw [ha]; decide⟩
  · exact ⟨0, fun h => ha h.symm⟩

theorem bufferedReadAt_eq (hdata : data.Pairwise NoShared) {n : Nat} (hr : r ∈ data)
    (hlow : r.diskOff ≤ pos) (hhigh : pos + n ≤ r.endOff) (dev : Bytes) :
    bufferedReadAt data pos n = some ((data.foldl Bytes.writeRun dev).readAt pos n) := by
  have hfound : ∃ x, data.find? (fun r => decide (r.diskOff ≤ pos ∧ pos + n ≤ r.endOff)) = some x :=
    isSome_iff_exists.mp (find?_isSome.mpr ⟨r, hr, decide_eq_true ⟨hlow, hhigh⟩⟩)
  obtain ⟨x, hx⟩ := hfound
  have hmem := mem_of_find?_eq_some hx
  have hin := find?_some hx
  rw [decide_eq_true_eq, BufferedRun.endOff] at hin
  rw [bufferedReadAt, hx, map_some]
  refine congrArg some (ext_getElem ?_ fun i h₁ h₂ => ?_)
  · rw [length_readAt, length_take, length_drop]
    omega
  · rw [length_readAt] at h₂
    have hheld : x.Holds (pos + i) := ⟨by omega, by rw [BufferedRun.endOff]; omega⟩
    have hlt : pos + i - x.diskOff < x.buf.length := by omega
    have hat : pos - x.diskOff + i = pos + i - x.diskOff := by omega
    simp only [Bytes.readAt, getElem_take, getElem_drop, getElem_map,
      getElem_range, foldl_writeRun_held hdata hmem hheld, hat]
    exact (getD_eq_getElem _ _ hlt).symm

/-! ## The result -/

/-- The device holds each run's bytes and is otherwise as before, and what was served from RAM
before the flush is what it returns now. -/
structure Landed (data : List BufferedRun) (dev dev' : Bytes) : Prop where
  held : ∀ r ∈ data, dev'.readAt r.diskOff r.buf.length = r.buf
  unheld : ∀ pos, (∀ r ∈ data, ¬ r.Holds pos) → dev' pos = dev pos
  served : ∀ r ∈ data, ∀ pos n, r.diskOff ≤ pos → pos + n ≤ r.endOff →
    bufferedReadAt data pos n = some (dev'.readAt pos n)

theorem landed_foldl (hdata : data.Pairwise NoShared) (dev : Bytes) :
    Landed data dev (data.foldl Bytes.writeRun dev) where
  held := by
    intro r hr
    refine ext_getElem (length_readAt ..) fun i h₁ h₂ => ?_
    have hheld : r.Holds (r.diskOff + i) :=
      ⟨Nat.le_add_right .., Nat.add_lt_add_left h₂ _⟩
    simp only [Bytes.readAt, getElem_map, getElem_range,
      foldl_writeRun_held hdata hr hheld, Nat.add_sub_cancel_left]
    exact getD_eq_getElem _ _ h₂
  unheld := fun _ h => foldl_writeRun_unheld h dev
  served := fun _ hr _ _ hlow hhigh => bufferedReadAt_eq hdata hr hlow hhigh dev

/-- For runs that share no byte, sorted in any way, merged, and written in any order: a flush that
succeeds lands on a device with any content exactly when a write of it fails or each one that
has bytes is taken whole. -/
theorem flush_leaves_runs (data sorted order : List BufferedRun) (device : Nat → DeviceReply)
    (hdata : data.Pairwise NoShared) (hsorted : data.Perm sorted)
    (horder : (coalesce sorted).Perm order) :
    (∀ dev dev', flushInOrder device order dev = (true, dev') → Landed data dev dev') ↔
      FailsOrTakesAll device order := by
  constructor
  · intro h
    by_contra hnot
    simp only [FailsOrTakesAll, not_or, not_exists, not_and, not_forall] at hnot
    obtain ⟨hnone, i, g, left, hg, hreply, hbuf, hleft⟩ := hnot
    have hshared : sorted.Pairwise NoShared := hsorted.pairwise hdata NoShared.symm
    have hgroups := horder.pairwise (coalesce_noShared hshared) NoShared.symm
    obtain ⟨pos, hpos⟩ : ∃ pos, pos = g.diskOff + (g.buf.length - 1) := ⟨_, rfl⟩
    obtain ⟨r, hr, hheld⟩ := holds_of_coalesce
      (horder.mem_iff.mpr (mem_of_getElem? hg)) (holds_last hbuf hpos)
    have hok : (writeGroups device 0 [] order).1 = true :=
      writeGroups_ok_iff.mpr fun j hj => j.zero_add.symm ▸ hnone j hj
    -- The device held another byte there before.
    obtain ⟨b, hb⟩ := exists_other_byte (r.buf.getD (pos - r.diskOff) 0)
    have hland := h (fun _ => b) _ (Prod.ext hok rfl)
    have hread := congrArg (·.getD (pos - r.diskOff) 0) (hland.held r (hsorted.mem_iff.mpr hr))
    have hlt : pos - r.diskOff < r.buf.length := by
      have hend := hheld
      simp only [BufferedRun.Holds, BufferedRun.endOff] at hend
      omega
    simp only [Bytes.readAt] at hread
    rw [getD_eq_getElem _ _ (by simpa using hlt), getElem_map, getElem_range,
      Nat.add_sub_of_le hheld.1] at hread
    exact hb ((flushInOrder_short hgroups hg hreply hbuf hleft hpos _).symm.trans hread)
  · rintro hw dev dev' hflush
    rw [flushInOrder_eq hdata hsorted horder hw hflush]
    exact landed_foldl hdata dev

theorem noShared_of_apart (h : r.Apart r' ∨ r.buf = [] ∨ r'.buf = []) : NoShared r r' := by
  intro pos hr hr'
  simp only [BufferedRun.Holds, BufferedRun.endOff, BufferedRun.Apart] at h hr hr'
  rcases h with h | h | h
  · omega
  · rw [h, length_nil] at hr
    omega
  · rw [h, length_nil] at hr'
    omega

def scatteredRuns : List BufferedRun :=
  [⟨8192, [5]⟩, ⟨4098, [3, 4]⟩, ⟨4096, [1, 2]⟩, ⟨4098, []⟩]

def sortedRuns : List BufferedRun :=
  [⟨4096, [1, 2]⟩, ⟨4098, [3, 4]⟩, ⟨4098, []⟩, ⟨8192, [5]⟩]

theorem scatteredRuns_noShared : scatteredRuns.Pairwise NoShared := by
  have happart : scatteredRuns.Pairwise fun r r' =>
      (r.endOff ≤ r'.diskOff ∨ r'.endOff ≤ r.diskOff) ∨ r.buf = [] ∨ r'.buf = [] := by decide
  exact happart.imp noShared_of_apart

theorem flush_leaves_runs_scattered :
    ∃ dev', flushInOrder (fun _ => .wrote 0) (coalesce sortedRuns).reverse (fun _ => 9) =
        (true, dev') ∧ dev'.readAt 4096 4 = [1, 2, 3, 4] ∧
      dev'.readAt 4098 2 = [3, 4] ∧ dev' 4100 = 9 ∧
      bufferedReadAt scatteredRuns 4099 1 = some (dev'.readAt 4099 1) := by
  have hland := (flush_leaves_runs scatteredRuns sortedRuns (coalesce sortedRuns).reverse
    (fun _ => .wrote 0) scatteredRuns_noShared (by decide) (reverse_perm _).symm).mpr
    (.inr fun _ _ _ _ h _ => (DeviceReply.wrote.inj h).symm) (fun _ => 9) _ rfl
  refine ⟨_, rfl, by decide, hland.held ⟨4098, [3, 4]⟩ (by decide), by decide, ?_⟩
  exact hland.served ⟨4098, [3, 4]⟩ (by decide) 4099 1 (by decide) (by decide)

/-- The device takes the first of two bytes and reports no error: the flush succeeds, and the
second byte is not on the device. -/
theorem short_write_flushed :
    ∃ dev', flushInOrder (fun _ => .wrote 1) (coalesce [⟨4096, [1, 2]⟩]) (fun _ => 9) =
        (true, dev') ∧ dev'.readAt 4096 2 = [1, 9] ∧
      bufferedReadAt [⟨4096, [1, 2]⟩] 4096 2 = some [1, 2] :=
  ⟨_, rfl, by decide, by decide⟩

end EtcFS.Correctness
