import EtcFS.Ipc.Image
import EtcFS.Ipc.Leftovers

/-!
# What a punched range reads as

Tails start on a block boundary at or before the punch's end and extents of other arenas stay, so
the range may not read as zero. Behind the range the pieces start together and some have new
numbers, so a byte there may be read from another extent than before.
-/

namespace EtcFS.Correctness

open EtcFS.Core Metadata Ipc List Option

def TakesOut (n : Node) (stop b : Nat) (e : ExtentValue) : Prop :=
  n.owns e.diskOff = true ∧ (stop < e.endOff → b < tailStart e stop)

def Emptied (n : Node) (start stop size : Nat) (extents : List Extent) : Prop :=
  ∀ b, start ≤ b → b < stop → b < size → ∀ e ∈ extents, e.Covers b →
    TakesOut n stop b e.toExtentValue

/-- The piece that covers the byte is a tail with a new number. -/
def Renumbered (n : Node) (start stop b : Nat) (e : ExtentValue) : Prop :=
  CutInTwo n start stop e ∧ (stop ≤ b ∨ tailStart e stop = e.logOff)
  deriving Decidable

def beginsAt (start stop b : Nat) (e : ExtentValue) : Nat :=
  if b < start then e.logOff else max stop e.logOff

/-- New numbers are above all others and are given in the order of the extents. -/
def Outnumbers (n : Node) (start stop b : Nat) (f g : Extent) : Prop :=
  if Renumbered n start stop b f.toExtentValue then
    Renumbered n start stop b g.toExtentValue → g.Before f
  else ¬Renumbered n start stop b g.toExtentValue ∧ g.chunk < f.chunk

/-- Outside the range a read after the punch prefers the first of the two. -/
def Precedes (n : Node) (start stop b : Nat) (f g : Extent) : Prop :=
  beginsAt start stop b f.toExtentValue < beginsAt start stop b g.toExtentValue ∨
    beginsAt start stop b f.toExtentValue = beginsAt start stop b g.toExtentValue ∧
      (g.seq < f.seq ∨ g.seq = f.seq ∧ Outnumbers n start stop b f g)

/-- The extent that is read outside the range after the punch has the byte where the
one that is read before it has it. -/
def ReadsOn (n : Node) (start stop size : Nat) (extents : List Extent) : Prop :=
  ∀ b < size, (b < start ∨ stop ≤ b) → ∀ e,
    extents.find? (fun x => decide (x.Covers b)) = some e → ∀ f ∈ extents, f.Covers b →
      (∀ g ∈ extents, g.Covers b → g ≠ f → Precedes n start stop b f g) →
        f.devicePos b = e.devicePos b

/-! ## The extents a punch leaves -/

section

variable {n : Node} {ino start stop : Nat} {s : Etcd} {r : Pass}

theorem mem_of_reclaimed (h : Reclaimed n ino start stop s r) {y : ExtentValue} :
    y ∈ (getExtents r.etcd ino).map Extent.toExtentValue ↔
      ∃ e ∈ getExtents s ino, y ∈ cutBy n start stop e.toExtentValue := by
  have hc : (↑((getExtents r.etcd ino).map Extent.toExtentValue) : Multiset ExtentValue) =
      piecesOf n start stop (getExtents s ino) :=
    (contents_eq_getExtents r.etcd ino).symm.trans h.contents
  rw [← Multiset.mem_coe, hc, piecesOf, Multiset.mem_coe, mem_flatMap]

variable {b : Nat}

theorem exists_cutBy_inside_iff {e : ExtentValue} (hlo : start ≤ b) (hhi : b < stop)
    (hb : e.Covers b) :
    (∃ y ∈ cutBy n start stop e, y.Covers b) ↔ ¬ TakesOut n stop b e := by
  have hov : e.Overlaps start stop := ⟨hb.1.trans_lt hhi, hlo.trans_lt hb.2⟩
  cases howns : n.owns e.diskOff with
  | false =>
    have hcut : cutBy n start stop e = [e] := if_neg (by simp [howns])
    simp [hcut, hb, TakesOut, howns]
  | true =>
    have hcut : cutBy n start stop e = survivors e start stop := if_pos ⟨hov, howns⟩
    rw [hcut, exists_survivor_covers_iff hov]
    simp only [TakesOut, howns, hb, true_and]
    omega

theorem uncovered_iff (h : Reclaimed n ino start stop s r) (hlo : start ≤ b)
    (hhi : b < stop) : (∀ x ∈ getExtents r.etcd ino, ¬ x.Covers b) ↔
      ∀ e ∈ getExtents s ino, e.Covers b → TakesOut n stop b e.toExtentValue := by
  constructor
  · intro hnone e he heb
    by_contra hnot
    obtain ⟨y, hy, hyb⟩ := (exists_cutBy_inside_iff hlo hhi heb).mpr hnot
    obtain ⟨x, hx, rfl⟩ := mem_map.mp ((mem_of_reclaimed h).mpr ⟨e, he, hy⟩)
    exact hnone x hx hyb
  · intro hall x hx hxb
    obtain ⟨e, he, hy⟩ := (mem_of_reclaimed h).mp (mem_map_of_mem hx)
    have heb := ((cutBy_covers hy).2 b hxb).1
    exact (exists_cutBy_inside_iff hlo hhi heb).mp ⟨_, hy, hxb⟩ (hall e he heb)

theorem logOff_past {size : Nat} (hrange : start < stop)
    (hempty : Emptied n start stop size (getExtents s ino)) {e : Extent}
    (he : e ∈ getExtents s ino) {y : ExtentValue} (hy : y ∈ cutBy n start stop e.toExtentValue)
    (hyb : y.Covers b) (hge : stop ≤ b) (hsize : b < size) :
    y.logOff = max stop e.logOff := by
  have heb := ((cutBy_covers hy).2 b hyb).1
  rw [logOff_eq_restStart hy hyb (hrange.le.trans hge)]
  by_cases hlo : e.logOff < stop
  · -- The last byte of the range is one of the extent's, so it is taken out.
    have hlast : e.Covers (stop - 1) :=
      ⟨Nat.le_sub_one_of_lt hlo, (Nat.sub_le _ _).trans_lt (hge.trans_lt heb.2)⟩
    obtain ⟨howns, htail⟩ := hempty (stop - 1) (by omega) (by omega) (by omega) e he hlast
    have hcut : IsCut n start stop e.toExtentValue :=
      ⟨⟨hlo, (hrange.trans_le hge).trans heb.2⟩, howns⟩
    have hbehind := htail (hge.trans_lt heb.2)
    have hle : tailStart e.toExtentValue stop ≤ stop := tailStart_le hlo.le
    rw [restStart, if_pos hcut]
    omega
  · have hcut : ¬ IsCut n start stop e.toExtentValue := fun hc => hlo hc.1.1
    rw [restStart, if_neg hcut]
    omega

/-! ## The extent that is read outside the range -/

section

variable {size : Nat} {t : Etcd} {label : Extent → Nat}

def number (n : Node) (start stop b : Nat) (label : Extent → Nat) (e : Extent) : Nat :=
  if Renumbered n start stop b e.toExtentValue then label e else e.chunk

theorem chunk_le_number (h : LeavesPieces n ino start stop label s t) {e : Extent}
    (he : e ∈ getExtents s ino) : e.chunk ≤ number n start stop b label e := by
  unfold number
  split
  · rename_i hre
    exact (h.above e he e he hre.1).le
  · exact le_rfl

theorem number_lt_of_outnumbers (h : LeavesPieces n ino start stop label s t) {f g : Extent}
    (hf : f ∈ getExtents s ino) (hg : g ∈ getExtents s ino)
    (hout : Outnumbers n start stop b f g) :
    number n start stop b label g < number n start stop b label f := by
  unfold Outnumbers at hout
  unfold number
  by_cases hfr : Renumbered n start stop b f.toExtentValue
  · rw [if_pos hfr] at hout ⊢
    split
    · rename_i hgr
      exact h.grows g hg f hf hgr.1 hfr.1 (hout hgr)
    · exact h.above g hg f hf hfr.1
  · rw [if_neg hfr] at hout ⊢
    rw [if_neg hout.1]
    exact hout.2

theorem precedes_or_precedes {f g : Extent} (hf : f ∈ getExtents s ino)
    (hg : g ∈ getExtents s ino) (hne : f ≠ g) :
    Precedes n start stop b f g ∨ Precedes n start stop b g f := by
  have hchunk : f.chunk ≠ g.chunk := fun hc =>
    hne ((getExtents_distinct s ino).eq_of_mem hf hg hc)
  have hbefore : f.Before g ∨ g.Before f := Extent.before_or_before hchunk
  have hout : Outnumbers n start stop b f g ∨ Outnumbers n start stop b g f := by
    unfold Outnumbers
    split_ifs with hfr hgr hgr
    · tauto
    · tauto
    · tauto
    · exact hchunk.lt_or_gt.symm.imp (⟨hgr, ·⟩) (⟨hfr, ·⟩)
  unfold Precedes
  grind

/-- A piece that covers the byte stands no earlier than its extent's best one. -/
theorem exists_source (h : LeavesPieces n ino start stop label s t) (hrange : start < stop)
    (hempty : Emptied n start stop size (getExtents s ino)) (hsize : b < size)
    (hout : b < start ∨ stop ≤ b) {x : Extent} (hx : x ∈ getExtents t ino) (hxb : x.Covers b) :
    ∃ f ∈ getExtents s ino, f.Covers b ∧ x.devicePos b = f.devicePos b ∧ x.seq = f.seq ∧
      (beginsAt start stop b f.toExtentValue < x.logOff ∨
        beginsAt start stop b f.toExtentValue = x.logOff ∧
          x.chunk ≤ number n start stop b label f) := by
  obtain ⟨f, hf, hleft⟩ := (h.value _ _).mp
    (valueAt_of_mem hx)
  have hmem : x.toExtentValue ∈ cutBy n start stop f.toExtentValue :=
    mem_cutBy_iff.mpr (hleft.imp And.right fun h => ⟨h.1, h.2.2⟩)
  obtain ⟨hseq, hcov⟩ := cutBy_covers hmem
  refine ⟨f, hf, (hcov b hxb).1, (hcov b hxb).2, hseq, ?_⟩
  have hbegins : beginsAt start stop b f.toExtentValue ≤ x.logOff := by
    unfold beginsAt
    split
    · exact logOff_le_of_mem_cutBy hmem
    · exact (logOff_past hrange hempty hf hmem hxb (by omega) hsize).ge
  refine hbegins.lt_or_eq.imp_right fun heq => ⟨heq, ?_⟩
  rcases hleft with ⟨hk, -⟩ | ⟨htwo, hk, htail⟩
  · exact hk.trans_le (chunk_le_number h hf)
  · have hre : Renumbered n start stop b f.toExtentValue := by
      refine ⟨htwo, hout.symm.imp_right fun hlt => ?_⟩
      rw [beginsAt, if_pos hlt, htail] at heq
      exact heq.symm
    rw [hk, number, if_pos hre]

theorem exists_best (h : LeavesPieces n ino start stop label s t) (hrange : start < stop)
    (hempty : Emptied n start stop size (getExtents s ino)) (hsize : b < size)
    (hout : b < start ∨ stop ≤ b) {f : Extent} (hf : f ∈ getExtents s ino) (hfb : f.Covers b) :
    ∃ x ∈ getExtents t ino, x.Covers b ∧ x.devicePos b = f.devicePos b ∧ x.seq = f.seq ∧
      x.logOff = beginsAt start stop b f.toExtentValue ∧
        x.chunk = number n start stop b label f := by
  suffices hpiece : ∃ v : ExtentValue, v.Covers b ∧
      v.logOff = beginsAt start stop b f.toExtentValue ∧
        LeavesAt n start stop label (number n start stop b label f) v f by
    obtain ⟨v, hvb, hlog, hleft⟩ := hpiece
    have hmem : v ∈ cutBy n start stop f.toExtentValue :=
      mem_cutBy_iff.mpr (hleft.imp And.right fun h => ⟨h.1, h.2.2⟩)
    obtain ⟨x, hx, hk, rfl⟩ := exists_of_valueAt ((h.value _ _).mpr ⟨f, hf, hleft⟩)
    obtain ⟨hseq, hcov⟩ := cutBy_covers hmem
    exact ⟨x, hx, hvb, (hcov b hvb).2, hseq, hlog, hk⟩
  have hlog : ∀ v ∈ cutBy n start stop f.toExtentValue, v.Covers b → stop ≤ b →
      v.logOff = beginsAt start stop b f.toExtentValue := by
    intro v hv hvb hge
    rw [beginsAt, if_neg (by omega)]
    exact logOff_past hrange hempty hf hv hvb hge hsize
  unfold number
  split_ifs with hre
  · obtain ⟨htwo, hwhere⟩ := hre
    have hle := tailStart_le htwo.1.1.1.le
    have hcov : (tailOf f.toExtentValue stop).Covers b := by
      refine (tailOf_covers htwo.1.1.1.le htwo.2.2).mpr ⟨hfb, ?_⟩
      have := hfb.1
      omega
    refine ⟨_, hcov, ?_, .inr ⟨htwo, rfl, rfl⟩⟩
    rcases hout with hlt | hge
    · rw [beginsAt, if_pos hlt]
      exact hwhere.resolve_left (by omega)
    · exact hlog _ (mem_cutBy_iff.mpr (.inr ⟨htwo, rfl⟩)) hcov hge
  · obtain ⟨v, hv, hvb, hvlog⟩ : ∃ v ∈ cutBy n start stop f.toExtentValue, v.Covers b ∧
        v.logOff = beginsAt start stop b f.toExtentValue := by
      rcases hout with hlt | hge
      · rw [beginsAt, if_pos hlt]
        exact exists_cutBy_before hfb hlt
      · obtain ⟨v, hv, hvb⟩ : ∃ v ∈ cutBy n start stop f.toExtentValue, v.Covers b :=
          exists_cutBy_after hfb hge
        exact ⟨v, hv, hvb, hlog v hv hvb hge⟩
    refine ⟨v, hvb, hvlog, ?_⟩
    rcases mem_cutBy_iff.mp hv with hhead | ⟨htwo, rfl⟩
    · exact .inl ⟨rfl, hhead⟩
    · refine absurd ⟨htwo, hout.symm.imp_right fun hlt => ?_⟩ hre
      rwa [beginsAt, if_pos hlt] at hvlog

/-- The extent that precedes the others is read, and there is one. -/
theorem exists_read (h : LeavesPieces n ino start stop label s t) (hrange : start < stop)
    (hempty : Emptied n start stop size (getExtents s ino)) (hsize : b < size)
    (hout : b < start ∨ stop ≤ b) {e : Extent} (he : e ∈ getExtents s ino) (heb : e.Covers b) :
    ∃ f ∈ getExtents s ino, f.Covers b ∧
      (∀ g ∈ getExtents s ino, g.Covers b → g ≠ f → Precedes n start stop b f g) ∧
      ∀ dev, resolve dev (getExtents t ino) b = dev (f.devicePos b) := by
  obtain ⟨y, hy, hyb, -⟩ := exists_best h hrange hempty hsize hout he heb
  obtain ⟨x, hfind⟩ := exists_find_of_covers hy hyb
  obtain ⟨hx, hxb, hleast⟩ := (find?_eq_some_iff_least (getExtents_ordered t ino)).mp hfind
  obtain ⟨f, hf, hfb, hpos, hseq, hplace⟩ :=
    exists_source h hrange hempty hsize hout hx (by simpa using hxb)
  refine ⟨f, hf, hfb, fun g hg hgb hne => ?_, fun dev => by rw [resolve_eq hfind, hpos]⟩
  refine (precedes_or_precedes hf hg hne.symm).resolve_right fun hgf => ?_
  obtain ⟨z, hz, hzb, -, hzseq, hzlog, hzk⟩ := exists_best h hrange hempty hsize hout hg hgb
  have hzx : z.Before x := by
    have hnum : Outnumbers n start stop b g f →
        number n start stop b label f < number n start stop b label g :=
      number_lt_of_outnumbers h hg hf
    unfold Precedes at hgf
    rw [Extent.before_iff]
    rcases hgf with hlt | ⟨heq, hlt | ⟨hage, hgf⟩⟩
    · omega
    · omega
    · have := hnum hgf
      omega
  rcases hleast z hz (by simpa using hzb) with rfl | hxz
  · exact asymm hzx hzx
  · exact asymm hzx hxz

theorem precedes_asymm (h : LeavesPieces n ino start stop label s t) {f g : Extent}
    (hf : f ∈ getExtents s ino) (hg : g ∈ getExtents s ino) (hfg : Precedes n start stop b f g) :
    ¬Precedes n start stop b g f := by
  have h₁ : Outnumbers n start stop b f g → _ := number_lt_of_outnumbers h hf hg
  have h₂ : Outnumbers n start stop b g f → _ := number_lt_of_outnumbers h hg hf
  unfold Precedes at hfg ⊢
  grind

theorem resolve_outside_iff (h : LeavesPieces n ino start stop label s t) (hrange : start < stop)
    (hempty : Emptied n start stop size (getExtents s ino)) (hsize : b < size)
    (hout : b < start ∨ stop ≤ b) :
    (∀ dev, resolve dev (getExtents t ino) b = resolve dev (getExtents s ino) b) ↔
      ∀ e, (getExtents s ino).find? (fun x => decide (x.Covers b)) = some e →
        ∀ f ∈ getExtents s ino, f.Covers b →
          (∀ g ∈ getExtents s ino, g.Covers b → g ≠ f → Precedes n start stop b f g) →
            f.devicePos b = e.devicePos b := by
  cases hfind : (getExtents s ino).find? fun x => decide (x.Covers b) with
  | none =>
    have hnone : ∀ e ∈ getExtents s ino, ¬e.Covers b := by simpa using find?_eq_none.mp hfind
    refine ⟨fun _ e he => (by simp at he), fun _ dev => ?_⟩
    rw [resolve_eq_zero hnone, resolve_eq_zero]
    intro x hx hxb
    obtain ⟨f, hf, hfb, -⟩ := exists_source h hrange hempty hsize hout hx hxb
    exact hnone f hf hfb
  | some e =>
    have heb : e.Covers b := by simpa using find?_some hfind
    obtain ⟨f, hf, hfb, hfirst, hread⟩ :=
      exists_read h hrange hempty hsize hout (mem_of_find?_eq_some hfind) heb
    simp only [hread, resolve_eq hfind, some.injEq, forall_eq']
    constructor
    · intro hsame f' hf' hfb' hfirst'
      -- A device with a single one tells the two positions apart.
      have hone := hsame fun p => if p = e.devicePos b then 1 else 0
      have hpos : f.devicePos b = e.devicePos b := by
        by_contra hne
        simp [hne] at hone
      by_cases hff : f' = f
      · rw [hff, hpos]
      · exact absurd (hfirst f' hf' hfb' hff)
          (precedes_asymm h hf' hf (hfirst' f hf hfb (Ne.symm hff)))
    · intro hall dev
      rw [hall f hf hfb hfirst]

end

end

/-- A punched file shows the punched image, on every device, exactly when the punch
empties the range and every other byte is read from where it was. -/
theorem punchHole_shows_iff {n : Node} {ino start stop : Nat} {s : Etcd} {rec : InodeRecord}
    (hrange : start < stop) (hrec : getInode s ino = some rec) :
    ((punchHole n ino start stop s).failed = false ∧ ∀ dev img, Shows s ino dev img →
        Shows (punchHole n ino start stop s).etcd ino dev (img.punch start stop)) ↔
      Emptied n start stop rec.size (getExtents s ino) ∧
        ReadsOn n start stop rec.size (getExtents s ino) := by
  have h := punchHole_reclaimed n ino start stop s
  obtain ⟨label, hpieces⟩ : ∃ label,
      LeavesPieces n ino start stop label s (punchHole n ino start stop s).etcd := by
    rw [punchHole_eq_punchOnce]
    exact reclaimSelected_leavesPieces fun e _ => punched_iff e
  have hsame : getInode (punchHole n ino start stop s).etcd ino = some rec := by
    rw [getInode, h.frame _ (by simp)]
    exact hrec
  constructor
  · rintro ⟨-, hshows⟩
    have hbytes : ∀ dev, ∀ b < rec.size,
        resolve dev (getExtents (punchHole n ino start stop s).etcd ino) b =
          if start ≤ b ∧ b < stop then 0 else resolve dev (getExtents s ino) b := by
      intro dev
      obtain ⟨-, -, -, hbytes⟩ := shows_iff.mp (hshows dev _ (shows_resolvedImage hrec dev))
      exact hbytes
    have hempty : Emptied n start stop rec.size (getExtents s ino) := by
      intro b hlo hhi hsize
      -- On a device of ones the byte is zero only if nothing covers it.
      have hzero := hbytes (fun _ => 1) b hsize
      rw [if_pos ⟨hlo, hhi⟩] at hzero
      exact (uncovered_iff h hlo hhi).mp (resolve_ones_eq_zero_iff.mp hzero)
    refine ⟨hempty, fun b hsize hout => ?_⟩
    refine (resolve_outside_iff hpieces hrange hempty hsize hout).mp fun dev => ?_
    rw [hbytes dev b hsize, if_neg (by omega)]
  · rintro ⟨hempty, hreads⟩
    refine ⟨h.failed, fun dev img hshows => ?_⟩
    obtain ⟨rec', hrec', hsize, hbytes⟩ := shows_iff.mp hshows
    obtain rfl : rec = rec' := some.inj (hrec.symm.trans hrec')
    refine shows_iff.mpr ⟨rec, hsame, hsize, fun b hb => ?_⟩
    have hb' : b < rec.size := lt_of_lt_of_eq hb hsize.symm
    simp only [FileImage.punch]
    split
    · rename_i hin
      exact resolve_eq_zero ((uncovered_iff h hin.1 hin.2).mpr (hempty b hin.1 hin.2 hb'))
    · rename_i hin
      have hout : b < start ∨ stop ≤ b := by omega
      rw [← hbytes b hb]
      exact (resolve_outside_iff hpieces hrange hempty hb' hout).mpr (hreads b hb' hout) dev

/-! ## Two punches -/

def rewrittenFront : Etcd := (freshFile 7).commit
  [.put (.inode 7) { regularFile 7 with size := 12288 },
    .put (.extent 7 0) ⟨0, 0, 12288, 0, 0, "a"⟩,
    .put (.extent 7 1) ⟨0, 12288, 100, 0, 1, "a"⟩]

theorem rewrittenFront_extents : getExtents rewrittenFront 7 =
    [⟨⟨0, 12288, 100, 0, 1, "a"⟩, 1, 2⟩, ⟨⟨0, 0, 12288, 0, 0, "a"⟩, 0, 2⟩] := by
  decide +kernel

/-- A punch of the whole first block goes through both extents. -/
theorem frontBlock_punched :
    getInode rewrittenFront 7 = some { regularFile 7 with size := 12288 } ∧
      (punchHole ownsAll 7 0 4096 rewrittenFront).failed = false ∧
      ∀ dev img, Shows rewrittenFront 7 dev img →
        Shows (punchHole ownsAll 7 0 4096 rewrittenFront).etcd 7 dev (img.punch 0 4096) := by
  have hrec : getInode rewrittenFront 7 = some { regularFile 7 with size := 12288 } := by
    decide +kernel
  refine ⟨hrec, (punchHole_shows_iff (by decide) hrec).mpr ⟨?_, ?_⟩⟩
  · rw [rewrittenFront_extents]
    intro b hlo hhi hsize e he heb
    simp only [mem_cons, not_mem_nil, or_false] at he
    refine ⟨rfl, fun hpast => ?_⟩
    rcases he with rfl | rfl
    · exact absurd hpast (by decide)
    · exact lt_of_lt_of_eq hhi (by decide)
  · rw [rewrittenFront_extents]
    intro b hsize hout e hfind f hf hfb _
    have he := mem_of_find?_eq_some hfind
    have heb : e.Covers b := by simpa using find?_some hfind
    -- Behind the first block only the long extent covers a byte.
    simp only [mem_cons, not_mem_nil, or_false] at he hf
    rcases he with rfl | rfl <;> rcases hf with rfl | rfl <;>
      simp only [ExtentValue.Covers, ExtentValue.endOff] at heb hfb <;> first | rfl | omega

/-- A punch of less than a block at the front of an extent succeeds, and the byte is
read as before. -/
theorem frontByte_stays :
    (punchHole ownsAll 7 0 1 threeBytes).failed = false ∧
      (getInode threeBytes 7).map (fun rec =>
        handleRead rec (getExtents threeBytes 7) [] threeOnDevice 0 3) = some [1, 2, 3] ∧
      (getInode (punchHole ownsAll 7 0 1 threeBytes).etcd 7).map (fun rec =>
        handleRead rec (getExtents (punchHole ownsAll 7 0 1 threeBytes).etcd 7) [] threeOnDevice
          0 3) = some [1, 2, 3] := by
  decide +kernel

end EtcFS.Correctness
