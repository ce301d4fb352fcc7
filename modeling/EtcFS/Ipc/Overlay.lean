import EtcFS.Ipc.Publish
import EtcFS.Ipc.Read
import Mathlib.Data.Finset.Max

/-!
# A write laid over the extents of a file

A published write adds intervals newer than all others and cuts those it buries. This says exactly
when the newest one stays first.
-/

namespace EtcFS.Ipc

open EtcFS.Core Metadata Arena List Option

def NewestAt (vs : List ExtentValue) (b : Nat) (e : ExtentValue) : Prop :=
  e ∈ vs ∧ e.Covers b ∧ ∀ f ∈ vs, f.Covers b → f.seq ≤ e.seq

def NewestFirst (vs : List ExtentValue) : Prop :=
  ∀ b e, NewestAt vs b e → ∀ f ∈ vs, f.Covers b → e.logOff ≤ f.logOff

def AgeDisjoint (e f : ExtentValue) : Prop := e.seq = f.seq → ∀ b, e.Covers b → ¬ f.Covers b

theorem AgeDisjoint.symm {e f : ExtentValue} (h : AgeDisjoint e f) : AgeDisjoint f e :=
  fun hs b hf he => h hs.symm b he hf

def OneAtATime (vs : List ExtentValue) : Prop := vs.Pairwise AgeDisjoint

theorem OneAtATime.perm {vs vs' : List ExtentValue} (h : OneAtATime vs) (hp : vs.Perm vs') :
    OneAtATime vs' := hp.pairwise h AgeDisjoint.symm

theorem exists_newestAt {vs : List ExtentValue} {b : Nat} {e : ExtentValue} (he : e ∈ vs)
    (hb : e.Covers b) : ∃ m, NewestAt vs b m := by
  obtain ⟨m, hm, hmax⟩ := Finset.exists_max_image (vs.toFinset.filter fun f => f.Covers b)
    ExtentValue.seq ⟨e, by simpa using ⟨he, hb⟩⟩
  simp only [Finset.mem_filter, List.mem_toFinset] at hm hmax
  exact ⟨m, hm.1, hm.2, fun f hf hfb => hmax f ⟨hf, hfb⟩⟩

/-! ## Reading the newest byte -/

def ReadsNewest (extents : List Extent) : Prop :=
  ∀ offset reqEnd b, offset ≤ b → b < reqEnd → (∃ e ∈ extents, e.Covers b) →
    ∃ f ∈ readWalk reqEnd offset extents, f.Takes b ∧ f.source ∈ extents ∧
      f.source.Covers b ∧ ∀ e ∈ extents, e.Covers b → e.seq ≤ f.source.seq

theorem OneAtATime.eq_of_seq_eq {extents : List Extent}
    (h : OneAtATime (extents.map Extent.toExtentValue)) {x y : Extent} (hx : x ∈ extents)
    (hy : y ∈ extents) (hs : x.seq = y.seq) {b : Nat} (hxb : x.Covers b) (hyb : y.Covers b) :
    x = y := by
  by_contra hne
  rw [OneAtATime, pairwise_map] at h
  have hsymm : Std.Symm fun a b : Extent => AgeDisjoint a.toExtentValue b.toExtentValue :=
    ⟨fun _ _ hr => hr.symm⟩
  exact h.forall hx hy hne hs b hxb hyb

theorem readsNewest_iff {extents : List Extent} (ho : Ordered extents)
    (h1 : OneAtATime (extents.map Extent.toExtentValue)) :
    ReadsNewest extents ↔ NewestFirst (extents.map Extent.toExtentValue) := by
  constructor
  · rintro h b v ⟨hv, hvb, hmax⟩ w hw hwb
    obtain ⟨x, hx, rfl⟩ := mem_map.mp hv
    obtain ⟨y, hy, rfl⟩ := mem_map.mp hw
    obtain ⟨f, hf, ht, hz, hzb, hnewest⟩ := h b (b + 1) b le_rfl (Nat.lt_succ_self b) ⟨x, hx, hvb⟩
    have hfind := (readWalk_takes ho le_rfl (Nat.lt_succ_self b) f.source).mp ⟨f, hf, ht, rfl⟩
    obtain ⟨-, -, hleast⟩ := (find?_eq_some_iff_least ho).mp hfind
    have hsame : x = f.source := by
      refine h1.eq_of_seq_eq hx hz (le_antisymm (hnewest x hx hvb) ?_) hvb hzb
      exact hmax _ (mem_map_of_mem hz) hzb
    rw [hsame]
    rcases hleast y hy (by simpa using hwb) with rfl | hbefore
    · exact le_rfl
    · rw [Extent.before_iff] at hbefore
      omega
  · rintro h offset reqEnd b hlo hhi ⟨e, he, heb⟩
    obtain ⟨m, hm⟩ := exists_newestAt (mem_map_of_mem (f := Extent.toExtentValue) he) heb
    obtain ⟨z, hz, rfl⟩ := mem_map.mp hm.1
    have hsome : (extents.find? fun x => decide (x.Covers b)).isSome = true := by
      rw [find?_isSome]
      exact ⟨e, he, by simpa using heb⟩
    obtain ⟨x, hfind⟩ := isSome_iff_exists.mp hsome
    obtain ⟨hx, hxb, hleast⟩ := (find?_eq_some_iff_least ho).mp hfind
    rw [decide_eq_true_eq] at hxb
    obtain ⟨f, hf, ht, rfl⟩ := (readWalk_takes ho hlo hhi x).mpr hfind
    refine ⟨f, hf, ht, hx, hxb, ?_⟩
    intro y hy hyb
    refine (hm.2.2 _ (mem_map_of_mem hy) hyb).trans ?_
    have hle := h b _ hm _ (mem_map_of_mem hx) hxb
    rcases hleast z hz (by simpa using hm.2.1) with rfl | hbefore
    · exact le_rfl
    · rw [Extent.before_iff] at hbefore
      omega

/-! ## Laying a write over a list of extents -/

section

variable {n : Node} {start stop : Nat}

def IsCut (n : Node) (start stop : Nat) (e : ExtentValue) : Prop :=
  e.Overlaps start stop ∧ n.owns e.diskOff = true
  deriving Decidable

def restStart (n : Node) (start stop : Nat) (e : ExtentValue) : Nat :=
  if IsCut n start stop e then tailStart e stop else e.logOff

def HalvesApart (n : Node) (start stop : Nat) (vs : List ExtentValue) : Prop :=
  ∀ e ∈ vs, IsCut n start stop e → e.logOff < start → stop < e.endOff → start ≤ tailStart e stop

variable {e y : ExtentValue}

theorem mem_cutBy : y ∈ cutBy n start stop e ↔
    (IsCut n start stop e ∧ y ∈ survivors e start stop) ∨ (¬ IsCut n start stop e ∧ y = e) := by
  unfold cutBy
  split
  · rename_i h
    have h' : IsCut n start stop e := h
    simp [h']
  · rename_i h
    have h' : ¬ IsCut n start stop e := h
    simp [h']

theorem cutBy_covers (hy : y ∈ cutBy n start stop e) :
    y.seq = e.seq ∧ ∀ b, y.Covers b → e.Covers b ∧ y.devicePos b = e.devicePos b := by
  rcases mem_cutBy.mp hy with ⟨hc, hy⟩ | ⟨-, rfl⟩
  · exact ⟨survivor_seq hy, fun b hb => survivor_covers hc.1 hy hb⟩
  · exact ⟨rfl, fun b hb => ⟨hb, rfl⟩⟩

theorem logOff_le_of_mem_cutBy (hy : y ∈ cutBy n start stop e) : e.logOff ≤ y.logOff := by
  rcases mem_cutBy.mp hy with ⟨-, hy⟩ | ⟨-, rfl⟩
  · rcases mem_survivors.mp hy with ⟨-, rfl⟩ | ⟨-, rfl⟩
    · exact le_rfl
    · exact logOff_le_tailStart e stop
  · exact le_rfl

theorem exists_cutBy_before {b : Nat} (hb : e.Covers b) (hlt : b < start) :
    ∃ y ∈ cutBy n start stop e, y.Covers b ∧ y.logOff = e.logOff := by
  by_cases hc : IsCut n start stop e
  · have hlo : e.logOff < start := hb.1.trans_lt hlt
    exact ⟨headOf e start, mem_cutBy.mpr (.inl ⟨hc, mem_survivors.mpr (.inl ⟨hlo, rfl⟩)⟩),
      (headOf_covers hc.1.2.le hlo.le).mpr ⟨hb, hlt⟩, rfl⟩
  · exact ⟨e, mem_cutBy.mpr (.inr ⟨hc, rfl⟩), hb, rfl⟩

theorem exists_cutBy_after {b : Nat} (hb : e.Covers b) (hge : stop ≤ b) :
    ∃ y ∈ cutBy n start stop e, y.Covers b := by
  by_cases hc : IsCut n start stop e
  · have hhi : stop < e.endOff := hge.trans_lt hb.2
    refine ⟨tailOf e stop, mem_cutBy.mpr (.inl ⟨hc, mem_survivors.mpr (.inr ⟨hhi, rfl⟩)⟩), ?_⟩
    exact (tailOf_covers hc.1.1.le hhi).mpr ⟨hb, (tailStart_le hc.1.1.le).trans hge⟩
  · exact ⟨e, mem_cutBy.mpr (.inr ⟨hc, rfl⟩), hb⟩

theorem exists_cutBy_outside {b : Nat} (hb : e.Covers b)
    (hout : b < start ∨ stop ≤ b) : ∃ y ∈ cutBy n start stop e, y.Covers b := by
  rcases hout with hlt | hge
  · obtain ⟨y, hy, hyb, -⟩ : ∃ y ∈ cutBy n start stop e, y.Covers b ∧ y.logOff = e.logOff :=
      exists_cutBy_before hb hlt
    exact ⟨y, hy, hyb⟩
  · exact exists_cutBy_after hb hge

theorem logOff_eq_restStart (hy : y ∈ cutBy n start stop e) {b : Nat}
    (hb : y.Covers b) (hge : start ≤ b) : y.logOff = restStart n start stop e := by
  rcases mem_cutBy.mp hy with ⟨hc, hy⟩ | ⟨hc, rfl⟩
  · obtain ⟨-, rfl⟩ := survivor_eq_tail hc.1 hy hb hge
    rw [restStart, if_pos hc]
    rfl
  · rw [restStart, if_neg hc]

theorem logOff_eq_of_before {vs : List ExtentValue} (hh : HalvesApart n start stop vs)
    (he : e ∈ vs) (hy : y ∈ cutBy n start stop e) {b : Nat}
    (hb : y.Covers b) (hlt : b < start) : y.logOff = e.logOff := by
  rcases mem_cutBy.mp hy with ⟨hc, hy⟩ | ⟨-, rfl⟩
  · rcases mem_survivors.mp hy with ⟨-, rfl⟩ | ⟨hhi, rfl⟩
    · rfl
    · have hlo : e.logOff < start := ((tailOf_covers hc.1.1.le hhi).mp hb).1.1.trans_lt hlt
      have hts := hh e he hc hlo hhi
      have hbt := ((tailOf_covers hc.1.1.le hhi).mp hb).2
      omega
  · rfl

theorem cutBy_pairwise {vs : List ExtentValue} (hh : HalvesApart n start stop vs)
    (he : e ∈ vs) : (cutBy n start stop e).Pairwise AgeDisjoint := by
  unfold cutBy
  split
  · rename_i hc
    unfold survivors splitAround
    by_cases hlo : start > e.logOff <;> by_cases hhi : stop < e.endOff <;> simp [hlo, hhi]
    intro _ b hhead htail
    have hb := ((headOf_covers hc.1.2.le hlo.le).mp hhead).2
    have hb' := ((tailOf_covers hc.1.1.le hhi).mp htail).2
    have hts := hh e he hc hlo hhi
    omega
  · exact pairwise_singleton _ _

structure Overlay (n : Node) (start stop : Nat) (news vs vs' : List ExtentValue) : Prop where
  range : start ≤ stop
  perm : vs'.Perm (news ++ vs.flatMap (cutBy n start stop))
  /-- The new extents lie inside the written range and leave none of it out. -/
  inside : ∀ x ∈ news, start ≤ x.logOff ∧ x.endOff ≤ stop
  cover : ∀ b, start ≤ b → b < stop → ∃ x ∈ news, x.Covers b
  apart : news.Pairwise fun x y => x.endOff ≤ y.logOff
  same : ∀ x ∈ news, ∀ y ∈ news, x.seq = y.seq
  newer : ∀ x ∈ news, ∀ e ∈ vs, e.seq < x.seq

namespace Overlay

variable {news vs vs' : List ExtentValue}

theorem mem_iff (h : Overlay n start stop news vs vs') {y : ExtentValue} :
    y ∈ vs' ↔ y ∈ news ∨ ∃ e ∈ vs, y ∈ cutBy n start stop e := by
  rw [h.perm.mem_iff, mem_append, mem_flatMap]

theorem perm_left (h : Overlay n start stop news vs vs') {ws : List ExtentValue}
    (hp : vs.Perm ws) : Overlay n start stop news ws vs' where
  range := h.range
  perm := h.perm.trans ((hp.flatMap_right _).append_left _)
  inside := h.inside
  cover := h.cover
  apart := h.apart
  same := h.same
  newer := fun x hx e he => h.newer x hx e (hp.mem_iff.mpr he)

theorem oneAtATime (h : Overlay n start stop news vs vs') (h1 : OneAtATime vs)
    (hh : HalvesApart n start stop vs) : OneAtATime vs' := by
  refine OneAtATime.perm ?_ h.perm.symm
  rw [OneAtATime, pairwise_append, pairwise_flatMap]
  refine ⟨?_, ⟨?_, ?_⟩, ?_⟩
  · refine h.apart.imp ?_
    intro x y hxy _ b hx hy
    exact absurd (hx.2.trans_le hxy) (not_lt.mpr hy.1)
  · exact fun e he => cutBy_pairwise hh he
  · refine h1.imp ?_
    intro e f hef x hx y hy hs b hxb hyb
    obtain ⟨hxs, hxc⟩ := cutBy_covers hx
    obtain ⟨hys, hyc⟩ := cutBy_covers hy
    exact hef (hxs.symm.trans (hs.trans hys)) b (hxc b hxb).1 (hyc b hyb).1
  · intro x hx y hy hs
    obtain ⟨e, he, hy⟩ := mem_flatMap.mp hy
    have hlt := h.newer x hx e he
    have hys := (cutBy_covers hy).1
    omega

theorem newestAt_new (h : Overlay n start stop news vs vs') {x : ExtentValue} (hx : x ∈ news)
    {b : Nat} (hb : x.Covers b) : NewestAt vs' b x := by
  refine ⟨h.mem_iff.mpr (.inl hx), hb, ?_⟩
  intro f hf _
  rcases h.mem_iff.mp hf with hf | ⟨e, he, hf⟩
  · exact (h.same f hf x hx).le
  · rw [(cutBy_covers hf).1]
    exact (h.newer x hx e he).le

theorem exists_piece (h : Overlay n start stop news vs vs') {y : ExtentValue} (hy : y ∈ vs')
    {b : Nat} (hb : y.Covers b) (hout : b < start ∨ stop ≤ b) :
    ∃ e ∈ vs, y ∈ cutBy n start stop e := by
  rcases h.mem_iff.mp hy with hy | hy
  · obtain ⟨hlo, hhi⟩ := h.inside y hy
    have h1 := hb.1
    have h2 := hb.2
    omega
  · exact hy

theorem newestAt_of_piece (h : Overlay n start stop news vs vs') {b : Nat}
    (hout : b < start ∨ stop ≤ b) {e y : ExtentValue} (he : e ∈ vs)
    (hy : y ∈ cutBy n start stop e) (hyb : y.Covers b) :
    NewestAt vs' b y ↔ NewestAt vs b e := by
  obtain ⟨hys, hyc⟩ := cutBy_covers hy
  constructor
  · rintro ⟨-, -, hmax⟩
    refine ⟨he, (hyc b hyb).1, ?_⟩
    intro g hg hgb
    obtain ⟨z, hz, hzb⟩ : ∃ z ∈ cutBy n start stop g, z.Covers b := exists_cutBy_outside hgb hout
    have hle := hmax z (h.mem_iff.mpr (.inr ⟨g, hg, hz⟩)) hzb
    rw [(cutBy_covers hz).1, hys] at hle
    exact hle
  · rintro ⟨-, -, hmax⟩
    refine ⟨h.mem_iff.mpr (.inr ⟨e, he, hy⟩), hyb, ?_⟩
    intro z hz hzb
    obtain ⟨g, hg, hz⟩ := h.exists_piece hz hzb hout
    obtain ⟨hzs, hzc⟩ := cutBy_covers hz
    rw [hzs, hys]
    exact hmax g hg (hzc b hzb).1

theorem newestFirst_iff (h : Overlay n start stop news vs vs') (hN : NewestFirst vs)
    (hh : HalvesApart n start stop vs) :
    NewestFirst vs' ↔
      (∀ x ∈ news, ∀ e ∈ vs, ∀ y ∈ cutBy n start stop e, ∀ b, x.Covers b → y.Covers b →
        x.logOff ≤ restStart n start stop e) ∧
      (∀ b, stop ≤ b → ∀ e, NewestAt vs b e → ∀ f ∈ vs, f.Covers b →
        restStart n start stop e ≤ restStart n start stop f) := by
  constructor
  · intro hN'
    refine ⟨?_, ?_⟩
    · intro x hx e he y hy b hxb hyb
      have hle := hN' b x (h.newestAt_new hx hxb) y (h.mem_iff.mpr (.inr ⟨e, he, hy⟩)) hyb
      rwa [logOff_eq_restStart hy hyb ((h.inside x hx).1.trans hxb.1)] at hle
    · intro b hge e hnew f hf hfb
      obtain ⟨y, hy, hyb⟩ : ∃ y ∈ cutBy n start stop e, y.Covers b :=
        exists_cutBy_after hnew.2.1 hge
      obtain ⟨z, hz, hzb⟩ : ∃ z ∈ cutBy n start stop f, z.Covers b := exists_cutBy_after hfb hge
      have hle := hN' b y ((h.newestAt_of_piece (.inr hge) hnew.1 hy hyb).mpr hnew) z
        (h.mem_iff.mpr (.inr ⟨f, hf, hz⟩)) hzb
      rwa [logOff_eq_restStart hy hyb (h.range.trans hge),
        logOff_eq_restStart hz hzb (h.range.trans hge)] at hle
  · rintro ⟨hnew, hrest⟩ b y hmax z hz hzb
    by_cases hout : b < start ∨ stop ≤ b
    · -- Outside the write both extents are pieces, and the newest comes from the newest.
      obtain ⟨e, he, hy⟩ := h.exists_piece hmax.1 hmax.2.1 hout
      obtain ⟨f, hf, hz⟩ := h.exists_piece hz hzb hout
      have hnewest := (h.newestAt_of_piece hout he hy hmax.2.1).mp hmax
      have hfb := ((cutBy_covers hz).2 b hzb).1
      rcases hout with hlt | hge
      · rw [logOff_eq_of_before hh he hy hmax.2.1 hlt]
        exact (hN b e hnewest f hf hfb).trans (logOff_le_of_mem_cutBy hz)
      · rw [logOff_eq_restStart hy hmax.2.1 (h.range.trans hge),
          logOff_eq_restStart hz hzb (h.range.trans hge)]
        exact hrest b hge e hnewest f hf hfb
    · -- Inside it the newest is a new extent, and no other new extent covers the byte.
      rw [not_or, not_lt, not_le] at hout
      obtain ⟨x, hx, hxb⟩ := h.cover b hout.1 hout.2
      have hy : y ∈ news := by
        rcases h.mem_iff.mp hmax.1 with hy | ⟨e, he, hy⟩
        · exact hy
        · have hle := hmax.2.2 x (h.mem_iff.mpr (.inl hx)) hxb
          have hlt := h.newer x hx e he
          have hys := (cutBy_covers hy).1
          omega
      rcases h.mem_iff.mp hz with hz | ⟨f, hf, hz⟩
      · have hsame : y = z := by
          by_contra hne
          have hsymm : Std.Symm fun x y : ExtentValue => x.Covers b → ¬ y.Covers b :=
            ⟨fun _ _ hr hy hx => hr hx hy⟩
          have hpair : news.Pairwise fun x y => x.Covers b → ¬ y.Covers b := h.apart.imp
            fun hxy hx hy => absurd (hx.2.trans_le hxy) (not_lt.mpr hy.1)
          exact hpair.forall hy hz hne hmax.2.1 hzb
        rw [hsame]
      · rw [logOff_eq_restStart hz hzb hout.1]
        exact hnew y hy f hf z hz b hmax.2.1 hzb

end Overlay

theorem overlay_of_contents {w : WriteReq} {runs : List Run} (hr : RunsFor w.data.length runs)
    {existing : List Extent} {vs' : List ExtentValue}
    (hc : (↑vs' : Multiset ExtentValue) = ↑(newExtents n w (nextSeq existing) 0 runs) +
      piecesOf n w.offset w.stop existing) :
    Overlay n w.offset w.stop (newExtents n w (nextSeq existing) 0 runs)
      (existing.map Extent.toExtentValue) vs' where
  range := Nat.le_add_right _ _
  perm := by
    rw [piecesOf, Multiset.coe_add, Multiset.coe_eq_coe] at hc
    rwa [flatMap_map]
  inside := fun x hx =>
    let ⟨hlo, _, hhi⟩ := newExtents_bounds (runsLeft_of_runsFor hr) hx
    ⟨hlo, hhi⟩
  cover := fun b hlo hhi => exists_newExtents_covers (runsLeft_of_runsFor hr) hlo hhi
  apart := newExtents_pairwise (runsLeft_of_runsFor hr)
  same := fun x hx y hy => (newExtents_seq hx).trans (newExtents_seq hy).symm
  newer := by
    intro x hx e he
    obtain ⟨old, hold, rfl⟩ := mem_map.mp he
    rw [newExtents_seq hx]
    exact lt_onePast (fun e => e.seq) hold

theorem Published.overlay {w : WriteReq} {runs : List Run} {rec : InodeRecord} {s : Etcd}
    {r : Pass} (h : Published n w runs rec s r) (hr : RunsFor w.data.length runs) :
    Overlay n w.offset w.stop (newExtents n w (nextSeq (getExtents s w.ino)) 0 runs)
      ((getExtents s w.ino).map Extent.toExtentValue)
      ((getExtents r.etcd w.ino).map Extent.toExtentValue) :=
  overlay_of_contents hr ((contents_eq_getExtents r.etcd w.ino).symm.trans h.contents)

end

end EtcFS.Ipc
