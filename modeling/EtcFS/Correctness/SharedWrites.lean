import EtcFS.Core.Transition
import EtcFS.Ipc.Overlay

/-!
# Writes by many owners

A node rewrites only what lies in an arena it holds, so parts of a buried extent may stay before or
behind the write.
-/

namespace EtcFS.Correctness

open EtcFS.Core Metadata Arena Ipc List Option

structure SharedWrite where
  node : Node
  req : WriteReq
  runs : List Run
  offset_aligned : blockSize ∣ req.offset
  length_aligned : blockSize ∣ req.data.length
  allocated : RunsFor req.data.length runs

def sharedWrites (ino : Nat) : Machine Etcd SharedWrite where
  step s a :=
    if a.req.ino = ino then
      (getInode s ino).bind fun rec =>
        (publishWrite a.node a.req a.runs rec (getExtents s ino) s).map Pass.etcd
    else none

def runRanges (w : WriteReq) : Nat → List Run → List (Nat × Nat)
  | _, [] => []
  | pos, r :: runs =>
    (w.offset + pos, w.offset + min (pos + r.length) w.data.length) ::
      runRanges w (pos + r.length) runs

structure OwnersAllow (ino : Nat) (s : Etcd) (a : SharedWrite) : Prop where
  front : ∀ o ∈ getExtents s ino, o.Overlaps a.req.offset a.req.stop →
    a.node.owns o.diskOff = false → ∀ r ∈ runRanges a.req 0 a.runs, o.Overlaps r.1 r.2 →
      r.1 ≤ o.logOff
  rest : ∀ o ∈ getExtents s ino, o.Overlaps a.req.offset a.req.stop →
    a.node.owns o.diskOff = false → ∀ e ∈ getExtents s ino,
    e.Overlaps a.req.offset a.req.stop → a.node.owns e.diskOff = true →
    ∀ b, a.req.stop ≤ b → o.Covers b → e.Covers b →
      ∃ f ∈ getExtents s ino, f.Covers b ∧ e.seq < f.seq

/-! ## Whole blocks stay whole -/

def WholeBlocks (e : ExtentValue) : Prop :=
  blockSize ∣ e.logOff ∧ blockSize ∣ e.length ∧ 0 < e.length

theorem newExtents_wholeBlocks {n : Node} {w : WriteReq} {seq pos : Nat} {runs : List Run}
    (ho : blockSize ∣ w.offset) (hl : blockSize ∣ w.data.length) (hp : blockSize ∣ pos)
    (h : RunsLeft w pos runs) {x : ExtentValue} (hx : x ∈ newExtents n w seq pos runs) :
    WholeBlocks x := by
  induction runs generalizing pos with
  | nil => cases hx
  | cons r runs ih =>
    have hr := (h.1 r mem_cons_self).2.1
    rcases mem_cons.mp hx with rfl | hx
    · have hpos := h.pos_lt
      simp only [WholeBlocks, blockSize] at *
      omega
    · exact ih (Nat.dvd_add hp hr) h.tail hx

theorem tailStart_of_wholeBlocks {e : ExtentValue} (he : WholeBlocks e) {stop : Nat}
    (hs : blockSize ∣ stop) (hle : e.logOff ≤ stop) : tailStart e stop = stop := by
  simp only [WholeBlocks, tailStart, tailSkip, blockSize] at *
  omega

theorem cutBy_wholeBlocks {n : Node} {start stop : Nat} (hstart : blockSize ∣ start)
    {e y : ExtentValue} (he : WholeBlocks e) (hy : y ∈ cutBy n start stop e) : WholeBlocks y := by
  rcases mem_cutBy.mp hy with ⟨hc, hy⟩ | ⟨-, rfl⟩
  · have hpos := (survivor_bounds hc.1 hy).1
    rcases mem_survivors.mp hy with ⟨hlt, rfl⟩ | ⟨hlt, rfl⟩ <;>
      simp only [WholeBlocks, headOf, tailOf, tailSkip, ExtentValue.endOff, blockSize] at * <;>
      omega
  · exact he

theorem runRanges_eq (n : Node) {w : WriteReq} (seq : Nat) {pos : Nat} {runs : List Run}
    (h : RunsLeft w pos runs) : runRanges w pos runs =
      (newExtents n w seq pos runs).map fun x => (x.logOff, x.endOff) := by
  induction runs generalizing pos with
  | nil => rfl
  | cons r runs ih =>
    have hpos := h.pos_lt
    simp only [runRanges, newExtents, map_cons, ih h.tail, ExtentValue.endOff,
      cons.injEq, Prod.mk.injEq, true_and, and_true]
    omega

/-! ## One write -/

structure SharedInv (ino : Nat) (s : Etcd) : Prop where
  whole : ∀ e ∈ extentsOf s ino, WholeBlocks e
  one : OneAtATime (extentsOf s ino)
  first : NewestFirst (extentsOf s ino)

theorem sharedWrites_step {ino : Nat} {s t : Etcd} {a : SharedWrite}
    (h : (sharedWrites ino).step s a = some t) :
    a.req.ino = ino ∧ ∃ rec r, Published a.node a.req a.runs rec s r ∧ t = r.etcd := by
  simp only [sharedWrites, ite_none_right_eq_some, bind_eq_some_iff, map_eq_some_iff] at h
  obtain ⟨rfl, rec, -, r, hr, rfl⟩ := h
  exact ⟨rfl, rec, r, published_of_publishWrite a.allocated hr, rfl⟩

section

variable {ino : Nat} {s t : Etcd} {a : SharedWrite}

theorem overlay_of_step (h : (sharedWrites ino).step s a = some t) :
    Overlay a.node a.req.offset a.req.stop
      (newExtents a.node a.req (nextSeq (getExtents s ino)) 0 a.runs) (extentsOf s ino)
      (extentsOf t ino) := by
  obtain ⟨rfl, rec, r, hpub, rfl⟩ := sharedWrites_step h
  exact hpub.overlay a.allocated

theorem stop_aligned (a : SharedWrite) : blockSize ∣ a.req.stop :=
  Nat.dvd_add a.offset_aligned a.length_aligned

theorem restStart_of_cut (hs : SharedInv ino s) {e : ExtentValue} (he : e ∈ extentsOf s ino)
    (hc : IsCut a.node a.req.offset a.req.stop e) :
    restStart a.node a.req.offset a.req.stop e = a.req.stop := by
  rw [restStart, if_pos hc]
  exact tailStart_of_wholeBlocks (hs.whole e he) (stop_aligned a) hc.1.1.le

theorem halvesApart (hs : SharedInv ino s) (a : SharedWrite) :
    HalvesApart a.node a.req.offset a.req.stop (extentsOf s ino) := by
  intro e he hc _ _
  rw [tailStart_of_wholeBlocks (hs.whole e he) (stop_aligned a) hc.1.1.le]
  exact Nat.le_add_right _ _

theorem front_iff (hs : SharedInv ino s) (a : SharedWrite) :
    (∀ x ∈ newExtents a.node a.req (nextSeq (getExtents s ino)) 0 a.runs,
      ∀ e ∈ extentsOf s ino, ∀ y ∈ cutBy a.node a.req.offset a.req.stop e, ∀ b,
        x.Covers b → y.Covers b → x.logOff ≤ restStart a.node a.req.offset a.req.stop e) ↔
    ∀ o ∈ getExtents s ino, o.Overlaps a.req.offset a.req.stop → a.node.owns o.diskOff = false →
      ∀ r ∈ runRanges a.req 0 a.runs, o.Overlaps r.1 r.2 → r.1 ≤ o.logOff := by
  have hleft : RunsLeft a.req 0 a.runs := runsLeft_of_runsFor a.allocated
  rw [runRanges_eq a.node (nextSeq (getExtents s ino)) hleft]
  constructor
  · intro h o ho hov howns r hr hor
    obtain ⟨x, hx, rfl⟩ := mem_map.mp hr
    have hoe : o.toExtentValue ∈ extentsOf s ino := mem_map_of_mem ho
    have hnot : ¬ IsCut a.node a.req.offset a.req.stop o.toExtentValue :=
      fun hc => Bool.false_ne_true (howns.symm.trans hc.2)
    -- The two overlap, so they have the later of their two starts in common.
    have hxlt := (newExtents_bounds hleft hx).2.1
    have holt : o.logOff < o.endOff := Nat.lt_add_of_pos_right (hs.whole _ hoe).2.2
    have hle := h x hx _ hoe _ (mem_cutBy.mpr (.inr ⟨hnot, rfl⟩)) (max x.logOff o.logOff)
      ⟨le_max_left _ _, max_lt hxlt hor.1⟩ ⟨le_max_right _ _, max_lt hor.2 holt⟩
    rwa [restStart, if_neg hnot] at hle
  · intro h x hx e he y hy b hxb hyb
    obtain ⟨hlo, -, hhi⟩ := newExtents_bounds hleft hx
    by_cases hc : IsCut a.node a.req.offset a.req.stop e
    · -- What is left of a cut extent past the write's start begins where the write stops.
      have hrest := logOff_eq_restStart hy hyb (hlo.trans hxb.1)
      rw [restStart_of_cut hs he hc] at hrest
      have h1 := hyb.1
      have h2 := hxb.2
      omega
    · obtain ⟨o, ho, rfl⟩ := mem_map.mp he
      have hob := ((cutBy_covers hy).2 b hyb).1
      have hov : o.Overlaps a.req.offset a.req.stop :=
        ⟨hob.1.trans_lt (hxb.2.trans_le hhi), (hlo.trans hxb.1).trans_lt hob.2⟩
      have howns : a.node.owns o.diskOff = false := by
        simpa [IsCut, hov] using hc
      rw [restStart, if_neg hc]
      exact h o ho hov howns _ (mem_map_of_mem hx) ⟨hob.1.trans_lt hxb.2, hxb.1.trans_lt hob.2⟩

theorem rest_iff (hs : SharedInv ino s) (a : SharedWrite) :
    (∀ b, a.req.stop ≤ b → ∀ e, NewestAt (extentsOf s ino) b e → ∀ f ∈ extentsOf s ino,
      f.Covers b → restStart a.node a.req.offset a.req.stop e ≤
        restStart a.node a.req.offset a.req.stop f) ↔
    ∀ o ∈ getExtents s ino, o.Overlaps a.req.offset a.req.stop →
      a.node.owns o.diskOff = false → ∀ e ∈ getExtents s ino,
      e.Overlaps a.req.offset a.req.stop → a.node.owns e.diskOff = true →
      ∀ b, a.req.stop ≤ b → o.Covers b → e.Covers b →
        ∃ f ∈ getExtents s ino, f.Covers b ∧ e.seq < f.seq := by
  constructor
  · intro h o ho hov howns e he hev heowns b hge hob heb
    by_contra hnone
    have hoe : o.toExtentValue ∈ extentsOf s ino := mem_map_of_mem ho
    have hee : e.toExtentValue ∈ extentsOf s ino := mem_map_of_mem he
    have hnewest : NewestAt (extentsOf s ino) b e.toExtentValue := by
      refine ⟨hee, heb, ?_⟩
      intro f hf hfb
      obtain ⟨g, hg, rfl⟩ := mem_map.mp hf
      exact not_lt.mp fun hlt => hnone ⟨g, hg, hfb, hlt⟩
    have hle := h b hge _ hnewest _ hoe hob
    rw [restStart_of_cut hs hee ⟨hev, heowns⟩, restStart,
      if_neg fun hc => Bool.false_ne_true (howns.symm.trans hc.2)] at hle
    exact absurd hov.1 (not_lt.mpr hle)
  · intro h b hge e hnewest f hf hfb
    by_cases hc : IsCut a.node a.req.offset a.req.stop e
    · rw [restStart_of_cut hs hnewest.1 hc]
      by_cases hcf : IsCut a.node a.req.offset a.req.stop f
      · rw [restStart_of_cut hs hf hcf]
      · rw [restStart, if_neg hcf]
        by_contra hlt
        rw [not_le] at hlt
        obtain ⟨o, ho, rfl⟩ := mem_map.mp hf
        obtain ⟨m, hm, rfl⟩ := mem_map.mp hnewest.1
        have hov : o.Overlaps a.req.offset a.req.stop :=
          ⟨hlt, ((Nat.le_add_right _ _).trans hge).trans_lt hfb.2⟩
        have howns : a.node.owns o.diskOff = false := by
          simpa [IsCut, hov] using hcf
        obtain ⟨g, hg, hgb, hlt⟩ := h o ho hov howns m hm hc.1 hc.2 b hge hfb hnewest.2.1
        exact absurd hlt (not_lt.mpr (hnewest.2.2 _ (mem_map_of_mem hg) hgb))
    · -- An extent that is not cut stays where it was, and no rest moves forward past it.
      have hle := hs.first b e hnewest f hf hfb
      rw [restStart, if_neg hc]
      refine hle.trans ?_
      unfold restStart
      split
      · exact logOff_le_tailStart _ _
      · exact le_rfl

theorem readsNewest_step_iff (hs : SharedInv ino s) (h : (sharedWrites ino).step s a = some t) :
    ReadsNewest (getExtents t ino) ↔ OwnersAllow ino s a := by
  have hov := overlay_of_step h
  have hh := halvesApart hs a
  rw [readsNewest_iff (getExtents_ordered t ino) (hov.oneAtATime hs.one hh)]
  rw [show (getExtents t ino).map Extent.toExtentValue = extentsOf t ino from rfl,
    hov.newestFirst_iff hs.first hh, front_iff hs a, rest_iff hs a]
  exact ⟨fun hc => ⟨hc.1, hc.2⟩, fun hc => ⟨hc.front, hc.rest⟩⟩

theorem sharedInv_step (hs : SharedInv ino s) (hc : OwnersAllow ino s a)
    (h : (sharedWrites ino).step s a = some t) : SharedInv ino t := by
  have hov := overlay_of_step h
  have hh := halvesApart hs a
  refine ⟨?_, hov.oneAtATime hs.one hh, ?_⟩
  · intro y hy
    rcases hov.mem_iff.mp hy with hy | ⟨e, he, hy⟩
    · exact newExtents_wholeBlocks a.offset_aligned a.length_aligned (dvd_zero _)
        (runsLeft_of_runsFor a.allocated) hy
    · exact cutBy_wholeBlocks a.offset_aligned (hs.whole e he) hy
  · exact (readsNewest_iff (getExtents_ordered t ino) (hov.oneAtATime hs.one hh)).mp
      ((readsNewest_step_iff hs h).mpr hc)

end

/-- Along every run of whole-block writes to a file that started empty, the walk
reads the newest byte after each write exactly when every write meets the
condition on the extents it finds. -/
theorem along_readsNewest_iff (ino : Nat) {s : Etcd} (hempty : getExtents s ino = [])
    (writes : List SharedWrite) :
    (sharedWrites ino).Along (fun _ _ t => ReadsNewest (getExtents t ino)) s writes ↔
      (sharedWrites ino).Along (fun s a _ => OwnersAllow ino s a) s writes := by
  refine Machine.along_iff (I := SharedInv ino) ?_ ?_ ?_ writes
  · exact fun s a t hs hc h => sharedInv_step hs hc h
  · exact fun s a t hs h => readsNewest_step_iff hs h
  · have hnil : extentsOf s ino = [] := by rw [extentsOf, hempty, map_nil]
    refine ⟨?_, ?_, ?_⟩
    · simp [hnil]
    · rw [hnil]
      exact List.Pairwise.nil
    · rintro b e ⟨he, -⟩
      rw [hnil] at he
      cases he

def firstWriter : SharedWrite where
  node := ⟨"a", 0, fun _ => true⟩
  req := zeroBlocks 0 2 (by decide) (by decide)
  runs := [⟨0, 2 * blockSize⟩]
  offset_aligned := by decide
  length_aligned := by decide +kernel
  allocated := by decide +kernel

def secondWriter : SharedWrite where
  node := ⟨"b", 0, fun d => decide (2 * blockSize ≤ d)⟩
  req := zeroBlocks blockSize 1 Nat.one_pos second_block_bound
  runs := [⟨2 * blockSize, blockSize⟩]
  offset_aligned := by decide
  length_aligned := by decide +kernel
  allocated := by decide +kernel

/-- The equivalence at the run of the two writers. -/
theorem along_readsNewest_two_writers :
    (sharedWrites 7).Along (fun _ _ t => ReadsNewest (getExtents t 7)) (freshFile 7)
        [firstWriter, secondWriter] ↔
      (sharedWrites 7).Along (fun s a _ => OwnersAllow 7 s a) (freshFile 7)
        [firstWriter, secondWriter] :=
  along_readsNewest_iff 7 (by decide +kernel) [firstWriter, secondWriter]

/-- The second writer's block reads back as the first writer's: the extent left
whole starts before the one that overwrote its second half. -/
theorem second_writer_hidden :
    ∃ t, (sharedWrites 7).exec (freshFile 7) [firstWriter, secondWriter] = some t ∧
      ¬ ReadsNewest (getExtents t 7) := by
  have hrun : ((sharedWrites 7).exec (freshFile 7) [firstWriter, secondWriter]).map
      (fun t => getExtents t 7) = some
        [⟨⟨0, 0, 8192, 0, 0, "a"⟩, 0, 2⟩, ⟨⟨4096, 8192, 4096, 0, 1, "b"⟩, 1, 3⟩] := by
    decide +kernel
  obtain ⟨t, ht, hext⟩ := map_eq_some_iff.mp hrun
  refine ⟨t, ht, fun hreads => ?_⟩
  rw [hext] at hreads
  obtain ⟨f, hf, -, -, -, hnewest⟩ := hreads 4096 4097 4096 (by decide) (by decide)
    ⟨_, mem_cons_self, by decide⟩
  have hwalk : readWalk 4097 4096
      [⟨⟨0, 0, 8192, 0, 0, "a"⟩, 0, 2⟩, ⟨⟨4096, 8192, 4096, 0, 1, "b"⟩, 1, 3⟩] =
        [⟨4096, 1, ⟨⟨0, 0, 8192, 0, 0, "a"⟩, 0, 2⟩⟩] := by decide
  rw [hwalk, mem_singleton] at hf
  have hle := hnewest ⟨⟨4096, 8192, 4096, 0, 1, "b"⟩, 1, 3⟩ (by decide) (by decide)
  rw [hf] at hle
  exact absurd hle (by decide)

end EtcFS.Correctness
