import EtcFS.Ipc.Stages

/-!
# Which blocks the extents of a file hold

A write keeps every block with one extent exactly when no extent it splits in two keeps one block in
both halves.
-/

namespace EtcFS.Ipc

open EtcFS.Core EtcFS.Metadata EtcFS.Arena List

def BlocksApart (e f : ExtentValue) : Prop := ∀ block, e.Touches block → ¬ f.Touches block

def BlocksDisjoint (vs : List ExtentValue) : Prop := vs.Pairwise BlocksApart

def Named (s : Etcd) (block : Nat) : Prop :=
  ∃ ino chunk, ∃ v : Versioned ExtentValue,
    s.get (.extent ino chunk) = some v ∧ v.value.Touches block

def WellPlaced (v : ExtentValue) : Prop :=
  blockSize ∣ v.diskOff ∧ 0 < v.length ∧ v.endOff ≤ maxOffset

def SplitsApart (start stop : Nat) (vs : List ExtentValue) : Prop :=
  ∀ e ∈ vs, e.logOff < start → stop < e.endOff → start ≤ tailStart e stop
  deriving Decidable

theorem BlocksApart.symm {e f : ExtentValue} (h : BlocksApart e f) : BlocksApart f e :=
  fun b hf he => h b he hf

theorem BlocksDisjoint.perm {vs vs' : List ExtentValue} (h : BlocksDisjoint vs)
    (hp : vs.Perm vs') : BlocksDisjoint vs' := hp.pairwise h BlocksApart.symm

/-! ## Cutting a range out -/

section

variable {n : Node} {start stop : Nat} {vs : List ExtentValue} {e y : ExtentValue}

theorem cutBy_touches (hy : y ∈ cutBy n start stop e) {b : Nat} (ht : y.Touches b) :
    e.Touches b := by
  rcases mem_cutBy.mp hy with ⟨hc, hy⟩ | ⟨-, rfl⟩
  · exact survivor_touches hc.1 hy ht
  · exact ht

theorem cutBy_wellPlaced (he : WellPlaced e) (hy : y ∈ cutBy n start stop e) : WellPlaced y := by
  rcases mem_cutBy.mp hy with ⟨hc, hy⟩ | ⟨-, rfl⟩
  · obtain ⟨hpos, hle⟩ := survivor_bounds hc.1 hy
    exact ⟨survivor_aligned hy he.1, hpos, hle.trans he.2.2⟩
  · exact he

theorem givenUpBlocks_spec (he : WellPlaced e) (howns : n.owns e.diskOff = true)
    (hov : e.Overlaps start stop) {b : Nat} (hb : b ∈ givenUpBlocks start stop e) :
    e.Touches b ∧ ∀ y ∈ cutBy n start stop e, ¬ y.Touches b := by
  obtain ⟨ht, hnot⟩ := givenUp_spec he.1 hov hb
  refine ⟨ht, fun y hy => ?_⟩
  rcases mem_cutBy.mp hy with ⟨-, hy⟩ | ⟨hc, -⟩
  · exact hnot y hy
  · exact absurd ⟨hov, howns⟩ hc

theorem survivors_disjoint_iff (he : WellPlaced e) (hov : e.Overlaps start stop) :
    (survivors e start stop).Pairwise BlocksApart ↔
      (e.logOff < start → stop < e.endOff → start ≤ tailStart e stop) := by
  by_cases hhead : e.logOff < start <;> by_cases htail : stop < e.endOff
  · rw [← halves_disjoint_iff he.1 hov hhead htail]
    simp [survivors, splitAround, hhead, htail, BlocksApart]
  all_goals simp [survivors, splitAround, hhead, htail]

theorem flatMap_cutBy_disjoint (hw : ∀ v ∈ vs, WellPlaced v) (hd : BlocksDisjoint vs)
    (hs : SplitsApart start stop vs) : BlocksDisjoint (vs.flatMap (cutBy n start stop)) := by
  refine pairwise_flatMap.mpr ⟨fun e he => ?_, ?_⟩
  · by_cases hc : IsCut n start stop e
    · rw [show cutBy n start stop e = survivors e start stop from if_pos hc]
      exact (survivors_disjoint_iff (hw e he) hc.1).mpr (hs e he)
    · rw [show cutBy n start stop e = [e] from if_neg hc]
      exact pairwise_singleton _ _
  · exact hd.imp fun hef x hx y hy b hxb hyb =>
      hef b (cutBy_touches hx hxb) (cutBy_touches hy hyb)

theorem flatMap_cutBy_disjoint_iff (howns : ∀ d, n.owns d = true) (hlt : start < stop)
    (hw : ∀ v ∈ vs, WellPlaced v) (hd : BlocksDisjoint vs) :
    BlocksDisjoint (vs.flatMap (cutBy n start stop)) ↔ SplitsApart start stop vs := by
  refine ⟨fun h e he hhead htail => ?_, flatMap_cutBy_disjoint hw hd⟩
  have hov : e.Overlaps start stop := ⟨hhead.trans hlt, hlt.trans htail⟩
  have hpieces := (pairwise_flatMap.mp h).1 e he
  rw [show cutBy n start stop e = survivors e start stop from if_pos ⟨hov, howns _⟩] at hpieces
  exact (survivors_disjoint_iff (hw e he) hov).mp hpieces hhead htail

theorem mem_flatMap_cutBy_touches (hy : y ∈ vs.flatMap (cutBy n start stop)) {b : Nat}
    (ht : y.Touches b) : ∃ e ∈ vs, e.Touches b := by
  obtain ⟨e, he, hy⟩ := mem_flatMap.mp hy
  exact ⟨e, he, cutBy_touches hy ht⟩

theorem givenUp_untouched (howns : ∀ d, n.owns d = true) (hw : ∀ v ∈ vs, WellPlaced v)
    (hd : BlocksDisjoint vs) (he : e ∈ vs) (hov : e.Overlaps start stop) {b : Nat}
    (hb : b ∈ givenUpBlocks start stop e) :
    ∀ y ∈ vs.flatMap (cutBy n start stop), ¬ y.Touches b := by
  obtain ⟨ht, hnot⟩ := givenUpBlocks_spec (hw e he) (howns _) hov hb
  intro y hy hyb
  obtain ⟨f, hf, hy⟩ := mem_flatMap.mp hy
  by_cases hef : f = e
  · exact hnot y (hef ▸ hy) hyb
  · have hsymm : Std.Symm BlocksApart := ⟨fun _ _ => BlocksApart.symm⟩
    exact List.Pairwise.forall hd hf he hef b (cutBy_touches hy hyb) ht

end

/-! ## New extents -/

section

variable {n : Node} {w : WriteReq} {seq pos : Nat} {runs : List Run}

theorem newExtents_touches (h : ∀ r ∈ runs, r.Whole) {x : ExtentValue}
    (hx : x ∈ newExtents n w seq pos runs) {b : Nat} (ht : x.Touches b) :
    b ∈ runs.flatMap Run.blocks := by
  induction runs generalizing pos with
  | nil => cases hx
  | cons r runs ih =>
    rw [flatMap_cons, mem_append]
    rcases mem_cons.mp hx with rfl | hx
    · left
      obtain ⟨-, -, ha⟩ := h r (mem_cons_self ..)
      have hbound := (touches_iff (by exact ha)).mp ht
      rw [Run.blocks, mem_rangeBlocks]
      have hle : blocksFor (min r.length (w.data.length - pos)) ≤ blocksFor r.length := by
        simp only [blocksFor, blockSize]
        omega
      exact ⟨hbound.1, hbound.2.trans_le (Nat.add_le_add_left hle _)⟩
    · exact .inr (ih (fun r hr => h r (mem_cons_of_mem _ hr)) hx)

theorem newExtents_disjoint (h : ∀ r ∈ runs, r.Whole) (hn : (runs.flatMap Run.blocks).Nodup) :
    BlocksDisjoint (newExtents n w seq pos runs) := by
  induction runs generalizing pos with
  | nil => exact List.Pairwise.nil
  | cons r runs ih =>
    have hrest : ∀ r ∈ runs, r.Whole := fun r hr => h r (mem_cons_of_mem _ hr)
    rw [flatMap_cons, nodup_append] at hn
    refine List.Pairwise.cons ?_ (ih hrest hn.2.1)
    intro y hy b hx hyb
    have hmem : _ ∈ newExtents n w seq pos [r] := mem_cons_self ..
    have hhead := newExtents_touches (by simpa using h r (mem_cons_self ..)) hmem hx
    rw [flatMap_cons, flatMap_nil, append_nil] at hhead
    exact hn.2.2 b hhead b (newExtents_touches hrest hy hyb) rfl

theorem newExtents_wellPlaced (h : RunsLeft w pos runs) {x : ExtentValue}
    (hx : x ∈ newExtents n w seq pos runs) : WellPlaced x := by
  obtain ⟨-, hlt, hle⟩ := newExtents_bounds h hx
  refine ⟨?_, ?_, ?_⟩
  · clear hlt hle
    induction runs generalizing pos with
    | nil => cases hx
    | cons r runs ih =>
      rcases mem_cons.mp hx with rfl | hx
      · exact (h.1 r (mem_cons_self ..)).2.2
      · exact ih h.tail hx
  · simp only [ExtentValue.endOff] at hlt
    omega
  · have hb := w.bound
    simp only [maxOffset, WriteReq.stop] at *
    omega

end

/-! ## The invariant -/

structure BlockInv (c : FileConfig) (held : List Nat) (st : FileState) : Prop where
  placed : ∀ v ∈ st.live c, WellPlaced v
  disjoint : BlocksDisjoint (st.live c)
  reserved : ∀ v ∈ st.live c, ∀ b, v.Touches b → st.allocated b = true
  /-- What the buffer will give back is reserved until then, and nobody's. -/
  plans : ∀ b ∈ st.pending.freed, st.allocated b = true ∧ ∀ v ∈ st.live c, ¬ v.Touches b
  published : BlocksDisjoint (extentsOf st.etcd c.ino)
  published_reserved : ∀ v ∈ extentsOf st.etcd c.ino, ∀ b, v.Touches b → st.allocated b = true
  freed : ∀ b ∈ st.freed, st.allocated b = false
  held_reserved : ∀ b ∈ held, st.allocated b = true
  held_unnamed : ∀ b ∈ held, (∀ v ∈ st.live c, ¬ v.Touches b) ∧ b ∉ st.pending.freed

structure BlocksSafe (c : FileConfig) (st : FileState) : Prop where
  live : BlocksDisjoint (st.live c)
  published : BlocksDisjoint (extentsOf st.etcd c.ino)
  freed : ∀ b ∈ st.freed, (∀ v ∈ st.live c, ¬ v.Touches b) ∧
    ∀ v ∈ extentsOf st.etcd c.ino, ¬ v.Touches b

section

variable {c : FileConfig} {st st' : FileState} {held : List Nat}

theorem BlockInv.safe (h : BlockInv c held st) : BlocksSafe c st where
  live := h.disjoint
  published := h.published
  freed := by
    intro b hb
    have hfree := h.freed b hb
    refine ⟨fun v hv ht => ?_, fun v hv ht => ?_⟩
    · rw [h.reserved v hv b ht] at hfree
      cases hfree
    · rw [h.published_reserved v hv b ht] at hfree
      cases hfree

theorem BlockInv.logOff_lt (h : BlockInv c held st) : ∀ e ∈ st.live c, e.logOff < maxOffset := by
  intro e he
  obtain ⟨-, hpos, hend⟩ := h.placed e he
  simp only [ExtentValue.endOff] at hend
  omega

theorem blockInv_of_released {blocks : List Nat} (hp : st'.pending = .none)
    (hplaced : ∀ v ∈ st'.live c, WellPlaced v) (hdisj : BlocksDisjoint (st'.live c))
    (hres : ∀ v ∈ st'.live c, ∀ b, v.Touches b → st.allocated b = true)
    (huntouched : ∀ b ∈ blocks, ∀ v ∈ st'.live c, ¬ v.Touches b)
    (hfreed : ∀ b ∈ st.freed, st.allocated b = false)
    (hheld : ∀ b ∈ held, st.allocated b = true ∧ b ∉ blocks ∧ ∀ v ∈ st'.live c, ¬ v.Touches b)
    (halloc : st'.allocated = release st.allocated blocks)
    (hfreed' : st'.freed = st.freed ++ blocks) : BlockInv c held st' := by
  have hempty : st'.pending.ops = [] := by rw [hp]; rfl
  have hlive : st'.live c = extentsOf st'.etcd c.ino := live_of_empty hempty
  have hnone : st'.pending.freed = [] := by rw [hp]; rfl
  have hres' : ∀ v ∈ st'.live c, ∀ b, v.Touches b → st'.allocated b = true := by
    intro v hv b ht
    rw [halloc, release_eq_true]
    exact ⟨hres v hv b ht, fun hb => huntouched b hb v hv ht⟩
  refine ⟨hplaced, hdisj, hres', ?_, hlive ▸ hdisj, hlive ▸ hres', ?_, ?_, ?_⟩
  · rw [hnone]
    exact fun b hb => absurd hb not_mem_nil
  · intro b hb
    rw [hfreed'] at hb
    rw [halloc, Bool.eq_false_iff, Ne, release_eq_true]
    rintro ⟨ha, hnot⟩
    rcases mem_append.mp hb with hb | hb
    · rw [hfreed b hb] at ha
      cases ha
    · exact hnot hb
  · intro b hb
    obtain ⟨ha, hnot, -⟩ := hheld b hb
    rw [halloc, release_eq_true]
    exact ⟨ha, hnot⟩
  · intro b hb
    rw [hnone]
    exact ⟨(hheld b hb).2.2, not_mem_nil⟩

theorem BlockInv.flush (h : BlockInv c held st) (hf : Flushed c st st') : BlockInv c held st' := by
  refine blockInv_of_released hf.pending (by rw [hf.live_eq]; exact h.placed)
    (by rw [hf.live_eq]; exact h.disjoint) (by rw [hf.live_eq]; exact h.reserved) ?_ h.freed ?_
    hf.allocated hf.freed
  · rw [hf.live_eq]
    exact fun b hb => (h.plans b hb).2
  · intro b hb
    obtain ⟨hun, hnot⟩ := h.held_unnamed b hb
    rw [hf.live_eq]
    exact ⟨h.held_reserved b hb, hnot, hun⟩

theorem BlockInv.reserve (h : BlockInv c [] st) {a : WriteAct}
    (hmay : MayAllocate st.allocated a.req.data.length a.runs) :
    BlockInv c a.blocks (st.reserve a.blocks) := by
  have hmono : ∀ b, st.allocated b = true → (st.reserve a.blocks).allocated b = true :=
    fun b hb => reserve_eq_true.mpr (.inl hb)
  have hfree : ∀ b ∈ a.blocks, st.allocated b = false := hmay.2.2
  refine ⟨h.placed, h.disjoint, fun v hv b ht => hmono b (h.reserved v hv b ht),
    fun b hb => ⟨hmono b (h.plans b hb).1, (h.plans b hb).2⟩, h.published,
    fun v hv b ht => hmono b (h.published_reserved v hv b ht), ?_,
    fun b hb => reserve_eq_true.mpr (.inr hb), ?_⟩
  · intro b hb
    obtain ⟨hb, hnot⟩ := mem_filter.mp hb
    rw [Bool.eq_false_iff]
    intro ha
    rcases reserve_eq_true.mp ha with ha | hin
    · rw [h.freed b hb] at ha
      cases ha
    · simp [hin] at hnot
  · intro b hb
    have hno := hfree b hb
    refine ⟨fun v hv ht => ?_, fun hplan => ?_⟩
    · rw [h.reserved v hv b ht] at hno
      cases hno
    · have hplan : b ∈ st.pending.freed := hplan
      rw [(h.plans b hplan).1] at hno
      cases hno

theorem BlockInv.congr (h : BlockInv c held st) (hetcd : st'.etcd = st.etcd)
    (hpending : st'.pending = st.pending) (halloc : st'.allocated = st.allocated)
    (hfreed : st'.freed = st.freed) : BlockInv c held st' := by
  have hlive : st'.live c = st.live c := by
    rw [FileState.live, FileState.live, FileState.shown, FileState.shown, hetcd, hpending]
  constructor
  · rw [hlive]
    exact h.placed
  · rw [hlive]
    exact h.disjoint
  · rw [hlive, halloc]
    exact h.reserved
  · rw [hlive, halloc, hpending]
    exact h.plans
  · rw [hetcd]
    exact h.published
  · rw [hetcd, halloc]
    exact h.published_reserved
  · rw [hfreed, halloc]
    exact h.freed
  · rw [halloc]
    exact h.held_reserved
  · rw [hlive, hpending]
    exact h.held_unnamed

theorem Opened.blockInv (h : Opened c st) : BlockInv c [] st := by
  have hempty : st.pending.ops = [] := by rw [h.pending]; rfl
  have hext : extentsOf st.etcd c.ino = [] := by rw [extentsOf, h.extents, map_nil]
  have hlive : st.live c = [] := (live_of_empty hempty).trans hext
  constructor <;> simp [hlive, hext, h.pending, h.freed, Pending.freed, Pending.none,
    BlocksDisjoint]

theorem BlockInv.begin (h : BlockInv c [] st) : BlockInv c [] { st with freed := [] } :=
  ⟨h.placed, h.disjoint, h.reserved, h.plans, h.published, h.published_reserved,
    fun _ hb => absurd hb not_mem_nil, h.held_reserved, h.held_unnamed⟩

end

/-! ## Writes -/

section

variable {c : FileConfig} {a : WriteAct} {st st' : FileState}

def RunsReserved (a : WriteAct) : Prop := RunsFor a.req.data.length a.runs ∧ a.blocks.Nodup

theorem WriteReq.offset_lt_stop (w : WriteReq) : w.offset < w.stop :=
  Nat.lt_add_of_pos_right (length_pos_iff.mpr w.data_ne)

theorem Written.placed (hw : Written c a st st') (hr : RunsReserved a)
    (hplaced : ∀ v ∈ st.live c, WellPlaced v) : ∀ v ∈ st'.live c, WellPlaced v := by
  intro v hv
  rcases hw.overlay.mem_iff.mp hv with hv | ⟨e, he, hv⟩
  · exact newExtents_wellPlaced (runsLeft_of_runsFor hr.1) hv
  · exact cutBy_wellPlaced (hplaced e he) hv

theorem Written.touches (hw : Written c a st st') (hr : RunsReserved a) {y : ExtentValue}
    (hy : y ∈ st'.live c) {b : Nat} (ht : y.Touches b) :
    (∃ e ∈ st.live c, e.Touches b) ∨ b ∈ a.blocks := by
  rcases hw.overlay.mem_iff.mp hy with hy | ⟨e, he, hy⟩
  · exact .inr (newExtents_touches hr.1.1 hy ht)
  · exact .inl ⟨e, he, cutBy_touches hy ht⟩

theorem Written.disjoint_iff (hw : Written c a st st') (howns : ∀ d, c.node.owns d = true)
    (hr : RunsReserved a) (h : BlockInv c a.blocks st) :
    BlocksDisjoint (st'.live c) ↔ SplitsApart a.req.offset a.req.stop (st.live c) := by
  rw [← flatMap_cutBy_disjoint_iff howns a.req.offset_lt_stop h.placed h.disjoint]
  constructor
  · intro hd
    exact (pairwise_append.mp (hd.perm hw.overlay.perm)).2.1
  · intro hd
    refine BlocksDisjoint.perm (pairwise_append.mpr ⟨?_, hd, ?_⟩) hw.overlay.perm.symm
    · exact newExtents_disjoint hr.1.1 hr.2
    · intro x hx y hy b hxb hyb
      obtain ⟨e, he, ht⟩ := mem_flatMap_cutBy_touches hy hyb
      exact (h.held_unnamed b (newExtents_touches hr.1.1 hx hxb)).1 e he ht

theorem Written.givenUp_untouched (hw : Written c a st st') (howns : ∀ d, c.node.owns d = true)
    (hr : RunsReserved a) (h : BlockInv c a.blocks st) {b : Nat} (hb : GivenUpBy c a st b) :
    st.allocated b = true ∧ ∀ y ∈ st'.live c, ¬ y.Touches b := by
  obtain ⟨e, he, hov, hb⟩ := hb
  have ht := (givenUpBlocks_spec (h.placed e he) (howns _) hov hb).1
  refine ⟨h.reserved e he b ht, fun y hy hyb => ?_⟩
  rcases hw.overlay.mem_iff.mp hy with hy | ⟨f, hf, hy⟩
  · exact (h.held_unnamed b (newExtents_touches hr.1.1 hy hyb)).1 e he ht
  · exact Ipc.givenUp_untouched howns h.placed h.disjoint he hov hb y
      (mem_flatMap.mpr ⟨f, hf, hy⟩) hyb

theorem Written.reserved (hw : Written c a st st') (hr : RunsReserved a)
    (h : BlockInv c a.blocks st) {y : ExtentValue} (hy : y ∈ st'.live c) {b : Nat}
    (ht : y.Touches b) : st.allocated b = true := by
  rcases hw.touches hr hy ht with ⟨e, he, ht⟩ | hb
  · exact h.reserved e he b ht
  · exact h.held_reserved b hb

theorem BlockInv.buffer (h : BlockInv c a.blocks st) (howns : ∀ d, c.node.owns d = true)
    (hr : RunsReserved a) {data : List BufferedRun} (hb : Buffered c a data st st')
    (hs : SplitsApart a.req.offset a.req.stop (st.live c)) : BlockInv c [] st' where
  placed := hb.written.placed hr h.placed
  disjoint := (hb.written.disjoint_iff howns hr h).mpr hs
  reserved := by
    rw [hb.allocated]
    exact fun _ hv _ ht => hb.written.reserved hr h hv ht
  plans := by
    intro b hplan
    rw [hb.allocated]
    rcases hb.plans b hplan with hold | hnew
    · obtain ⟨ha, hun⟩ := h.plans b hold
      refine ⟨ha, fun v hv ht => ?_⟩
      rcases hb.written.touches hr hv ht with ⟨e, he, ht⟩ | hheld
      · exact hun e he ht
      · exact (h.held_unnamed b hheld).2 hold
    · exact hb.written.givenUp_untouched howns hr h hnew
  published := by
    rw [hb.etcd]
    exact h.published
  published_reserved := by
    rw [hb.etcd, hb.allocated]
    exact h.published_reserved
  freed := by
    rw [hb.freed, hb.allocated]
    exact h.freed
  held_reserved := fun b hb => absurd hb not_mem_nil
  held_unnamed := fun b hb => absurd hb not_mem_nil

theorem BlockInv.commit (h : BlockInv c a.blocks st) (howns : ∀ d, c.node.owns d = true)
    (hr : RunsReserved a) {blocks : List Nat} (hc : Committed c a blocks st st')
    (hs : SplitsApart a.req.offset a.req.stop (st.live c)) : BlockInv c [] st' :=
  blockInv_of_released hc.pending (hc.written.placed hr h.placed)
    ((hc.written.disjoint_iff howns hr h).mpr hs) (fun _ hv _ ht => hc.written.reserved hr h hv ht)
    (fun b hb => (hc.written.givenUp_untouched howns hr h (hc.plans b hb)).2) h.freed
    (fun _ hb => absurd hb not_mem_nil) hc.allocated hc.freed

def BlockPhase (c : FileConfig) (a : WriteAct) (vs : List ExtentValue) :
    Phase → FileState → Prop
  | .idle, st => BlockInv c [] st ∧ st.live c = vs
  | .reserved, st | .loaded, st => (BlockInv c a.blocks st ∧ st.live c = vs) ∧ RunsReserved a
  | .done, st => (SplitsApart a.req.offset a.req.stop vs → BlockInv c [] st) ∧
      (BlocksDisjoint (st.live c) → SplitsApart a.req.offset a.req.stop vs)

theorem blockRule (howns : ∀ d, c.node.owns d = true) (vs : List ExtentValue) :
    WriteRule c a (BlockPhase c a vs) where
  flush := by
    intro p st st' hp hI hf
    cases p with
    | idle => exact ⟨hI.1.flush hf, hf.live_eq.trans hI.2⟩
    | reserved | loaded => exact ⟨⟨hI.1.1.flush hf, hf.live_eq.trans hI.1.2⟩, hI.2⟩
    | done => exact absurd rfl hp
  cache := by
    intro p st m hI
    cases p with
    | idle => exact ⟨hI.1.congr rfl rfl rfl rfl, hI.2⟩
    | reserved | loaded => exact ⟨⟨hI.1.1.congr rfl rfl rfl rfl, hI.1.2⟩, hI.2⟩
    | done => exact ⟨fun hs => (hI.1 hs).congr rfl rfl rfl rfl, hI.2⟩
  reserve := fun hI hmay => ⟨⟨hI.1.reserve hmay, hI.2⟩, hmay.1, hmay.2.1⟩
  load := fun hI => ⟨⟨hI.1.1.congr rfl rfl rfl rfl, hI.1.2⟩, hI.2⟩
  unload := id
  hold := by
    rintro st st' ⟨⟨h, rfl⟩, hr⟩ hb
    exact ⟨h.buffer howns hr hb, (hb.written.disjoint_iff howns hr h).mp⟩
  buffer := by
    rintro st st' ⟨⟨h, rfl⟩, hr⟩ hb
    exact ⟨h.buffer howns hr hb, (hb.written.disjoint_iff howns hr h).mp⟩
  commit := by
    rintro st st' blocks ⟨⟨h, rfl⟩, hr⟩ - hc
    exact ⟨h.commit howns hr hc, (hc.written.disjoint_iff howns hr h).mp⟩

/-! ## Truncates and punches -/

theorem Cut.disjoint_iff {start stop : Nat} {blocks : List Nat}
    (hc : Cut c start stop blocks st st') (howns : ∀ d, c.node.owns d = true)
    (hlt : start < stop) (h : BlockInv c [] st) :
    BlocksDisjoint (st'.live c) ↔ SplitsApart start stop (st.live c) := by
  rw [← flatMap_cutBy_disjoint_iff howns hlt h.placed h.disjoint]
  exact ⟨fun hd => hd.perm hc.perm, fun hd => hd.perm hc.perm.symm⟩

theorem BlockInv.cut {start stop : Nat} {blocks : List Nat} (h : BlockInv c [] st)
    (howns : ∀ d, c.node.owns d = true) (hc : Cut c start stop blocks st st')
    (hd : BlocksDisjoint (st'.live c)) : BlockInv c [] st' := by
  refine blockInv_of_released hc.pending ?_ hd ?_ ?_ h.freed
    (fun b hb => absurd hb not_mem_nil) hc.allocated hc.freed
  · intro v hv
    obtain ⟨e, he, hv⟩ := mem_flatMap.mp (hc.perm.mem_iff.mp hv)
    exact cutBy_wellPlaced (h.placed e he) hv
  · intro v hv b ht
    obtain ⟨e, he, ht⟩ := mem_flatMap_cutBy_touches (hc.perm.mem_iff.mp hv) ht
    exact h.reserved e he b ht
  · intro b hb v hv
    obtain ⟨e, he, hov, hg⟩ := hc.plans b hb
    exact Ipc.givenUp_untouched howns h.placed h.disjoint he hov hg v (hc.perm.mem_iff.mp hv)

theorem BlockInv.unchanged (h : BlockInv c [] st) (hu : Unchanged c st st') :
    BlockInv c [] st' := by
  have halloc : st'.allocated = release st.allocated [] := by
    funext b
    simp [hu.allocated, release]
  exact blockInv_of_released hu.pending (by rw [hu.live]; exact h.placed)
    (by rw [hu.live]; exact h.disjoint) (by rw [hu.live]; exact h.reserved)
    (fun b hb => absurd hb not_mem_nil) h.freed (fun b hb => absurd hb not_mem_nil)
    halloc (by rw [hu.freed, append_nil])

end

end EtcFS.Ipc
