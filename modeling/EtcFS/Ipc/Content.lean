import EtcFS.Ipc.Blocks

/-!
# What the bytes of a file are

The extents, the payload and the device show a byte image as long as the newest extent stands first
at every byte.
-/

namespace EtcFS.Ipc

open EtcFS.Core Metadata Arena List Option

def WriteReq.Writes (w : WriteReq) (b : Nat) : Prop := w.offset ≤ b ∧ b < w.stop
  deriving Decidable

def WriteReq.byteAt (w : WriteReq) (b : Nat) : Byte := w.data.getD (b - w.offset) 0

def lastWritten (writes : List WriteReq) (b : Nat) : Byte :=
  ((writes.reverse.find? fun w => decide (w.Writes b)).map fun w => w.byteAt b).getD 0

theorem lastWritten_append (writes : List WriteReq) (w : WriteReq) (b : Nat) :
    lastWritten (writes ++ [w]) b = if w.Writes b then w.byteAt b else lastWritten writes b := by
  unfold lastWritten
  rw [reverse_append, reverse_singleton, singleton_append]
  split
  · rename_i hw
    rw [find?_cons_of_pos (by simpa using hw)]
    rfl
  · rename_i hw
    rw [find?_cons_of_neg (by simpa using hw)]

/-! ## The payload in its runs -/

section

theorem outside_of_disjoint {r : BufferedRun} {pos n : Nat} (hr : r.buf ≠ []) (hn : 0 < n)
    (h : ∀ p, r.Holds p → ¬ (pos ≤ p ∧ p < pos + n)) :
    pos + n ≤ r.diskOff ∨ r.endOff ≤ pos := by
  have hlen := length_pos_iff.mpr hr
  by_contra hnot
  rw [not_or, not_le, not_le] at hnot
  simp only [BufferedRun.Holds, BufferedRun.endOff] at h hnot
  refine h (max r.diskOff pos) ⟨le_max_left _ _, ?_⟩ ⟨le_max_right _ _, ?_⟩
  · exact max_lt (by omega) hnot.2
  · exact max_lt hnot.1 (by omega)

variable {w : WriteReq} {padded : List Byte} {pos : Nat} {runs : List Run}

theorem mem_payloadFrom (hw : ∀ r ∈ runs, r.Whole)
    (hsum : pos + (runs.map Run.length).sum ≤ padded.length) {r : BufferedRun}
    (hr : r ∈ payloadFrom padded pos runs) :
    r.buf ≠ [] ∧ ∀ p, r.Holds p → p / blockSize ∈ runs.flatMap Run.blocks := by
  induction runs generalizing pos with
  | nil => cases hr
  | cons run runs ih =>
    rw [map_cons, sum_cons] at hsum
    rcases mem_cons.mp hr with rfl | hr
    · obtain ⟨hpos, hdvd, hdvd'⟩ := hw run mem_cons_self
      have hlen : ((padded.drop pos).take run.length).length = run.length := by
        rw [length_take, length_drop]
        omega
      refine ⟨ne_nil_of_length_pos (by rw [hlen]; exact hpos), fun p hp => ?_⟩
      rw [flatMap_cons, mem_append, Run.blocks, mem_rangeBlocks]
      left
      simp only [BufferedRun.Holds, BufferedRun.endOff, hlen, blocksFor, blockSize] at *
      omega
    · obtain ⟨hne, hblocks⟩ :=
        ih (fun r hr => hw r (mem_cons_of_mem _ hr)) (by omega) hr
      refine ⟨hne, fun p hp => ?_⟩
      rw [flatMap_cons, mem_append]
      exact .inr (hblocks p hp)

theorem payloadFrom_apart (hw : ∀ r ∈ runs, r.Whole) (hn : (runs.flatMap Run.blocks).Nodup)
    (hsum : pos + (runs.map Run.length).sum ≤ padded.length) :
    (payloadFrom padded pos runs).Pairwise BufferedRun.Apart := by
  induction runs generalizing pos with
  | nil => exact List.Pairwise.nil
  | cons run runs ih =>
    have hrest : ∀ r ∈ runs, r.Whole := fun r hr => hw r (mem_cons_of_mem _ hr)
    have hone : ∀ r ∈ [run], r.Whole := by simpa using hw run mem_cons_self
    rw [map_cons, sum_cons] at hsum
    rw [flatMap_cons, nodup_append] at hn
    refine List.Pairwise.cons ?_ (ih hrest hn.2.1 (by omega))
    intro r' hr'
    have hmem : _ ∈ payloadFrom padded pos [run] := mem_cons_self
    obtain ⟨hne, hhead⟩ := mem_payloadFrom hone (by simpa using by omega) hmem
    obtain ⟨hne', htail⟩ := mem_payloadFrom hrest (by omega) hr'
    have hlen := length_pos_iff.mpr hne
    refine (outside_of_disjoint hne' hlen fun p hp' hp => ?_)
    have hb := hhead p hp
    rw [flatMap_cons, flatMap_nil, append_nil] at hb
    exact hn.2.2 _ hb _ (htail p hp') rfl

theorem payloadFrom_loads {n : Node} {seq : Nat}
    (hpad : ∀ i, i < w.data.length → padded.getD i 0 = w.data.getD i 0) (h : RunsLeft w pos runs)
    (hsum : pos + (runs.map Run.length).sum ≤ padded.length) {x : ExtentValue}
    (hx : x ∈ newExtents n w seq pos runs) {b : Nat} (hb : x.Covers b) :
    ∃ r ∈ payloadFrom padded pos runs, r.Holds (x.devicePos b) ∧
      r.buf.getD (x.devicePos b - r.diskOff) 0 = w.byteAt b := by
  induction runs generalizing pos with
  | nil => cases hx
  | cons run runs ih =>
    rw [map_cons, sum_cons] at hsum
    rcases mem_cons.mp hx with rfl | hx
    · refine ⟨_, mem_cons_self, ?_, ?_⟩
      · simp only [ExtentValue.Covers, ExtentValue.endOff, ExtentValue.devicePos,
          BufferedRun.Holds, BufferedRun.endOff, length_take, length_drop] at *
        omega
      · simp only [ExtentValue.Covers, ExtentValue.endOff, ExtentValue.devicePos] at *
        rw [Nat.add_sub_cancel_left, WriteReq.byteAt, ← hpad (b - w.offset) (by omega)]
        rw [getD_eq_getElem?_getD, getD_eq_getElem?_getD, getElem?_take,
          if_pos (by omega), getElem?_drop]
        congr 2
        omega
    · obtain ⟨r, hr, hload⟩ := ih h.tail (by omega) hx
      exact ⟨r, mem_cons_of_mem _ hr, hload⟩

theorem payloadFrom_settled {n : Node} {seq : Nat} (h : RunsLeft w pos runs)
    (hn : (runs.flatMap Run.blocks).Nodup) (hsum : pos + (runs.map Run.length).sum ≤ padded.length)
    {x : ExtentValue} (hx : x ∈ newExtents n w seq pos runs) :
    RangeSettled (payloadFrom padded pos runs) x.diskOff x.length := by
  induction runs generalizing pos with
  | nil => cases hx
  | cons run runs ih =>
    have hone : ∀ r ∈ [run], r.Whole := by simpa using h.1 run mem_cons_self
    have hmem : _ ∈ payloadFrom padded pos [run] := mem_cons_self
    have hmem' : _ ∈ newExtents n w seq pos [run] := mem_cons_self
    have hpos := (newExtents_wellPlaced h hx).2.1
    rw [map_cons, sum_cons] at hsum
    rw [flatMap_cons, nodup_append] at hn
    obtain ⟨hne, hhead⟩ := mem_payloadFrom hone (by simpa using by omega) hmem
    rw [flatMap_cons, flatMap_nil, append_nil] at hhead
    intro r hr
    rcases mem_cons.mp hx with rfl | hx <;> rcases mem_cons.mp hr with rfl | hr
    · left
      simp only [BufferedRun.endOff, length_take, length_drop]
      omega
    · obtain ⟨hne', htail⟩ := mem_payloadFrom h.tail.1 (by omega) hr
      refine .inr (outside_of_disjoint hne' hpos fun p hp hx => ?_)
      have hb := newExtents_touches hone hmem' ⟨p, hx.1, hx.2, rfl⟩
      rw [flatMap_cons, flatMap_nil, append_nil] at hb
      exact hn.2.2 _ hb _ (htail p hp) rfl
    · refine .inr (outside_of_disjoint hne hpos fun p hp hx' => ?_)
      exact hn.2.2 _ (hhead p hp) _ (newExtents_touches h.tail.1 hx ⟨p, hx'.1, hx'.2, rfl⟩) rfl
    · exact ih h.tail hn.2.1 (by omega) hx r hr

end

/-! ## A write's payload -/

section

variable {c : FileConfig} {a : WriteAct}

def WriteReq.padded (w : WriteReq) : List Byte :=
  w.data ++ replicate (blocksFor w.data.length * blockSize - w.data.length) 0

theorem padded_sum (hr : RunsReserved a) :
    0 + (a.runs.map Run.length).sum ≤ a.req.padded.length := by
  rw [hr.1.2, WriteReq.padded, length_append, length_replicate]
  simp only [blocksFor, blockSize]
  omega

theorem padded_getD (w : WriteReq) (i : Nat) (hi : i < w.data.length) :
    w.padded.getD i 0 = w.data.getD i 0 := getD_append _ _ _ _ hi

theorem mem_bufferedPayload (hr : RunsReserved a) {r : BufferedRun}
    (hmem : r ∈ bufferedPayload a.req a.runs) :
    r.buf ≠ [] ∧ ∀ p, r.Holds p → p / blockSize ∈ a.blocks :=
  mem_payloadFrom hr.1.1 (padded_sum hr) hmem

theorem bufferedPayload_apart (hr : RunsReserved a) :
    (bufferedPayload a.req a.runs).Pairwise BufferedRun.Apart :=
  payloadFrom_apart hr.1.1 hr.2 (padded_sum hr)

def Loaded (c : FileConfig) (a : WriteAct) (content : Bytes) : Prop :=
  ∀ seq, ∀ x ∈ newExtents c.node a.req seq 0 a.runs, ∀ b, x.Covers b →
    content (x.devicePos b) = a.req.byteAt b

theorem loaded_bufferContent (hr : RunsReserved a) (dev : Bytes) :
    Loaded c a (bufferContent (bufferedPayload a.req a.runs) dev) := by
  intro seq x hx b hb
  obtain ⟨r, hmem, hholds, hbyte⟩ := payloadFrom_loads (padded_getD a.req)
    (runsLeft_of_runsFor hr.1) (padded_sum hr) hx hb
  have hfind := (find?_holds_iff (bufferedPayload_apart hr)).mpr ⟨hmem, hholds⟩
  rw [bufferContent, hfind]
  exact hbyte

theorem bufferContent_of_unheld {data : List BufferedRun} {p : Nat}
    (h : ∀ r ∈ data, ¬ r.Holds p) (dev : Bytes) : bufferContent data dev p = dev p := by
  have hnone : data.find? (fun r => decide (r.Holds p)) = none := by
    rw [find?_eq_none]
    exact fun r hr hh => h r hr (by simpa using hh)
  rw [bufferContent, hnone]

theorem bufferContent_payload (hr : RunsReserved a) (dev : Bytes) {p : Nat}
    (hp : p / blockSize ∉ a.blocks) :
    bufferContent (bufferedPayload a.req a.runs) dev p = dev p :=
  bufferContent_of_unheld (fun _ hmem hh => hp ((mem_bufferedPayload hr hmem).2 p hh)) dev

theorem bufferContent_append (data data' : List BufferedRun) (dev : Bytes) :
    bufferContent (data ++ data') dev = bufferContent data (bufferContent data' dev) := by
  funext p
  simp only [bufferContent, find?_append]
  cases data.find? (fun r => decide (r.Holds p)) <;> rfl

theorem bufferContent_congr {data : List BufferedRun} {dev dev' : Bytes} {p : Nat}
    (h : dev p = dev' p) : bufferContent data dev p = bufferContent data dev' p := by
  unfold bufferContent
  split
  · rfl
  · exact h

end

/-! ## The condition on a write -/

def lastRunStart (w : WriteReq) (runs : List Run) : Nat :=
  w.offset + (runs.dropLast.map Run.length).sum

structure WriteAllows (a : WriteAct) (vs : List ExtentValue) : Prop where
  front : ∀ e ∈ vs, e.Overlaps a.req.offset a.req.stop → a.req.stop < e.endOff →
    lastRunStart a.req a.runs ≤ tailStart e a.req.stop
  rest : ∀ b, a.req.stop ≤ b → ∀ e, NewestAt vs b e → e.Overlaps a.req.offset a.req.stop →
    ∀ f ∈ vs, f.Overlaps a.req.offset a.req.stop → f.Covers b →
      tailStart e a.req.stop ≤ tailStart f a.req.stop

section

variable {c : FileConfig} {a : WriteAct} {st st' : FileState}

theorem newExtents_logOff_le {n : Node} {w : WriteReq} {seq pos : Nat} {runs : List Run}
    {x : ExtentValue} (hx : x ∈ newExtents n w seq pos runs) :
    x.logOff ≤ w.offset + pos + (runs.dropLast.map Run.length).sum := by
  induction runs generalizing pos with
  | nil => cases hx
  | cons r runs ih =>
    rcases mem_cons.mp hx with rfl | hx
    · exact Nat.le_add_right _ _
    · cases runs with
      | nil => cases hx
      | cons r' runs =>
        have hle := ih hx
        rw [dropLast_cons_cons, map_cons, sum_cons]
        omega

theorem offset_le_lastRunStart (w : WriteReq) (runs : List Run) :
    w.offset ≤ lastRunStart w runs := Nat.le_add_right _ _

theorem WriteAllows.splitsApart {vs : List ExtentValue} (h : WriteAllows a vs) :
    SplitsApart a.req.offset a.req.stop vs := by
  intro e he hhead htail
  have hlt := a.req.offset_lt_stop
  exact (offset_le_lastRunStart _ _).trans (h.front e he ⟨hhead.trans hlt, hlt.trans htail⟩ htail)

theorem Written.newestFirst (hw : Written c a st st') (howns : ∀ d, c.node.owns d = true)
    (hN : NewestFirst (st.live c)) (hc : WriteAllows a (st.live c)) : NewestFirst (st'.live c) := by
  have hcut : ∀ {e : ExtentValue}, IsCut c.node a.req.offset a.req.stop e ↔
      e.Overlaps a.req.offset a.req.stop := fun {e} => and_iff_left (howns _)
  have hhalves : HalvesApart c.node a.req.offset a.req.stop (st.live c) :=
    fun e he _ hhead htail => hc.splitsApart e he hhead htail
  refine (hw.overlay.newestFirst_iff hN hhalves).mpr ⟨?_, ?_⟩
  · intro x hx e he y hy b hxb hyb
    obtain ⟨hlo, hhi⟩ := hw.overlay.inside x hx
    have hov : e.Overlaps a.req.offset a.req.stop := by
      obtain ⟨h1, h2⟩ := ((cutBy_covers hy).2 b hyb).1
      exact ⟨h1.trans_lt (hxb.2.trans_le hhi), (hlo.trans hxb.1).trans_lt h2⟩
    rcases mem_cutBy.mp hy with ⟨-, hy⟩ | ⟨hnot, -⟩
    · obtain ⟨htail, -⟩ := survivor_eq_tail hov hy hyb (hlo.trans hxb.1)
      rw [restStart, if_pos (hcut.mpr hov)]
      refine le_trans ?_ (hc.front e he hov htail)
      simpa [lastRunStart] using newExtents_logOff_le hx
    · exact absurd (hcut.mpr hov) hnot
  · intro b hge e hnew f hf hfb
    by_cases hov : e.Overlaps a.req.offset a.req.stop
    · rw [restStart, if_pos (hcut.mpr hov)]
      by_cases hovf : f.Overlaps a.req.offset a.req.stop
      · rw [restStart, if_pos (hcut.mpr hovf)]
        exact hc.rest b hge e hnew hov f hf hovf hfb
      · -- It reaches past the write without overlapping it, so it starts behind it.
        rw [restStart, if_neg fun h => hovf (hcut.mp h)]
        refine (tailStart_le hov.1.le).trans (not_lt.mp fun hlt => hovf ⟨hlt, ?_⟩)
        exact (a.req.offset_lt_stop.trans_le hge).trans hfb.2
    · have hle := hN b e hnew f hf hfb
      rw [restStart, if_neg fun h => hov (hcut.mp h)]
      refine hle.trans ?_
      unfold restStart
      split
      · exact logOff_le_tailStart _ _
      · exact le_rfl

end

/-! ## The invariant -/

def FileState.content (st : FileState) : Bytes := bufferContent st.pending.data st.device

structure ContentInv (c : FileConfig) (writes : List WriteReq) (held : List Nat)
    (st : FileState) : Prop where
  first : NewestFirst (st.live c)
  value : ∀ b v, NewestAt (st.live c) b v → st.content (v.devicePos b) = lastWritten writes b
  hole : ∀ b, (∀ v ∈ st.live c, ¬ v.Covers b) → lastWritten writes b = 0
  apart : st.pending.data.Pairwise BufferedRun.Apart
  settled : ∀ v ∈ st.live c, RangeSettled st.pending.data v.diskOff v.length
  /-- The payload in RAM is for blocks reserved by earlier writes. -/
  home : ∀ r ∈ st.pending.data, r.buf ≠ [] ∧
    ∀ p, r.Holds p → st.allocated (p / blockSize) = true ∧ p / blockSize ∉ held

section

variable {c : FileConfig} {writes : List WriteReq} {held : List Nat} {a : WriteAct}
  {st st' : FileState}

theorem devicePos_touches {v : ExtentValue} {b : Nat} (h : v.Covers b) :
    v.Touches (v.devicePos b / blockSize) := by
  refine ⟨_, Nat.le_add_right _ _, ?_, rfl⟩
  simp only [ExtentValue.Covers, ExtentValue.endOff] at *
  omega

theorem contentInv_of_written (hdata : st.pending.data = []) (hfirst : NewestFirst (st.live c))
    (hvalue : ∀ b v, NewestAt (st.live c) b v → st.content (v.devicePos b) = lastWritten writes b)
    (hhole : ∀ b, (∀ v ∈ st.live c, ¬ v.Covers b) → lastWritten writes b = 0) :
    ContentInv c writes held st := by
  refine ⟨hfirst, hvalue, hhole, ?_, ?_, ?_⟩
  · rw [hdata]
    exact List.Pairwise.nil
  · rw [hdata]
    exact fun v _ r hr => nomatch hr
  · rw [hdata]
    exact fun r hr => nomatch hr

theorem ContentInv.flush (h : ContentInv c writes held st) (hf : Flushed c st st') :
    ContentInv c writes held st' := by
  have hcontent : st'.content = st.content := by
    rw [FileState.content, hf.pending, hf.device, flushData_eq h.apart]
    rfl
  apply contentInv_of_written
  · rw [hf.pending]
    rfl
  · rw [hf.live_eq]
    exact h.first
  · rw [hf.live_eq, hcontent]
    exact h.value
  · rw [hf.live_eq]
    exact h.hole

theorem ContentInv.reserve (h : ContentInv c writes [] st)
    (hmay : MayAllocate st.allocated a.req.data.length a.runs) :
    ContentInv c writes a.blocks (st.reserve a.blocks) := by
  refine ⟨h.first, h.value, h.hole, h.apart, h.settled, fun r hr => ?_⟩
  obtain ⟨hne, hhome⟩ := h.home r hr
  refine ⟨hne, fun p hp => ?_⟩
  have ha := (hhome p hp).1
  refine ⟨reserve_eq_true.mpr (.inl ha), fun hin => ?_⟩
  rw [hmay.2.2 _ hin] at ha
  cases ha

theorem ContentInv.withCached (h : ContentInv c writes held st) (m : Option InodeMeta) :
    ContentInv c writes held { st with cached := m } :=
  ⟨h.first, h.value, h.hole, h.apart, h.settled, h.home⟩

theorem ContentInv.unheld (h : ContentInv c writes a.blocks st) {p : Nat}
    (hp : p / blockSize ∈ a.blocks) : ∀ r ∈ st.pending.data, ¬ r.Holds p :=
  fun r hr hh => ((h.home r hr).2 p hh).2 hp

theorem ContentInv.load (h : ContentInv c writes a.blocks st) (hb : BlockInv c a.blocks st)
    (hr : RunsReserved a) : ContentInv c writes a.blocks (st.writeThrough a false) ∧
      Loaded c a (st.writeThrough a false).content := by
  have hdev : (st.writeThrough a false).device =
      bufferContent (bufferedPayload a.req a.runs) st.device :=
    foldl_writeRun (bufferedPayload_apart hr) st.device
  refine ⟨⟨h.first, ?_, h.hole, h.apart, h.settled, h.home⟩, ?_⟩
  · intro b v hv
    rw [← h.value b v hv]
    refine bufferContent_congr ?_
    rw [hdev, bufferContent_payload hr st.device]
    exact fun hin => (hb.held_unnamed _ hin).1 v hv.1 (devicePos_touches hv.2.1)
  · intro seq x hx b hxb
    have hin := newExtents_touches hr.1.1 hx (devicePos_touches hxb)
    have hun := bufferContent_of_unheld (h.unheld hin) (st.writeThrough a false).device
    rw [FileState.content, show (st.writeThrough a false).pending = st.pending from rfl, hun, hdev]
    exact loaded_bufferContent hr st.device seq x hx b hxb

theorem ContentInv.content_hold (h : ContentInv c writes a.blocks st) (hr : RunsReserved a) :
    Loaded c a (bufferContent (st.pending.data ++ bufferedPayload a.req a.runs) st.device) ∧
      ∀ p, p / blockSize ∉ a.blocks →
        bufferContent (st.pending.data ++ bufferedPayload a.req a.runs) st.device p =
          st.content p := by
  rw [bufferContent_append]
  refine ⟨fun seq x hx b hxb => ?_, fun p hp => ?_⟩
  · have hin := newExtents_touches hr.1.1 hx (devicePos_touches hxb)
    rw [bufferContent_of_unheld (h.unheld hin)]
    exact loaded_bufferContent hr st.device seq x hx b hxb
  · exact bufferContent_congr (bufferContent_payload hr st.device hp)

theorem ContentInv.written (h : ContentInv c writes a.blocks st) (hb : BlockInv c a.blocks st)
    (howns : ∀ d, c.node.owns d = true) (hw : Written c a st st') (hc : WriteAllows a (st.live c))
    (hload : Loaded c a st'.content)
    (hsame : ∀ p, p / blockSize ∉ a.blocks → st'.content p = st.content p) :
    NewestFirst (st'.live c) ∧ (∀ b v, NewestAt (st'.live c) b v →
        st'.content (v.devicePos b) = lastWritten (writes ++ [a.req]) b) ∧
      ∀ b, (∀ v ∈ st'.live c, ¬ v.Covers b) → lastWritten (writes ++ [a.req]) b = 0 := by
  refine ⟨hw.newestFirst howns h.first hc, ?_, ?_⟩
  · intro b y hy
    rw [lastWritten_append]
    by_cases hin : a.req.Writes b
    · -- The newest extent is a new one: any piece is older than the new extent there.
      rw [if_pos hin]
      obtain ⟨x, hx, hxb⟩ := hw.overlay.cover b hin.1 hin.2
      rcases hw.overlay.mem_iff.mp hy.1 with hnew | ⟨e, he, hpiece⟩
      · exact hload _ y hnew b hy.2.1
      · have hle := hy.2.2 x (hw.overlay.mem_iff.mpr (.inl hx)) hxb
        rw [(cutBy_covers hpiece).1] at hle
        exact absurd (hw.overlay.newer x hx e he) (not_lt.mpr hle)
    · rw [if_neg hin]
      have hout : b < a.req.offset ∨ a.req.stop ≤ b := by
        simp only [WriteReq.Writes] at hin
        omega
      obtain ⟨e, he, hpiece⟩ := hw.overlay.exists_piece hy.1 hy.2.1 hout
      have hnewest := (hw.overlay.newestAt_of_piece hout he hpiece hy.2.1).mp hy
      rw [((cutBy_covers hpiece).2 b hy.2.1).2, ← h.value b e hnewest]
      exact hsame _ fun hmem => (hb.held_unnamed _ hmem).1 e he (devicePos_touches hnewest.2.1)
  · intro b hun
    rw [lastWritten_append]
    have hnot : ¬ a.req.Writes b := by
      intro hin
      obtain ⟨x, hx, hxb⟩ := hw.overlay.cover b hin.1 hin.2
      exact hun x (hw.overlay.mem_iff.mpr (.inl hx)) hxb
    rw [if_neg hnot]
    refine h.hole b fun e he heb => ?_
    have hout : b < a.req.offset ∨ a.req.stop ≤ b := by
      simp only [WriteReq.Writes] at hnot
      omega
    obtain ⟨y, hy, hyb⟩ : ∃ y ∈ cutBy c.node a.req.offset a.req.stop e, y.Covers b :=
      exists_cutBy_outside heb hout
    exact hun y (hw.overlay.mem_iff.mpr (.inr ⟨e, he, hy⟩)) hyb

theorem cutBy_range {n : Node} {start stop : Nat} {e y : ExtentValue}
    (hy : y ∈ cutBy n start stop e) :
    e.diskOff ≤ y.diskOff ∧ y.diskOff + y.length ≤ e.diskOff + e.length := by
  rcases mem_cutBy.mp hy with ⟨⟨hov, -⟩, hy⟩ | ⟨-, rfl⟩
  · obtain ⟨hlo, hhi⟩ := hov
    rcases mem_survivors.mp hy with ⟨hlt, rfl⟩ | ⟨hlt, rfl⟩
    · simp only [headOf, ExtentValue.endOff] at *
      omega
    · have hle := tailStart_le hlo.le
      simp only [tailOf, tailStart, ExtentValue.endOff] at *
      omega
  · exact ⟨le_rfl, le_rfl⟩

theorem RangeSettled.sub {data : List BufferedRun} {pos n pos' n' : Nat}
    (h : RangeSettled data pos n) (hlo : pos ≤ pos') (hhi : pos' + n' ≤ pos + n) :
    RangeSettled data pos' n' := by
  intro r hr
  have hr := h r hr
  omega

theorem ContentInv.settled_before (h : ContentInv c writes a.blocks st) (hr : RunsReserved a)
    (hw : Written c a st st') {y : ExtentValue} (hy : y ∈ st'.live c) :
    RangeSettled st.pending.data y.diskOff y.length := by
  rcases hw.overlay.mem_iff.mp hy with hy | ⟨e, he, hy⟩
  · intro r hmem
    have hpos := (newExtents_wellPlaced (runsLeft_of_runsFor hr.1) hy).2.1
    refine .inr (outside_of_disjoint (h.home r hmem).1 hpos fun p hp hx => ?_)
    exact ((h.home r hmem).2 p hp).2 (newExtents_touches hr.1.1 hy ⟨p, hx.1, hx.2, rfl⟩)
  · exact (h.settled e he).sub (cutBy_range hy).1 (cutBy_range hy).2

theorem BlockInv.settled_payload (hb : BlockInv c a.blocks st) (hr : RunsReserved a)
    (hw : Written c a st st') {y : ExtentValue} (hy : y ∈ st'.live c) :
    RangeSettled (bufferedPayload a.req a.runs) y.diskOff y.length := by
  have hpos := (hw.placed hr hb.placed y hy).2.1
  rcases hw.overlay.mem_iff.mp hy with hy | ⟨e, he, hy⟩
  · exact payloadFrom_settled (runsLeft_of_runsFor hr.1) hr.2 (padded_sum hr) hy
  · intro r hmem
    obtain ⟨hne, hblocks⟩ := mem_bufferedPayload hr hmem
    refine .inr (outside_of_disjoint hne hpos fun p hp hx => ?_)
    exact (hb.held_unnamed _ (hblocks p hp)).1 e he (cutBy_touches hy ⟨p, hx.1, hx.2, rfl⟩)

theorem ContentInv.buffer (h : ContentInv c writes a.blocks st) (hb : BlockInv c a.blocks st)
    (howns : ∀ d, c.node.owns d = true) (hr : RunsReserved a) (hbuf : Buffered c a [] st st')
    (hc : WriteAllows a (st.live c)) (hload : Loaded c a st.content) :
    ContentInv c (writes ++ [a.req]) [] st' := by
  have hdata : st'.pending.data = st.pending.data := hbuf.data.trans (append_nil _)
  have hcontent : st'.content = st.content := by
    rw [FileState.content, hdata, hbuf.device]
    rfl
  obtain ⟨hfirst, hvalue, hhole⟩ := h.written hb howns hbuf.written hc (hcontent ▸ hload)
    fun p _ => congrFun hcontent p
  refine ⟨hfirst, hvalue, hhole, hdata ▸ h.apart, ?_, ?_⟩
  · rw [hdata]
    exact fun y hy => h.settled_before hr hbuf.written hy
  · rw [hdata, hbuf.allocated]
    exact fun r hmem => ⟨(h.home r hmem).1,
      fun p hp => ⟨((h.home r hmem).2 p hp).1, not_mem_nil⟩⟩

theorem ContentInv.hold (h : ContentInv c writes a.blocks st) (hb : BlockInv c a.blocks st)
    (howns : ∀ d, c.node.owns d = true) (hr : RunsReserved a)
    (hbuf : Buffered c a (bufferedPayload a.req a.runs) st st')
    (hc : WriteAllows a (st.live c)) : ContentInv c (writes ++ [a.req]) [] st' := by
  have hcontent : st'.content =
      bufferContent (st.pending.data ++ bufferedPayload a.req a.runs) st.device := by
    rw [FileState.content, hbuf.data, hbuf.device]
  obtain ⟨hload, hsame⟩ := h.content_hold (c := c) hr
  obtain ⟨hfirst, hvalue, hhole⟩ := h.written hb howns hbuf.written hc (hcontent ▸ hload)
    (hcontent ▸ hsame)
  refine ⟨hfirst, hvalue, hhole, ?_, ?_, ?_⟩
  · rw [hbuf.data, pairwise_append]
    refine ⟨h.apart, bufferedPayload_apart hr, fun r hmem r' hmem' => ?_⟩
    obtain ⟨hne', hblocks⟩ := mem_bufferedPayload hr hmem'
    refine outside_of_disjoint hne' (length_pos_iff.mpr (h.home r hmem).1) fun p hp' hp => ?_
    exact ((h.home r hmem).2 p hp).2 (hblocks p hp')
  · rw [hbuf.data]
    intro y hy r hmem
    rcases mem_append.mp hmem with hmem | hmem
    · exact h.settled_before hr hbuf.written hy r hmem
    · exact hb.settled_payload hr hbuf.written hy r hmem
  · rw [hbuf.data, hbuf.allocated]
    intro r hmem
    rcases mem_append.mp hmem with hmem | hmem
    · exact ⟨(h.home r hmem).1, fun p hp => ⟨((h.home r hmem).2 p hp).1, not_mem_nil⟩⟩
    · obtain ⟨hne, hblocks⟩ := mem_bufferedPayload hr hmem
      exact ⟨hne, fun p hp => ⟨hb.held_reserved _ (hblocks p hp), not_mem_nil⟩⟩

theorem ContentInv.commit (h : ContentInv c writes a.blocks st) (hb : BlockInv c a.blocks st)
    (howns : ∀ d, c.node.owns d = true) (hp : st.pending = .none) {blocks : List Nat}
    (hcom : Committed c a blocks st st') (hc : WriteAllows a (st.live c))
    (hload : Loaded c a st.content) : ContentInv c (writes ++ [a.req]) [] st' := by
  have hcontent : st'.content = st.content := by
    rw [FileState.content, FileState.content, hcom.pending, hcom.device, hp]
  obtain ⟨hfirst, hvalue, hhole⟩ := h.written hb howns hcom.written hc (hcontent ▸ hload)
    fun p _ => congrFun hcontent p
  exact contentInv_of_written (by rw [hcom.pending]; rfl) hfirst hvalue hhole

/-! ## The stages of a write -/

structure Showing (c : FileConfig) (writes : List WriteReq) (vs : List ExtentValue)
    (rec : InodeRecord) (held : List Nat) (st : FileState) : Prop where
  blocks : BlockInv c held st
  content : ContentInv c writes held st
  live : st.live c = vs
  record : getInode st.shown c.ino = some rec

def ContentPhase (c : FileConfig) (a : WriteAct) (writes : List WriteReq)
    (vs : List ExtentValue) (rec : InodeRecord) : Phase → FileState → Prop
  | .idle, st => Showing c writes vs rec [] st
  | .reserved, st => Showing c writes vs rec a.blocks st ∧ RunsReserved a
  | .loaded, st => (Showing c writes vs rec a.blocks st ∧ RunsReserved a) ∧ Loaded c a st.content
  | .done, st => Showing c (writes ++ [a.req]) (st.live c) (updatedRecord a.req rec) [] st

variable {vs : List ExtentValue} {rec : InodeRecord}

theorem Showing.flush (h : Showing c writes vs rec held st) (hf : Flushed c st st') :
    Showing c writes vs rec held st' :=
  ⟨h.blocks.flush hf, h.content.flush hf, hf.live_eq.trans h.live,
    (congrArg (Option.map Versioned.value) (hf.shown_get (.inode c.ino))).trans h.record⟩

theorem Showing.unchanged (h : Showing c writes vs rec [] st) (hp : st.pending = .none)
    (hun : Unchanged c st st') (hrec : getInode st'.shown c.ino = getInode st.shown c.ino) :
    Showing c writes vs rec [] st' := by
  have hcontent : st'.content = st.content := by
    rw [FileState.content, FileState.content, hun.pending, hun.device, hp]
  refine ⟨h.blocks.unchanged hun, ?_, hun.live.trans h.live, hrec.trans h.record⟩
  apply contentInv_of_written
  · rw [hun.pending]
    rfl
  · rw [hun.live]
    exact h.content.first
  · rw [hun.live, hcontent]
    exact h.content.value
  · rw [hun.live]
    exact h.content.hole

theorem Showing.withCached (h : Showing c writes vs rec held st) (m : Option InodeMeta) :
    Showing c writes vs rec held { st with cached := m } :=
  ⟨h.blocks.congr rfl rfl rfl rfl, h.content.withCached m, h.live, h.record⟩

theorem contentRule (howns : ∀ d, c.node.owns d = true) (writes : List WriteReq)
    (rec : InodeRecord) (hc : WriteAllows a vs) :
    WriteRule c a (ContentPhase c a writes vs rec) where
  flush := by
    intro p st st' hp hI hf
    cases p with
    | idle => exact hI.flush hf
    | reserved => exact ⟨hI.1.flush hf, hI.2⟩
    | loaded =>
      refine ⟨⟨hI.1.1.flush hf, hI.1.2⟩, ?_⟩
      have hcontent : st'.content = st.content := by
        rw [FileState.content, hf.pending, hf.device, flushData_eq hI.1.1.content.apart]
        rfl
      exact hcontent ▸ hI.2
    | done => exact absurd rfl hp
  cache := by
    intro p st m hI
    cases p with
    | idle => exact hI.withCached m
    | reserved => exact ⟨hI.1.withCached m, hI.2⟩
    | loaded => exact ⟨⟨hI.1.1.withCached m, hI.1.2⟩, hI.2⟩
    | done => exact hI.withCached m
  reserve := fun hI hmay =>
    ⟨⟨hI.blocks.reserve hmay, hI.content.reserve hmay, hI.live, hI.record⟩, hmay.1, hmay.2.1⟩
  load := by
    rintro st ⟨hI, hr⟩
    obtain ⟨hcontent, hload⟩ := hI.content.load hI.blocks hr
    exact ⟨⟨⟨hI.blocks.congr rfl rfl rfl rfl, hcontent, hI.live, hI.record⟩, hr⟩, hload⟩
  unload := fun hI => hI.1
  hold := by
    rintro st st' ⟨⟨hb, hcon, rfl, hrec⟩, hr⟩ hbuf
    exact ⟨hb.buffer howns hr hbuf hc.splitsApart, hcon.hold hb howns hr hbuf hc, rfl,
      hbuf.written.record rec hrec⟩
  buffer := by
    rintro st st' ⟨⟨⟨hb, hcon, rfl, hrec⟩, hr⟩, hload⟩ hbuf
    exact ⟨hb.buffer howns hr hbuf hc.splitsApart, hcon.buffer hb howns hr hbuf hc hload, rfl,
      hbuf.written.record rec hrec⟩
  commit := by
    rintro st st' blocks ⟨⟨⟨hb, hcon, rfl, hrec⟩, hr⟩, hload⟩ hp hcom
    exact ⟨hb.commit howns hr hcom hc.splitsApart, hcon.commit hb howns hp hcom hc hload, rfl,
      hcom.written.record rec hrec⟩

/-! ## Reading -/

theorem ContentInv.resolve_eq (h : ContentInv c writes held st) {m : InodeMeta}
    (hm : Snapshot c st m) (b : Nat) :
    resolve st.content m.extents b = lastWritten writes b := by
  have hmem : ∀ {v}, v ∈ st.live c ↔ ∃ e ∈ m.extents, e.toExtentValue = v := by
    intro v
    rw [← hm.perm.mem_iff, List.mem_map]
  unfold resolve
  cases hfind : m.extents.find? (fun e => decide (e.Covers b)) with
  | none =>
    rw [find?_eq_none] at hfind
    refine (h.hole b fun v hv hb => ?_).symm
    obtain ⟨e, he, rfl⟩ := hmem.mp hv
    exact hfind e he (by simpa using hb)
  | some x =>
    obtain ⟨hx, hxb, hleast⟩ := (find?_eq_some_iff_least hm.ordered).mp hfind
    rw [decide_eq_true_eq] at hxb
    refine h.value b _ ⟨hmem.mpr ⟨x, hx, rfl⟩, hxb, fun v hv hvb => ?_⟩
    -- The newest extent starts no later than the first, so the first is as new as it is.
    obtain ⟨z, hz⟩ := exists_newestAt hv hvb
    obtain ⟨e, he, rfl⟩ := hmem.mp hz.1
    refine (hz.2.2 v hv hvb).trans ?_
    have hle := h.first b _ hz _ (hmem.mpr ⟨x, hx, rfl⟩) hxb
    rcases hleast e he (by simpa using hz.2.1) with rfl | hbefore
    · exact le_rfl
    · rw [Extent.before_iff] at hbefore
      omega

/-- What a read of the file needs of the device. -/
def FileState.ReadsAligned (c : FileConfig) (d : Device) (st : FileState) (offset size : Nat) :
    Prop :=
  ∀ m u, st.inodeMeta c = some (m, u) → Ipc.ReadsAligned d m.extents st.pending.data offset
    (offset + min size (m.record.size - offset))

theorem Showing.read (h : Showing c writes vs rec held st) (hcoh : Coherent c st) (d : Device)
    (offset size : Nat) :
    st.read c d offset size = some (.ok ((range (min size (rec.size - offset))).map
      fun i => lastWritten writes (offset + i))) ↔ st.ReadsAligned c d offset size := by
  obtain ⟨m, hm, hsnap⟩ := inodeMeta_spec hcoh
  obtain rfl : m.record = rec := some.inj (hsnap.record.symm.trans h.record)
  have hlive : ∀ e ∈ m.extents, e.toExtentValue ∈ st.live c := fun e he =>
    hsnap.perm.mem_iff.mp (mem_map_of_mem he)
  have hfetch : ∀ e ∈ m.extents, ∀ f : Fill, f.source = e → e.logOff ≤ f.pos →
      f.pos + f.n ≤ e.endOff →
        f.fetch st.pending.data st.device = st.content.readAt f.diskOff f.n := by
    rintro e he f rfl hlo hhi
    refine fetch_eq h.content.apart
      ((h.content.settled _ (hlive _ he)).sub (Nat.le_add_right _ _) ?_)
    simp only [Fill.diskOff, ExtentValue.endOff] at *
    omega
  have hread := (@handleRead_eq _ _ m.record _ _ hsnap.ordered hfetch offset size).trans
    (map_congr_left fun i _ => h.content.resolve_eq hsnap _)
  have haligned : st.ReadsAligned c d offset size ↔ Ipc.ReadsAligned d m.extents st.pending.data
      offset (offset + min size (m.record.size - offset)) := by
    simp only [FileState.ReadsAligned, hm, some.injEq, Prod.mk.injEq, and_imp, forall_eq',
      forall_apply_eq_imp_iff]
  rw [haligned, ← readable_iff hsnap.ordered fun e he => (h.blocks.placed _ (hlive e he)).2.1,
    FileState.read, hm, map_some, some.injEq, ← hread]
  by_cases hall : ∀ f ∈ readWalk (offset + min size (m.record.size - offset)) offset m.extents,
      f.Readable d st.pending.data
  · exact iff_of_true (if_pos hall) hall
  · refine iff_of_false (fun h => ?_) hall
    cases (if_neg hall).symm.trans h

end

end EtcFS.Ipc
