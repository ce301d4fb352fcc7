import EtcFS.Ipc.Content

/-!
# A read returns the last write

A read returns the last byte written as long as no write leaves a tail of an older extent that
starts before the write's last run.
-/

namespace EtcFS.Correctness

open EtcFS.Core Metadata Arena Ipc List Option

def request : WriteStep → Option WriteReq
  | .write a => some a.req
  | .flush | .recall _ => none

def requests (steps : List WriteStep) : List WriteReq := steps.filterMap request

def StepAllowed (c : FileConfig) (st : FileState) : WriteStep → Prop
  | .write a => Allocatable c { st with freed := [] } a ∧ WriteAllows a (st.live c)
  | .flush | .recall _ => True

structure ShowsRun (c : FileConfig) (size : Nat) (steps : List WriteStep) (st : FileState) :
    Prop where
  coherent : Coherent c st
  shows : ∃ rec, rec.size = sizeAfter size (requests steps) ∧
    Showing c (requests steps) (st.live c) rec [] st

theorem opened_showsRun {c : FileConfig} {st : FileState} (h : Opened c st) {rec : InodeRecord}
    (hrec : getInode st.etcd c.ino = some rec) : ShowsRun c rec.size [] st := by
  have hempty : st.pending.ops = [] := by rw [h.pending]; rfl
  have hlive : st.live c = [] := by
    rw [live_of_empty hempty, extentsOf, h.extents, map_nil]
  refine ⟨h.coherent, rec, rfl, h.blockInv, ?_, rfl, ?_⟩
  · apply contentInv_of_written
    · rw [h.pending]
      rfl
    · rintro b e ⟨he, -⟩
      rw [hlive] at he
      cases he
    · rintro b e ⟨he, -⟩
      rw [hlive] at he
      cases he
    · exact fun b _ => rfl
  · rw [getInode, get_shown_of_empty hempty]
    exact hrec

theorem showsRun_step {c : FileConfig} (howns : ∀ d, c.node.owns d = true) {size : Nat}
    {done : List WriteStep} {st : FileState} {step : WriteStep} (h : ShowsRun c size done st)
    (hallowed : StepAllowed c st step) :
    ∃ t, (fileWrites c).step st step = some t ∧ ShowsRun c size (done ++ [step]) t := by
  obtain ⟨hcoh, rec, hsize, hshow⟩ := h
  have hcoh₀ : Coherent c { st with freed := [] } := hcoh.congr rfl rfl rfl rfl
  have hshow₀ : Showing c (requests done) (st.live c) rec [] { st with freed := [] } :=
    ⟨hshow.blocks.begin, ⟨hshow.content.first, hshow.content.value, hshow.content.hole,
      hshow.content.apart, hshow.content.settled, hshow.content.home⟩, rfl, hshow.record⟩
  cases step with
  | write a =>
    obtain ⟨halloc, hallows⟩ := hallowed
    obtain ⟨t, ht, hcoh', hdone⟩ := write_total (contentRule howns (requests done) rec hallows)
      hcoh₀ hshow₀ halloc
    have hreq : requests (done ++ [.write a]) = requests done ++ [a.req] := by
      simp [requests, request]
    refine ⟨t, ht, hcoh', updatedRecord a.req rec, ?_, ?_⟩
    · rw [hreq, sizeAfter, foldl_append]
      exact congrArg (max · a.req.stop) hsize
    · rw [hreq]
      exact hdone
  | flush =>
    obtain ⟨t, ht, hf⟩ := flush_spec hcoh₀
    have hreq : requests (done ++ [.flush]) = requests done := by simp [requests, request]
    refine ⟨t, ht, hf.coherent, rec, hreq ▸ hsize, ?_⟩
    rw [hreq, hf.live_eq]
    exact hshow₀.flush hf
  | «recall» next =>
    obtain ⟨u, t, hf, ht, hun, hrec⟩ := recall_spec hcoh₀ next
    have hreq : requests (done ++ [.recall next]) = requests done := by simp [requests, request]
    refine ⟨t, ht, hun.coherent, rec, hreq ▸ hsize, ?_⟩
    rw [hreq, hun.live, hf.live_eq]
    exact (hshow₀.flush hf).unchanged hf.pending hun hrec

/-- Every run of writes that may be allocated and meet the condition, on a file
that started without extents and a node that owns every arena, goes through. A read
then returns for each byte below the file size the byte of the last write that covers
it, and zero where none does, exactly when the device takes its offsets. -/
theorem read_eq_lastWritten {c : FileConfig} (howns : ∀ d, c.node.owns d = true)
    {st : FileState} (hst : Opened c st) {rec : InodeRecord}
    (hrec : getInode st.etcd c.ino = some rec) {steps : List WriteStep}
    (hsteps : (fileWrites c).Meets (StepAllowed c) st steps) :
    ∃ t, (fileWrites c).exec st steps = some t ∧ ∀ d offset size,
      t.read c d offset size = some (.ok ((range
        (min size (sizeAfter rec.size (requests steps) - offset))).map
          fun i => lastWritten (requests steps) (offset + i))) ↔
        t.ReadsAligned c d offset size := by
  obtain ⟨t, ht, hshows⟩ := hsteps.exec (I := ShowsRun c rec.size)
    (fun done s step h hallowed => showsRun_step howns h hallowed) (opened_showsRun hst hrec)
  rw [nil_append] at hshows
  obtain ⟨hcoh, rec', hsize, hshow⟩ := hshows
  refine ⟨t, ht, fun d offset size => ?_⟩
  rw [← hsize]
  exact hshow.read hcoh d offset size

def appendOver : List WriteStep :=
  [.write (soloWrite false 0 [1, 2, 3] 0 three_bytes_ne three_bytes_bound),
    .write (soloWrite true 2 [7, 8] 1 (by decide) (by decide))]

theorem appendOver_allowed :
    (fileWrites soloConfig).Meets (StepAllowed soloConfig) soloFile appendOver := by
  have hfirst : soloFile.live soloConfig = [] := by decide
  refine ⟨⟨⟨rfl, fun u hu => ?_⟩, ?_, ?_⟩, fun t ht => ?_⟩
  · cases hu
    decide
  · rw [hfirst]
    exact fun e he => nomatch he
  · rw [hfirst]
    exact fun b _ e he => absurd he.1 not_mem_nil
  · have hlive : ((fileWrites soloConfig).step soloFile (.write
        (soloWrite false 0 [1, 2, 3] 0 three_bytes_ne three_bytes_bound))).map
          (FileState.live soloConfig) =
          some [⟨0, 0, 3, 0, 0, "a"⟩] := by decide +kernel
    have hmay : (((fileWrites soloConfig).step soloFile (.write
        (soloWrite false 0 [1, 2, 3] 0 three_bytes_ne three_bytes_bound))).bind fun t =>
          { t with freed := [] }.beforeWrite soloConfig
            (soloWrite true 2 [7, 8] 1 (by decide) (by decide))).map
              (fun u => decide (MayAllocate u.allocated 2 [⟨4096, 4096⟩])) = some true := by
      decide +kernel
    rw [ht, map_some, some.injEq] at hlive
    rw [ht, bind_some] at hmay
    refine ⟨⟨⟨rfl, fun u hu => ?_⟩, ?_, ?_⟩, fun _ _ => trivial⟩
    · rw [hu, map_some, some.injEq, decide_eq_true_eq] at hmay
      exact hmay
    · -- The second write ends behind the first, so it leaves no tail of it.
      rw [hlive]
      decide
    · rw [hlive]
      rintro b hb e ⟨he, hcov, -⟩
      rw [mem_singleton.mp he] at hcov
      exact absurd (hcov.2.trans_le (by decide : 3 ≤ 4)) (not_lt.mpr hb)

/-- The theorem at a buffered write and a committed one over its end. -/
theorem read_eq_lastWritten_appendOver :
    ∃ t, (fileWrites soloConfig).exec soloFile appendOver = some t ∧ ∀ d offset size,
      t.read soloConfig d offset size = some (.ok ((range
        (min size (sizeAfter 0 (requests appendOver) - offset))).map
          fun i => lastWritten (requests appendOver) (offset + i))) ↔
        t.ReadsAligned soloConfig d offset size :=
  read_eq_lastWritten (fun _ => rfl) soloFile_opened
    (show getInode soloFile.etcd 7 = some (regularFile 7) by decide) appendOver_allowed

def directDevice : Device := ⟨true, 512⟩

/-- The tail left of the first extent starts before the middle byte's write, so
the byte reads back as it was before it, whether the writes are buffered or
committed at once. -/
theorem middle_byte_stale :
    lastWritten (requests (rewriteMiddle false)) 1 = 7 ∧
      ((fileWrites soloConfig).exec soloFile (rewriteMiddle false)).bind
        (fun t => t.read soloConfig directDevice 0 3) = some (.ok [1, 2, 3]) ∧
      ((fileWrites soloConfig).exec soloFile (rewriteMiddle true)).bind
        (fun t => t.read soloConfig directDevice 0 3) = some (.ok [1, 2, 3]) := by
  refine ⟨by decide, by decide +kernel, by decide +kernel⟩

end EtcFS.Correctness
