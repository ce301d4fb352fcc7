import EtcFS.Arena.Allocator
import EtcFS.Metadata.Schema

/-!
# One WRITE in progress

The counters taken from the extent list, the extents a write publishes, the rewrite of what it
buries, and the transaction that carries it.
-/

namespace EtcFS.Ipc

open EtcFS.Core Metadata Arena List Option

abbrev Byte := UInt8

structure Node where
  id : NodeID
  gen : Nat
  owns : Nat → Bool

def Node.guard (n : Node) : Cmp Val := .valueEq (.gen n.id) n.gen

def offsetBound : Nat := 2 ^ 64

structure WriteReq where
  ino : Nat
  offset : Nat
  data : List Byte
  uid : UInt32
  data_ne : data ≠ []
  bound : offset + data.length < offsetBound

def WriteReq.stop (w : WriteReq) : Nat := w.offset + w.data.length

def sizeAfter (size : Nat) (writes : List WriteReq) : Nat :=
  writes.foldl (fun size w => max size w.stop) size

/-- What etcd takes in one transaction, of operations and of comparisons. -/
def etcdMaxTxnOps : Nat := 128

def maxWriteTxnOps : Nat := 120

def maxReclaimOps : Nat := 2

structure ReclaimPlan where
  cmp : Cmp Val
  ops : List (Op Val)
  freeOff : Nat
  freeLen : Nat

def ReclaimPlan.blocks (p : ReclaimPlan) : List Nat :=
  if p.freeLen > 0 then rangeBlocks p.freeOff p.freeLen else []

def planReclaim (n : Node) (ino : Nat) (old : Extent) (start stop nextChunk : Nat) :
    Option ReclaimPlan × Nat :=
  if n.owns old.diskOff then
    let (head, tail) := splitAround old.toExtentValue start stop
    let key := Key.extent ino old.chunk
    let plan (ops : List (Op Val)) : ReclaimPlan :=
      { cmp := .modRevisionEq key old.modRevision
        ops := ops
        freeOff := (coveredBlocks old.toExtentValue head tail).1
        freeLen := (coveredBlocks old.toExtentValue head tail).2 }
    match head, tail with
    | none, none => (some (plan [.delete key]), nextChunk)
    | some h, some t =>
      (some (plan [.put key h, .put (.extent ino nextChunk) t]), nextChunk + 1)
    | some h, none => (some (plan [.put key h]), nextChunk)
    -- The write covered less than a block at the front: the split snapped back.
    | none, some t =>
      if t.logOff = old.logOff then (none, nextChunk)
      else (some (plan [.put key t]), nextChunk)
  else (none, nextChunk)

def onePast (field : Extent → Nat) (existing : List Extent) : Nat :=
  existing.foldl (fun n e => if field e ≥ n then field e + 1 else n) 0

def nextChunk (existing : List Extent) : Nat := onePast Extent.chunk existing

def nextSeq (existing : List Extent) : Nat := onePast (fun e => e.seq) existing

def newExtents (n : Node) (w : WriteReq) (seq : Nat) : Nat → List Run → List ExtentValue
  | _, [] => []
  | pos, r :: runs =>
    { logOff := w.offset + pos
      diskOff := r.diskOff
      length := min r.length (w.data.length - pos)
      gen := n.gen
      seq := seq
      node := n.id } :: newExtents n w seq (pos + r.length) runs

def extentPuts (ino : Nat) : Nat → List ExtentValue → List (Op Val)
  | _, [] => []
  | chunk, v :: vs => .put (.extent ino chunk) v :: extentPuts ino (chunk + 1) vs

def extentAbsent (ino : Nat) : Nat → List ExtentValue → List (Cmp Val)
  | _, [] => []
  | chunk, _ :: vs => .absent (.extent ino chunk) :: extentAbsent ino (chunk + 1) vs

structure Proposal where
  cmps : List (Cmp Val)
  ops : List (Op Val)
  stop : Nat
  plans : List ReclaimPlan
  deferredReclaim : List Extent
  nextChunk : Nat
  modeChanged : Bool

abbrev Proposal.withPlan (p : Proposal) (plan : ReclaimPlan) (next : Nat) : Proposal :=
  { p with
    cmps := p.cmps ++ [plan.cmp]
    ops := p.ops ++ plan.ops
    plans := p.plans ++ [plan]
    nextChunk := next }

def Proposal.reclaim (n : Node) (ino start : Nat) (p : Proposal) (old : Extent) : Proposal :=
  if old.logOff ≥ p.stop ∨ start ≥ old.endOff then p
  else if p.ops.length + maxReclaimOps + 1 > maxWriteTxnOps ∨
      p.cmps.length + 1 > maxWriteTxnOps then
    { p with deferredReclaim := p.deferredReclaim ++ [old] }
  else
    match planReclaim n ino old start p.stop p.nextChunk with
    | (some plan, next) => p.withPlan plan next
    | (none, next) => { p with nextChunk := next }

def Proposal.start (n : Node) (w : WriteReq) (runs : List Run) (rec : InodeRecord)
    (existing : List Extent) : Proposal :=
  let chunk := Ipc.nextChunk existing
  let news := newExtents n w (nextSeq existing) 0 runs
  let stop := (news.getLast?.map ExtentValue.endOff).getD w.offset
  let mode := clearSetIDOnWrite rec.mode w.uid
  let record : List (Op Val) :=
    if stop > rec.size ∨ mode ≠ rec.mode then
      [.put (.inode w.ino) ({ rec with size := max rec.size stop, mode := mode } : InodeRecord)]
    else []
  { cmps := extentAbsent w.ino chunk news
    ops := extentPuts w.ino chunk news ++ record
    stop := stop
    plans := []
    deferredReclaim := []
    nextChunk := chunk + news.length
    modeChanged := mode ≠ rec.mode }

def proposal (n : Node) (w : WriteReq) (runs : List Run) (rec : InodeRecord)
    (existing : List Extent) : Proposal :=
  existing.foldl (Proposal.reclaim n w.ino w.offset) (Proposal.start n w runs rec existing)

/-! ## The new extents -/

section

variable {n : Node} {w : WriteReq} {seq : Nat}

theorem newExtents_length (pos : Nat) (runs : List Run) :
    (newExtents n w seq pos runs).length = runs.length := by
  induction runs generalizing pos with
  | nil => rfl
  | cons r runs ih => simp only [newExtents, length_cons, ih]

variable {pos : Nat} {runs : List Run}

theorem newExtents_seq {x : ExtentValue} (hx : x ∈ newExtents n w seq pos runs) : x.seq = seq := by
  induction runs generalizing pos with
  | nil => cases hx
  | cons r runs ih =>
    rcases mem_cons.mp hx with rfl | hx
    · rfl
    · exact ih hx

def RunsLeft (w : WriteReq) (pos : Nat) (runs : List Run) : Prop :=
  (∀ r ∈ runs, r.Whole) ∧ w.data.length ≤ pos + (runs.map Run.length).sum ∧
    pos + (runs.map Run.length).sum < w.data.length + blockSize

theorem runsLeft_of_runsFor (h : RunsFor w.data.length runs) : RunsLeft w 0 runs := by
  refine ⟨h.1, ?_, ?_⟩ <;>
  · rw [h.2]
    simp only [blocksFor, blockSize]
    omega

theorem RunsLeft.tail {r : Run} (h : RunsLeft w pos (r :: runs)) :
    RunsLeft w (pos + r.length) runs := by
  obtain ⟨hwhole, hlo, hhi⟩ := h
  rw [map_cons, sum_cons] at hlo hhi
  exact ⟨fun r hr => hwhole r (mem_cons_of_mem _ hr), by omega, by omega⟩

theorem RunsLeft.pos_lt {r : Run}
    (h : RunsLeft w pos (r :: runs)) : pos < w.data.length ∧ blockSize ≤ r.length := by
  obtain ⟨hwhole, -, hhi⟩ := h
  obtain ⟨hpos, hdvd, -⟩ := hwhole r mem_cons_self
  have hle := Nat.le_of_dvd hpos hdvd
  rw [map_cons, sum_cons] at hhi
  omega

theorem newExtents_bounds (h : RunsLeft w pos runs)
    {x : ExtentValue} (hx : x ∈ newExtents n w seq pos runs) :
    w.offset + pos ≤ x.logOff ∧ x.logOff < x.endOff ∧ x.endOff ≤ w.stop := by
  induction runs generalizing pos with
  | nil => cases hx
  | cons r runs ih =>
    obtain ⟨hpos, hlen⟩ := h.pos_lt
    simp only [blockSize] at hlen
    rcases mem_cons.mp hx with rfl | hx
    · simp only [ExtentValue.endOff, WriteReq.stop]
      omega
    · obtain ⟨h1, h2, h3⟩ := ih h.tail hx
      exact ⟨by omega, h2, h3⟩

theorem newExtents_pairwise (h : RunsLeft w pos runs) :
    (newExtents n w seq pos runs).Pairwise fun x y => x.endOff ≤ y.logOff := by
  induction runs generalizing pos with
  | nil => exact List.Pairwise.nil
  | cons r runs ih =>
    refine List.Pairwise.cons ?_ (ih h.tail)
    intro y hy
    have hlo := (newExtents_bounds h.tail hy).1
    simp only [ExtentValue.endOff]
    omega

theorem exists_newExtents_covers (h : RunsLeft w pos runs) {b : Nat}
    (hlo : w.offset + pos ≤ b) (hhi : b < w.stop) :
    ∃ x ∈ newExtents n w seq pos runs, x.Covers b := by
  induction runs generalizing pos with
  | nil =>
    obtain ⟨-, hle, -⟩ := h
    simp only [map_nil, sum_nil, WriteReq.stop] at *
    omega
  | cons r runs ih =>
    by_cases hb : w.offset + (pos + r.length) ≤ b
    · obtain ⟨x, hx, hc⟩ := ih h.tail hb
      exact ⟨x, mem_cons_of_mem _ hx, hc⟩
    · refine ⟨_, mem_cons_self, hlo, ?_⟩
      simp only [ExtentValue.endOff, WriteReq.stop] at *
      omega

theorem newExtents_stop (h : RunsFor w.data.length runs) :
    ((newExtents n w seq 0 runs).getLast?.map ExtentValue.endOff).getD w.offset = w.stop := by
  have hleft : RunsLeft w 0 runs := runsLeft_of_runsFor h
  have hdata := length_pos_iff.mpr w.data_ne
  obtain ⟨x, hx, hlo, hhi⟩ : ∃ x ∈ newExtents n w seq 0 runs, x.Covers (w.stop - 1) :=
    exists_newExtents_covers hleft (by simp only [WriteReq.stop]; omega)
      (by simp only [WriteReq.stop]; omega)
  have hne : newExtents n w seq 0 runs ≠ [] := ne_nil_of_mem hx
  rw [getLast?_eq_some_getLast hne, map_some, getD_some]
  obtain ⟨-, hlt, hlast⟩ := newExtents_bounds hleft (getLast_mem hne)
  -- The extent that covers the last byte is the last one, since the others end before it starts.
  have hle : x.endOff ≤ ((newExtents n w seq 0 runs).getLast hne).endOff := by
    rcases mem_append.mp (dropLast_append_getLast hne ▸ hx) with hx | hx
    · have hp : (newExtents n w seq 0 runs).Pairwise _ := newExtents_pairwise hleft
      rw [← dropLast_append_getLast hne, pairwise_append] at hp
      exact (hp.2.2 x hx _ (mem_singleton_self _)).trans hlt.le
    · rw [mem_singleton.mp hx]
  omega

end

/-! ## A small request -/

theorem replicate_blocks_ne {blocks : Nat} (hne : 0 < blocks) :
    replicate (blocks * blockSize) (0 : Byte) ≠ [] := by
  simp only [ne_eq, replicate_eq_nil_iff, blockSize]
  omega

theorem replicate_blocks_bound {offset blocks : Nat}
    (hbound : offset + blocks * blockSize < offsetBound) :
    offset + (replicate (blocks * blockSize) (0 : Byte)).length < offsetBound := by
  rwa [length_replicate]

def zeroBlocks (offset blocks : Nat) (hne : 0 < blocks)
    (hbound : offset + blocks * blockSize < offsetBound) : WriteReq where
  ino := 7
  offset := offset
  data := replicate (blocks * blockSize) 0
  uid := 0
  data_ne := replicate_blocks_ne hne
  bound := replicate_blocks_bound hbound

theorem second_block_bound : blockSize + 1 * blockSize < offsetBound := by decide

end EtcFS.Ipc
