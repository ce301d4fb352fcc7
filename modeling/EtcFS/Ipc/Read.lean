import EtcFS.Core.FirstMatch
import EtcFS.Ipc.WriteOp

/-!
# Reading a file back

`handleRead` walks the extents with one cursor. Each byte comes from the first extent that covers
it, and a byte nothing covers stays zero.
-/

namespace EtcFS.Ipc

open EtcFS.Core Metadata Arena List

abbrev Bytes := Nat → Byte

def Bytes.blit (dst : Bytes) (pos : Nat) (src : List Byte) : Bytes := fun i =>
  if pos ≤ i ∧ i < pos + src.length then src.getD (i - pos) 0 else dst i

def Bytes.readAt (src : Bytes) (pos n : Nat) : List Byte :=
  (range n).map fun i => src (pos + i)

structure BufferedRun where
  diskOff : Nat
  buf : List Byte
  deriving DecidableEq, Repr

def BufferedRun.endOff (r : BufferedRun) : Nat := r.diskOff + r.buf.length

def bufferedReadAt (data : List BufferedRun) (diskOff n : Nat) : Option (List Byte) :=
  (data.find? fun r => decide (r.diskOff ≤ diskOff ∧ diskOff + n ≤ r.endOff)).map fun r =>
    (r.buf.drop (diskOff - r.diskOff)).take n

structure Fill where
  pos : Nat
  n : Nat
  source : Extent
  deriving DecidableEq, Repr

def Fill.diskOff (f : Fill) : Nat := f.source.diskOff + (f.pos - f.source.logOff)

def readWalk (reqEnd : Nat) : Nat → List Extent → List Fill
  | _, [] => []
  | pos, ext :: extents =>
    if pos ≥ reqEnd ∨ ext.logOff ≥ reqEnd then []
    else if ext.endOff ≤ pos then readWalk reqEnd pos extents
    else
      -- A hole before the extent moves the cursor; the response is already zero there.
      let pos := if ext.logOff > pos then ext.logOff else pos
      let within := pos - ext.logOff
      let n := min (ext.length - within) (reqEnd - pos)
      ⟨pos, n, ext⟩ :: readWalk reqEnd (pos + n) extents

def readWalk64 (reqEnd : Nat) : Nat → List Extent → List Fill
  | _, [] => []
  | pos, ext :: extents =>
    if pos ≥ reqEnd ∨ ext.logOff ≥ reqEnd then []
    else if ext.end64 ≤ pos then readWalk64 reqEnd pos extents
    else
      let pos := if ext.logOff > pos then ext.logOff else pos
      let within := pos - ext.logOff
      let n := min (ext.length - within) (reqEnd - pos)
      ⟨pos, n, ext⟩ :: readWalk64 reqEnd (pos + n) extents

def Fill.fetch (buffered : List BufferedRun) (dev : Bytes) (f : Fill) : List Byte :=
  (bufferedReadAt buffered f.diskOff f.n).getD (dev.readAt f.diskOff f.n)

def handleRead (rec : InodeRecord) (extents : List Extent) (buffered : List BufferedRun)
    (dev : Bytes) (offset size : Nat) : List Byte :=
  if offset ≥ rec.size then []
  else
    let size := if size > rec.size - offset then rec.size - offset else size
    let data := (readWalk (offset + size) offset extents).foldl
      (fun (data : Bytes) f => data.blit (f.pos - offset) (f.fetch buffered dev)) fun _ => 0
    (range size).map data

inductive Errno where
  | inval
  | noEnt
  | io
  | again
  | notSupp
  deriving DecidableEq, Repr

/-- How the data device was opened. -/
structure Device where
  direct : Bool
  sectorSize : Nat

/-- With `O_DIRECT` the device refuses an offset between two sectors. -/
def Device.Takes (d : Device) (diskOff : Nat) : Prop :=
  d.direct = false ∨ diskOff % d.sectorSize = 0
  deriving Decidable

def Fill.Readable (d : Device) (buffered : List BufferedRun) (f : Fill) : Prop :=
  (bufferedReadAt buffered f.diskOff f.n).isSome = true ∨ d.Takes f.diskOff
  deriving Decidable

/-- The reply of `handleRead`: a piece that `readInto` cannot fetch fails it. -/
def readReply (d : Device) (rec : InodeRecord) (extents : List Extent)
    (buffered : List BufferedRun) (dev : Bytes) (offset size : Nat) : Except Errno (List Byte) :=
  if ∀ f ∈ readWalk (offset + min size (rec.size - offset)) offset extents, f.Readable d buffered
  then .ok (handleRead rec extents buffered dev offset size)
  else .error .io

/-! ## The walk is first match -/

def Fill.Takes (f : Fill) (b : Nat) : Prop := f.pos ≤ b ∧ b < f.pos + f.n
  deriving Decidable

def fillOf (st : Stretch Nat Extent) : Fill := ⟨st.first, st.last - st.first, st.source⟩

theorem readWalk_eq (reqEnd pos : Nat) (extents : List Extent) : readWalk reqEnd pos extents =
      (cursorWalk (fun e : Extent => e.logOff) (fun e => e.endOff) reqEnd pos extents).map
        fillOf := by
  induction extents generalizing pos with
  | nil => rfl
  | cons ext extents ih =>
    simp only [readWalk, cursorWalk, ge_iff_le]
    split
    · rfl
    · split
      · exact ih pos
      · rename_i hend hbehind
        have hpos : (if ext.logOff > pos then ext.logOff else pos) = max pos ext.logOff := by
          split <;> omega
        have hlen : min (ext.length - (max pos ext.logOff - ext.logOff))
            (reqEnd - max pos ext.logOff) = min ext.endOff reqEnd - max pos ext.logOff := by
          simp only [ExtentValue.endOff] at *
          omega
        have hnext : max pos ext.logOff + (min ext.endOff reqEnd - max pos ext.logOff) =
            min ext.endOff reqEnd := by
          simp only [ExtentValue.endOff] at *
          omega
        simp only [hpos, hlen, hnext, ih, map_cons, fillOf]

variable {extents : List Extent}

theorem readWalk64_eq (h : ∀ e ∈ extents, e.endOff < 2 ^ 64)
    (reqEnd pos : Nat) : readWalk64 reqEnd pos extents = readWalk reqEnd pos extents := by
  induction extents generalizing pos with
  | nil => rfl
  | cons ext extents ih =>
    obtain ⟨hext, hrest⟩ := forall_mem_cons.mp h
    have hend : ext.end64 = ext.endOff := Nat.mod_eq_of_lt hext
    simp only [readWalk64, readWalk, hend, ih hrest]

theorem fillOf_takes {st : Stretch Nat Extent} {b : Nat} :
    (fillOf st).Takes b ↔ st.first ≤ b ∧ b < st.last := by
  simp only [fillOf, Fill.Takes]
  omega

theorem readWalk_takes (ho : Ordered extents) {offset reqEnd b : Nat}
    (hlo : offset ≤ b) (hhi : b < reqEnd) (e : Extent) :
    (∃ f ∈ readWalk reqEnd offset extents, f.Takes b ∧ f.source = e) ↔
      extents.find? (fun x => decide (x.Covers b)) = some e := by
  have hwalk : (∃ st ∈ cursorWalk (fun e : Extent => e.logOff) (fun e => e.endOff) reqEnd offset
      extents, st.first ≤ b ∧ b < st.last ∧ st.source = e) ↔
        extents.find? (fun x => decide (x.Covers b)) = some e :=
    cursorWalk_eq_find? ho.logOff_sorted hlo hhi e
  rw [readWalk_eq]
  simp only [mem_map, exists_exists_and_eq_and, fillOf_takes]
  refine Iff.trans ?_ hwalk
  constructor
  · rintro ⟨st, hst, ⟨h1, h2⟩, h3⟩
    exact ⟨st, hst, h1, h2, h3⟩
  · rintro ⟨st, hst, h1, h2, h3⟩
    exact ⟨st, hst, ⟨h1, h2⟩, h3⟩

/-! ## The response -/

def resolve (content : Bytes) (extents : List Extent) (b : Nat) : Byte :=
  match extents.find? fun e => decide (e.Covers b) with
  | some e => content (e.devicePos b)
  | none => 0

theorem blit_apply (dst : Bytes) (pos : Nat) (src : List Byte) (i : Nat) : dst.blit pos src i =
      if pos ≤ i ∧ i < pos + src.length then src.getD (i - pos) 0 else dst i := rfl

@[simp] theorem length_readAt (src : Bytes) (pos n : Nat) : (src.readAt pos n).length = n := by
  simp [Bytes.readAt]

theorem getD_readAt (src : Bytes) {pos n i : Nat} (h : i < n) :
    (src.readAt pos n).getD i 0 = src (pos + i) := by
  simp [Bytes.readAt, getD, h]

theorem foldl_fill (content : Bytes) {offset b : Nat} (hb : offset ≤ b) {fs : List Fill}
    (hpair : fs.Pairwise fun f g => f.pos + f.n ≤ g.pos) (hpos : ∀ f ∈ fs, offset ≤ f.pos)
    (data : Bytes) :
    (∀ f ∈ fs, f.Takes b →
      fs.foldl (fun (data : Bytes) f => data.blit (f.pos - offset) (content.readAt f.diskOff f.n))
        data (b - offset) = content (f.diskOff + (b - f.pos))) ∧
    ((∀ f ∈ fs, ¬ f.Takes b) →
      fs.foldl (fun (data : Bytes) f => data.blit (f.pos - offset) (content.readAt f.diskOff f.n))
        data (b - offset) = data (b - offset)) := by
  induction fs generalizing data with
  | nil => simp
  | cons g fs ih =>
    obtain ⟨hg, hfs⟩ := pairwise_cons.mp hpair
    have hgpos := hpos g mem_cons_self
    obtain ⟨ihtakes, ihnone⟩ := ih hfs (fun f hf => hpos f (mem_cons_of_mem _ hf))
      (data.blit (g.pos - offset) (content.readAt g.diskOff g.n))
    refine ⟨?_, ?_⟩
    · intro f hf htakes
      rcases mem_cons.mp hf with rfl | hf
      · rw [foldl_cons, ihnone, blit_apply, length_readAt, if_pos, getD_readAt]
        · congr 2
          omega
        · simp only [Fill.Takes] at htakes
          omega
        · simp only [Fill.Takes] at htakes
          omega
        · intro x hx hxt
          have hle := hg x hx
          simp only [Fill.Takes] at htakes hxt
          omega
      · rw [foldl_cons]
        exact ihtakes f hf htakes
    · intro hnone
      rw [foldl_cons, ihnone fun f hf => hnone f (mem_cons_of_mem _ hf), blit_apply,
        length_readAt, if_neg]
      have hgn := hnone g mem_cons_self
      simp only [Fill.Takes] at hgn
      omega

theorem readWalk_order (reqEnd pos : Nat) (extents : List Extent) :
    (readWalk reqEnd pos extents).Pairwise (fun f g => f.pos + f.n ≤ g.pos) ∧
      ∀ f ∈ readWalk reqEnd pos extents, pos ≤ f.pos ∧ f.source.logOff ≤ f.pos ∧
        f.pos + f.n ≤ f.source.endOff ∧ f.source ∈ extents := by
  have hfirst : ∀ st ∈ cursorWalk (fun e : Extent => e.logOff) (fun e => e.endOff) reqEnd pos
      extents, st.first ≤ st.last :=
    fun st hst => cursorWalk_first_le_last (fun e => Nat.le_add_right _ _) hst
  rw [readWalk_eq]
  refine ⟨?_, ?_⟩
  · rw [pairwise_map]
    refine (cursorWalk_pairwise reqEnd pos extents).imp_of_mem ?_
    intro st st' hst _ hle
    have hst := hfirst st hst
    simp only [fillOf]
    omega
  · intro f hf
    obtain ⟨st, hst, rfl⟩ := mem_map.mp hf
    obtain ⟨h1, h2, h3, -, h5⟩ := cursorWalk_bounds hst
    have hst := hfirst st hst
    refine ⟨h1, h2, ?_, h5⟩
    simp only [fillOf]
    omega

theorem handleRead_eq {content : Bytes} {rec : InodeRecord}
    {buffered : List BufferedRun} {dev : Bytes} (ho : Ordered extents)
    (hfetch : ∀ e ∈ extents, ∀ f : Fill, f.source = e → e.logOff ≤ f.pos →
      f.pos + f.n ≤ e.endOff → f.fetch buffered dev = content.readAt f.diskOff f.n)
    (offset size : Nat) :
    handleRead rec extents buffered dev offset size =
      (range (min size (rec.size - offset))).map
        fun i => resolve content extents (offset + i) := by
  unfold handleRead
  split
  · have hzero : min size (rec.size - offset) = 0 := by omega
    rw [hzero]
    rfl
  · have hsize : (if size > rec.size - offset then rec.size - offset else size) =
        min size (rec.size - offset) := by
      split <;> omega
    simp only [hsize]
    generalize min size (rec.size - offset) = n
    obtain ⟨hpair, hfill⟩ := readWalk_order (offset + n) offset extents
    refine map_congr_left ?_
    intro i hi
    rw [mem_range] at hi
    have hsame : (readWalk (offset + n) offset extents).foldl
          (fun (data : Bytes) f => data.blit (f.pos - offset) (f.fetch buffered dev)) (fun _ => 0) =
        (readWalk (offset + n) offset extents).foldl
          (fun (data : Bytes) f => data.blit (f.pos - offset) (content.readAt f.diskOff f.n))
          fun _ => 0 := by
      refine foldl_ext _ _ _ ?_
      intro data f hf
      obtain ⟨-, hlo, hhi, hmem⟩ := hfill f hf
      rw [hfetch f.source hmem f rfl hlo hhi]
    obtain ⟨htakes, hnone⟩ := foldl_fill content (Nat.le_add_right offset i) hpair
      (fun f hf => (hfill f hf).1) fun _ => 0
    rw [Nat.add_sub_cancel_left] at htakes hnone
    rw [hsame]
    cases hfind : extents.find? (fun e => decide (e.Covers (offset + i))) with
    | some e =>
      obtain ⟨f, hf, ht, rfl⟩ := (readWalk_takes ho (Nat.le_add_right offset i)
        (Nat.add_lt_add_left hi offset) e).mpr hfind
      rw [htakes f hf ht, resolve, hfind]
      have hlo := (hfill f hf).2.1
      simp only [Fill.diskOff, ExtentValue.devicePos, Fill.Takes] at *
      congr 1
      omega
    | none =>
      rw [hnone, resolve, hfind]
      intro f hf ht
      have hsome := (readWalk_takes ho (Nat.le_add_right offset i)
        (Nat.add_lt_add_left hi offset) f.source).mp ⟨f, hf, ht, rfl⟩
      rw [hfind] at hsome
      cases hsome

/-! ## Where the device is read -/

/-- Where the read begins or passes to another extent, the buffer has what it takes of the extent
or the device takes the offset. -/
def ReadsAligned (d : Device) (extents : List Extent) (buffered : List BufferedRun)
    (offset stop : Nat) : Prop :=
  ∀ b, offset ≤ b → b < stop → ∀ e, extents.find? (fun x => decide (x.Covers b)) = some e →
    (b = offset ∨ extents.find? (fun x => decide (x.Covers (b - 1))) ≠ some e) →
      (bufferedReadAt buffered (e.devicePos b) (min e.endOff stop - b)).isSome = true ∨
        d.Takes (e.devicePos b)

theorem readWalk_fill (hlen : ∀ e ∈ extents, 0 < e.length) {stop pos : Nat} {f : Fill}
    (hf : f ∈ readWalk stop pos extents) :
    f.pos < stop ∧ 0 < f.n ∧ f.n = min f.source.endOff stop - f.pos := by
  induction extents generalizing pos with
  | nil => cases hf
  | cons e extents ih =>
    obtain ⟨he, hlen⟩ := forall_mem_cons.mp hlen
    rw [readWalk] at hf
    split at hf
    · cases hf
    · split at hf
      · exact ih hlen hf
      · rcases mem_cons.mp hf with rfl | hf
        · simp only [ExtentValue.endOff] at *
          split <;> omega
        · exact ih hlen hf

theorem readable_iff (ho : Ordered extents) (hlen : ∀ e ∈ extents, 0 < e.length) (d : Device)
    (buffered : List BufferedRun) (offset stop : Nat) :
    (∀ f ∈ readWalk stop offset extents, f.Readable d buffered) ↔
      ReadsAligned d extents buffered offset stop := by
  obtain ⟨hpair, hbounds⟩ := readWalk_order stop offset extents
  constructor
  · intro h b hlo hhi e hfind hstart
    obtain ⟨f, hf, htakes, rfl⟩ := (readWalk_takes ho hlo hhi e).mpr hfind
    obtain ⟨-, -, hn⟩ := readWalk_fill hlen hf
    have hpos : f.pos = b := by
      by_contra hne
      obtain ⟨hle, hlt⟩ := htakes
      have hoff := (hbounds f hf).1
      rcases hstart with rfl | hother
      · omega
      · refine hother ((readWalk_takes ho (by omega) (by omega) _).mp ⟨f, hf, ?_, rfl⟩)
        exact ⟨by omega, by omega⟩
    have hf := h f hf
    rwa [Fill.Readable, hn, hpos, show f.diskOff = f.source.devicePos b from hpos ▸ rfl] at hf
  · intro h f hf
    obtain ⟨hstop, hn0, hn⟩ := readWalk_fill hlen hf
    obtain ⟨hoff, -⟩ := hbounds f hf
    have hfind := (readWalk_takes ho hoff hstop f.source).mp ⟨f, hf, ⟨le_rfl, by omega⟩, rfl⟩
    have hread := h f.pos hoff hstop f.source hfind ?_
    · rwa [← hn] at hread
    · by_contra hno
      rw [not_or, not_not] at hno
      obtain ⟨hne, hprev⟩ := hno
      -- The piece before this one ends with its extent or with the request.
      obtain ⟨g, hg, hgtakes, hsource⟩ :=
        (readWalk_takes ho (by omega : offset ≤ f.pos - 1) (by omega : _ < stop) f.source).mpr hprev
      obtain ⟨-, -, hgn⟩ := readWalk_fill hlen hg
      obtain ⟨hlo, hhi⟩ := hgtakes
      rw [hsource] at hgn
      have hapart : g = f ∨ g.pos + g.n ≤ f.pos ∨ f.pos + f.n ≤ g.pos :=
        Pairwise.forall_of_forall_of_flip
          (R := fun x y : Fill => x = y ∨ x.pos + x.n ≤ y.pos ∨ y.pos + y.n ≤ x.pos)
          (fun x _ => .inl rfl) (hpair.imp fun h => .inr (.inl h))
          (hpair.imp fun h => .inr (.inr h)) hg hf
      rcases hapart with rfl | hapart
      · omega
      · omega

end EtcFS.Ipc
