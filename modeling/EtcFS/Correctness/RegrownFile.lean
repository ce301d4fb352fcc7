import EtcFS.Ipc.Image
import EtcFS.Ipc.Sparse

/-!
# A file that shrinks and grows again

A shrink cuts the extents of the node that makes it, and the smaller size hides the others.
-/

namespace EtcFS.Correctness

open EtcFS.Core Metadata Ipc Option List

/-! ## Reading shortened extents -/

section

variable {n : Node} {ino size : Nat} {s t : Etcd}

def ShortenedTo (n : Node) (ino size : Nat) (s t : Etcd) : Prop :=
  ∀ c, valueAt t ino c = (valueAt s ino c).bind (shortened n size)

namespace ShortenedTo

theorem exists_source (h : ShortenedTo n ino size s t) {z : Extent}
    (hz : z ∈ getExtents t ino) : ∃ e ∈ getExtents s ino, e.chunk = z.chunk ∧
      shortened n size e.toExtentValue = some z.toExtentValue := by
  have hv := (h z.chunk).symm.trans (valueAt_of_mem hz)
  obtain ⟨v, hv, hs⟩ := bind_eq_some_iff.mp hv
  obtain ⟨e, he, hc, rfl⟩ := exists_of_valueAt hv
  exact ⟨e, he, hc, hs⟩

theorem exists_image (h : ShortenedTo n ino size s t) {e : Extent} (he : e ∈ getExtents s ino)
    {v : ExtentValue} (hs : shortened n size e.toExtentValue = some v) :
    ∃ z ∈ getExtents t ino, z.chunk = e.chunk ∧ z.toExtentValue = v := by
  apply exists_of_valueAt
  rw [h, valueAt_of_mem he, bind_some, hs]

theorem covered_iff (h : ShortenedTo n ino size s t) {b : Nat} :
    (∃ z ∈ getExtents t ino, z.Covers b) ↔
      ∃ e ∈ getExtents s ino, e.Covers b ∧ (b < size ∨ n.owns e.diskOff = false) := by
  constructor
  · rintro ⟨z, hz, hb⟩
    obtain ⟨e, he, -, hs⟩ := h.exists_source hz
    exact ⟨e, he, (shortened_covers hs).mp hb⟩
  · rintro ⟨e, he, hb, hwhy⟩
    obtain ⟨v, hs⟩ := shortened_isSome hb hwhy
    obtain ⟨z, hz, -, rfl⟩ := h.exists_image he hs
    exact ⟨z, hz, (shortened_covers hs).mpr ⟨hb, hwhy⟩⟩

theorem resolve_below (h : ShortenedTo n ino size s t) (dev : Bytes) {b : Nat} (hlt : b < size) :
    resolve dev (getExtents t ino) b = resolve dev (getExtents s ino) b := by
  cases hfind : (getExtents s ino).find? fun x => decide (x.Covers b) with
  | none =>
    have hnone : ∀ e ∈ getExtents s ino, ¬ e.Covers b := by
      simpa using find?_eq_none.mp hfind
    rw [resolve_eq_zero hnone, resolve_eq_zero]
    intro z hz hb
    obtain ⟨e, he, hb, -⟩ := h.covered_iff.mp ⟨z, hz, hb⟩
    exact hnone e he hb
  | some e =>
    obtain ⟨he, hb, hleast⟩ := (find?_eq_some_iff_least (getExtents_ordered s ino)).mp hfind
    rw [decide_eq_true_eq] at hb
    obtain ⟨v, hs⟩ : ∃ v, shortened n size e.toExtentValue = some v :=
      shortened_isSome hb (.inl hlt)
    obtain ⟨z, hz, hc, rfl⟩ := h.exists_image he hs
    obtain ⟨hlog, hdisk, hseq, -⟩ := shortened_place hs
    have hzb : z.Covers b := (shortened_covers hs).mpr ⟨hb, .inl hlt⟩
    have hfirst : (getExtents t ino).find? (fun x => decide (x.Covers b)) = some z := by
      refine (find?_eq_some_iff_least (getExtents_ordered t ino)).mpr
        ⟨hz, by simpa using hzb, fun y hy hyb => ?_⟩
      rw [decide_eq_true_eq] at hyb
      obtain ⟨f, hf, hfc, hfs⟩ := h.exists_source hy
      obtain ⟨hflog, -, hfseq, -⟩ := shortened_place hfs
      rcases hleast f hf (by simpa using ((shortened_covers hfs).mp hyb).1) with rfl | hbefore
      · exact .inl ((getExtents_distinct t ino).eq_of_mem hy hz (hfc.symm.trans hc.symm))
      · right
        rw [Extent.before_iff] at hbefore ⊢
        omega
    rw [resolve_eq hfind, resolve_eq hfirst, ExtentValue.devicePos, ExtentValue.devicePos, hlog,
      hdisk]

theorem inAddressSpace (h : ShortenedTo n ino size s t) (hin : InAddressSpace s ino) :
    InAddressSpace t ino := by
  intro z hz
  obtain ⟨e, he, -, hs⟩ := h.exists_source hz
  obtain ⟨hlog, -, -, hend⟩ := shortened_place hs
  obtain ⟨h1, h2⟩ := hin e he
  exact ⟨hlog ▸ h1, hend.trans h2⟩

end ShortenedTo

end

/-! ## Growing -/

def Grows (ino : Nat) (s : Etcd) (_ : Node × SizeCall) (t : Etcd) : Prop :=
  ∀ rec ∈ getInode s ino, ∀ rec' ∈ getInode t ino, rec.size ≤ rec'.size
  deriving Decidable

theorem exec_grows {ino : Nat} {run : List (Node × SizeCall)} {t u : Etcd}
    (hin : InAddressSpace t ino) (hrun : (sizeCalls ino).exec t run = some u)
    (hup : (sizeCalls ino).Along (Grows ino) t run) {rec : InodeRecord}
    (hrec : getInode t ino = some rec) : getExtents u ino = getExtents t ino ∧
      ∃ rec', getInode u ino = some rec' ∧ rec.size ≤ rec'.size := by
  induction run generalizing t rec with
  | nil =>
    cases hrun
    exact ⟨rfl, rec, hrec, le_rfl⟩
  | cons a run ih =>
    obtain ⟨v, hv, hrun⟩ := ((sizeCalls ino).exec_cons).mp hrun
    obtain ⟨hgrow, hup⟩ := hup v hv
    have hstep : Resizes a.1 ino t v := resizes_of_step hin hv
    obtain ⟨rec₀, rec', hrec₀, hrec', hcase⟩ := hstep
    obtain rfl : rec = rec₀ := some.inj (hrec.symm.trans hrec₀)
    have hle := hgrow rec hrec rec' hrec'
    rcases hcase with ⟨hlt, -⟩ | ⟨-, hsame⟩
    · omega
    · have hin' : InAddressSpace v ino := by
        intro e he
        exact hin e (hsame ▸ he)
      obtain ⟨hext, rec'', hrec'', hle'⟩ := ih hin' hrun hup hrec'
      exact ⟨hext.trans hsame, rec'', hrec'', hle.trans hle'⟩

/-- A file that a node shrinks and that any nodes grow again shows the image cut at
the smaller size and filled up with zeros, on every device, exactly when the
shrinking node owns every extent with a byte between the two sizes. -/
theorem regrown_shows_iff {ino : Nat} {n : Node} {call : SizeCall}
    {run : List (Node × SizeCall)} {s t u : Etcd} {rec small grown : InodeRecord}
    (hin : InAddressSpace s ino) (hrec : getInode s ino = some rec)
    (hshrink : (sizeCalls ino).step s (n, call) = some t) (hsmall : getInode t ino = some small)
    (hlt : small.size < rec.size) (hrun : (sizeCalls ino).exec t run = some u)
    (hup : (sizeCalls ino).Along (Grows ino) t run) (hgrown : getInode u ino = some grown) :
    (∀ dev img, Shows s ino dev img →
        Shows u ino dev ((img.resize small.size).resize grown.size)) ↔
      ∀ e ∈ getExtents s ino, ∀ b, small.size ≤ b → b < grown.size → e.Covers b →
        n.owns e.diskOff = true := by
  obtain ⟨rec₀, small₀, hrec₀, hsmall₀, hcase⟩ := resizes_of_step hin hshrink
  obtain rfl : rec = rec₀ := some.inj (hrec.symm.trans hrec₀)
  obtain rfl : small = small₀ := some.inj (hsmall.symm.trans hsmall₀)
  have hcut : ShortenedTo n ino small.size s t := by
    rcases hcase with ⟨-, hcut⟩ | ⟨hle, -⟩
    · exact hcut
    · omega
  obtain ⟨hext, grown₀, hgrown₀, hle⟩ := exec_grows (hcut.inAddressSpace hin) hrun hup hsmall
  obtain rfl : grown = grown₀ := some.inj (hgrown.symm.trans hgrown₀)
  constructor
  · intro hshows e he b hlo hhi hb
    -- On a device of ones the byte is zero only if nothing covers it.
    obtain ⟨-, -, -, hbytes⟩ := shows_iff.mp (hshows (fun _ => 1) _ (shows_resolvedImage hrec _))
    have hzero := hbytes b hhi
    rw [FileImage.resize_resize_bytes _ (by exact hlt.le) hle, if_neg (Nat.not_lt.mpr hlo), hext]
      at hzero
    by_contra howns
    obtain ⟨z, hz, hzb⟩ := hcut.covered_iff.mpr ⟨e, he, hb, .inr (by simpa using howns)⟩
    exact resolve_ones_eq_zero_iff.mp hzero z hz hzb
  · intro howned dev img hshows
    obtain ⟨rec₁, hrec₁, hsize, hbytes⟩ := shows_iff.mp hshows
    obtain rfl : rec = rec₁ := some.inj (hrec.symm.trans hrec₁)
    refine shows_iff.mpr ⟨grown, hgrown, rfl, fun b hb => ?_⟩
    rw [FileImage.resize_resize_bytes _ (hsize ▸ hlt.le) hle, hext]
    split
    · rename_i hbelow
      rw [hcut.resolve_below dev hbelow]
      exact hbytes b (by omega)
    · rename_i habove
      refine resolve_eq_zero fun z hz hzb => ?_
      obtain ⟨e, he, heb, hwhy⟩ := hcut.covered_iff.mp ⟨z, hz, hzb⟩
      have howns := howned e he b (Nat.le_of_not_lt habove) hb heb
      exact absurd (hwhy.resolve_left habove) (by simp [howns])

/-! ## Two shrinks -/

def sharedBlocks : Etcd := (freshFile 7).commit
  [.put (.inode 7) { regularFile 7 with size := 8192 },
    .put (.extent 7 0) ⟨0, 8192, 4096, 0, 0, "b"⟩,
    .put (.extent 7 1) ⟨4096, 0, 4096, 0, 1, "a"⟩]

theorem sharedBlocks_extents : getExtents sharedBlocks 7 =
    [⟨⟨0, 8192, 4096, 0, 0, "b"⟩, 0, 2⟩, ⟨⟨4096, 0, 4096, 0, 1, "a"⟩, 1, 2⟩] := by
  decide +kernel

def ownsFront : Node := ⟨"a", 0, fun diskOff => decide (diskOff < 8192)⟩

def ownsNone : Node := ⟨"c", 0, fun _ => false⟩

def setSize (size : Nat) : SizeCall := .setattr fattrSize ⟨size, 0, 0, 0, 0, 0, 0⟩ 0 none

def regrowth : List (Node × SizeCall) :=
  [(ownsNone, .fallocate 0 8192 0), (ownsNone, setSize 12288)]

/-- The owner of the second block gives it up, and another node grows the file past it. -/
theorem secondBlock_regrown :
    ∃ t u, (sizeCalls 7).step sharedBlocks (ownsFront, setSize 4096) = some t ∧
      (sizeCalls 7).exec t regrowth = some u ∧
      ∀ dev img, Shows sharedBlocks 7 dev img →
        Shows u 7 dev ((img.resize 4096).resize 12288) := by
  have hwhole : ((sizeCalls 7).step sharedBlocks (ownsFront, setSize 4096)).any (fun t =>
      decide ((getInode t 7).map InodeRecord.size = some 4096) &&
        decide ((sizeCalls 7).Along (Grows 7) t regrowth) &&
        ((sizeCalls 7).exec t regrowth).any fun u =>
          decide ((getInode u 7).map InodeRecord.size = some 12288)) = true := by
    decide +kernel
  obtain ⟨t, ht, hwhole⟩ := (Option.any_eq_true ..).mp hwhole
  simp only [Bool.and_eq_true, decide_eq_true_eq] at hwhole
  obtain ⟨⟨hsmall, hup⟩, hwhole⟩ := hwhole
  obtain ⟨u, hu, hgrown⟩ := (Option.any_eq_true ..).mp hwhole
  rw [decide_eq_true_eq] at hgrown
  obtain ⟨small, hsmall, hsize⟩ := map_eq_some_iff.mp hsmall
  obtain ⟨grown, hgrown, hsize'⟩ := map_eq_some_iff.mp hgrown
  refine ⟨t, u, ht, hu, ?_⟩
  rw [← hsize, ← hsize']
  have hrec : getInode sharedBlocks 7 = some { regularFile 7 with size := 8192 } := by
    decide +kernel
  refine (regrown_shows_iff ?_ hrec ht hsmall (by rw [hsize]; decide) hu hup hgrown).mpr ?_
  · rw [InAddressSpace, sharedBlocks_extents]
    decide
  · rw [sharedBlocks_extents]
    intro e he b hlo _ hb
    simp only [List.mem_cons, List.not_mem_nil, or_false] at he
    rcases he with rfl | rfl
    · have hlt := hb.2
      simp only [ExtentValue.endOff] at hlt
      omega
    · rfl

/-- A node that owns nothing shrinks a file of three bytes to none, and an allocation
grows it again: the bytes are back. -/
theorem foreignBytes_return :
    ((sizeCalls 7).exec threeBytes [(ownsNone, setSize 0), (ownsNone, .fallocate 0 3 0)]).bind
      (fun u => (getInode u 7).map fun rec =>
        handleRead rec (getExtents u 7) [] threeOnDevice 0 3) = some [1, 2, 3] := by
  decide +kernel

end EtcFS.Correctness
