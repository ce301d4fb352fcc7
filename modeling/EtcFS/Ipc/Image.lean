import EtcFS.Ipc.Read

/-!
# The file a reader sees

A file is a size and a byte at every offset below it. A hole that is punched and a new size are
operations on that image.
-/

namespace EtcFS.Ipc

open EtcFS.Core Metadata List

structure FileImage where
  size : Nat
  bytes : Bytes

namespace FileImage

def read (img : FileImage) (offset size : Nat) : List Byte :=
  (List.range (min size (img.size - offset))).map fun i => img.bytes (offset + i)

def punch (img : FileImage) (start stop : Nat) : FileImage where
  size := img.size
  bytes := fun b => if start ≤ b ∧ b < stop then 0 else img.bytes b

def resize (img : FileImage) (size : Nat) : FileImage where
  size := size
  bytes := fun b => if b < min img.size size then img.bytes b else 0

theorem read_congr {img img' : FileImage} (hsize : img.size = img'.size)
    (hbytes : ∀ b < img.size, img.bytes b = img'.bytes b) (offset size : Nat) :
    img.read offset size = img'.read offset size := by
  unfold read
  rw [← hsize]
  refine map_congr_left ?_
  intro i hi
  rw [mem_range] at hi
  exact hbytes _ (by omega)

theorem read_one {img : FileImage} {b : Nat} (hb : b < img.size) :
    img.read b 1 = [img.bytes b] := by
  have hone : min 1 (img.size - b) = 1 := by omega
  rw [read, hone]
  rfl

theorem resize_resize_bytes (img : FileImage) {small grown : Nat} (hsmall : small ≤ img.size)
    (hgrown : small ≤ grown) (b : Nat) :
    ((img.resize small).resize grown).bytes b = if b < small then img.bytes b else 0 := by
  simp only [resize, Nat.min_eq_left hgrown, Nat.min_eq_right hsmall]
  split <;> rfl

end FileImage

def resolvedImage (rec : InodeRecord) (extents : List Extent) (dev : Bytes) : FileImage :=
  ⟨rec.size, resolve dev extents⟩

def Shows (s : Etcd) (ino : Nat) (dev : Bytes) (img : FileImage) : Prop :=
  ∃ rec, getInode s ino = some rec ∧ rec.size = img.size ∧ ∀ offset size,
    handleRead rec (getExtents s ino) [] dev offset size = img.read offset size

theorem handleRead_unbuffered {rec : InodeRecord} {extents : List Extent} (ho : Ordered extents)
    (dev : Bytes) (offset size : Nat) :
    handleRead rec extents [] dev offset size = (resolvedImage rec extents dev).read offset size :=
  handleRead_eq ho (fun _ _ _ _ _ _ => rfl) offset size

section

variable {s : Etcd} {ino : Nat} {dev : Bytes} {img : FileImage}

theorem shows_iff : Shows s ino dev img ↔ ∃ rec, getInode s ino = some rec ∧
    rec.size = img.size ∧ ∀ b < img.size, resolve dev (getExtents s ino) b = img.bytes b := by
  constructor
  · rintro ⟨rec, hrec, hsize, hread⟩
    refine ⟨rec, hrec, hsize, fun b hb => ?_⟩
    have hone := hread b 1
    rw [handleRead_unbuffered (getExtents_ordered s ino), FileImage.read_one hb,
      FileImage.read_one (lt_of_lt_of_eq hb hsize.symm)] at hone
    exact head_eq_of_cons_eq hone
  · rintro ⟨rec, hrec, hsize, hbytes⟩
    refine ⟨rec, hrec, hsize, fun offset size => ?_⟩
    rw [handleRead_unbuffered (getExtents_ordered s ino)]
    exact FileImage.read_congr hsize (fun b hb => hbytes b (hsize ▸ hb)) offset size

theorem shows_resolvedImage {rec : InodeRecord} (hrec : getInode s ino = some rec)
    (dev : Bytes) : Shows s ino dev (resolvedImage rec (getExtents s ino) dev) :=
  shows_iff.mpr ⟨rec, hrec, rfl, fun _ _ => rfl⟩

end

/-! ## Resolving one byte -/

section

variable {content : Bytes} {extents : List Extent} {b : Nat}

theorem resolve_eq {e : Extent} (hfind : extents.find? (fun x => decide (x.Covers b)) = some e) :
    resolve content extents b = content (e.devicePos b) := by
  rw [resolve, hfind]

theorem resolve_eq_zero (h : ∀ e ∈ extents, ¬ e.Covers b) : resolve content extents b = 0 := by
  have hnone : extents.find? (fun x => decide (x.Covers b)) = none :=
    find?_eq_none.mpr (by simpa using h)
  rw [resolve, hnone]

theorem exists_find_of_covers {e : Extent} (he : e ∈ extents) (hb : e.Covers b) :
    ∃ x, extents.find? (fun x => decide (x.Covers b)) = some x :=
  Option.isSome_iff_exists.mp (find?_isSome.mpr ⟨e, he, by simpa using hb⟩)

theorem resolve_ones_eq_zero_iff :
    resolve (fun _ => 1) extents b = 0 ↔ ∀ e ∈ extents, ¬ e.Covers b := by
  refine ⟨fun h e he hb => ?_, resolve_eq_zero⟩
  obtain ⟨x, hx⟩ := exists_find_of_covers he hb
  rw [resolve_eq hx] at h
  exact absurd h (by decide)

end

/-! ## A small file -/

def ownsAll : Node := ⟨"a", 0, fun _ => true⟩

def threeBytes : Etcd := (freshFile 7).commit
  [.put (.inode 7) { regularFile 7 with size := 3 }, .put (.extent 7 0) ⟨0, 0, 3, 0, 0, "a"⟩]

def threeOnDevice : Bytes := fun p => [1, 2, 3].getD p 0

end EtcFS.Ipc
