import EtcFS.Core.Contents
import EtcFS.Metadata.Split

/-!
# The etcd schema of an inode

The keys of an inode's record, its extents and its locks, which the textual keys of the source name
one to one.
-/

namespace EtcFS.Metadata

open EtcFS.Core Option List

abbrev Time := Int

structure InodeRecord where
  ino : Nat
  size : Nat
  blocks : Nat
  mode : UInt32
  nlink : UInt32
  uid : UInt32
  gid : UInt32
  rdev : UInt32
  blksize : UInt32
  atime : Time
  mtime : Time
  ctime : Time
  deriving DecidableEq, Repr

def sISUID : UInt32 := 0o4000

def sISGID : UInt32 := 0o2000

def sIXGRP : UInt32 := 0o10

def clearSetIDOnWrite (mode uid : UInt32) : UInt32 :=
  if uid = 0 then mode
  else
    let mode := mode &&& ~~~ sISUID
    if mode &&& sIXGRP ≠ 0 then mode &&& ~~~ sISGID else mode

inductive LockMode where
  | shared
  | exclusive
  deriving DecidableEq, Repr

structure Holder where
  lease : Nat
  seq : Nat
  deriving DecidableEq, Repr

inductive Key where
  | inode (ino : Nat)
  | extent (ino chunk : Nat)
  | lock (ino : Nat) (mode : LockMode) (holder : Holder)
  | gen (node : NodeID)
  deriving DecidableEq, Repr

/-- The keys that hold an inode's metadata. -/
def ofInode (ino : Nat) : Key → Bool
  | .inode i | .extent i _ => i == ino
  | .lock _ _ _ | .gen _ => false

theorem eq_of_ofInode {i j : Nat} {k : Key} (hi : ofInode i k = true) (hj : ofInode j k = true) :
    j = i := by
  cases k with
  | inode x | extent x _ => exact (beq_iff_eq.mp hj).symm.trans (beq_iff_eq.mp hi)
  | lock | gen => cases hi

@[reducible] def Val : Key → Type
  | .inode _ => InodeRecord
  | .extent _ _ => ExtentValue
  | .lock _ _ _ => NodeID
  | .gen _ => Nat

instance : ∀ k, DecidableEq (Val k)
  | .inode _ => inferInstanceAs (DecidableEq InodeRecord)
  | .extent _ _ => inferInstanceAs (DecidableEq ExtentValue)
  | .lock _ _ _ => inferInstanceAs (DecidableEq NodeID)
  | .gen _ => inferInstanceAs (DecidableEq Nat)

abbrev Etcd := Store Val

def regularFile (ino : Nat) : InodeRecord where
  ino := ino
  size := 0
  blocks := 0
  mode := 0o100644
  nlink := 1
  uid := 0
  gid := 0
  rdev := 0
  blksize := 4096
  atime := 0
  mtime := 0
  ctime := 0

def freshFile (ino : Nat) : Etcd := Store.empty.commit [.put (.inode ino) (regularFile ino)]

def decodeExtent (ino : Nat) : (k : Key) → Versioned (Val k) → Option Extent
  | .extent i chunk, v =>
    if i = ino then some ⟨v.value, chunk, v.modRevision⟩ else none
  | .inode _, _ | .lock _ _ _, _ | .gen _, _ => none

def getExtents (s : Etcd) (ino : Nat) : List Extent := sortExtents (s.list (decodeExtent ino))

def extentsOf (s : Etcd) (ino : Nat) : List ExtentValue :=
  (getExtents s ino).map Extent.toExtentValue

def getInode (s : Etcd) (ino : Nat) : Option InodeRecord := (s.get (.inode ino)).map Versioned.value

theorem decodeExtent_eq_some {ino : Nat} {k : Key} {v : Versioned (Val k)} {e : Extent} :
    decodeExtent ino k v = some e ↔
      ∃ h : k = .extent ino e.chunk, h ▸ v = ⟨e.toExtentValue, e.modRevision⟩ := by
  cases k with
  | extent i c =>
    simp only [decodeExtent, ite_none_right_eq_some, some.injEq]
    constructor
    · rintro ⟨rfl, rfl⟩
      exact ⟨rfl, rfl⟩
    · rintro ⟨h, hv⟩
      cases h
      simp only at hv
      subst hv
      exact ⟨rfl, rfl⟩
  | inode | lock | gen => simp [decodeExtent]

theorem mem_getExtents {s : Etcd} {ino : Nat} {e : Extent} : e ∈ getExtents s ino ↔
    s.get (.extent ino e.chunk) = some ⟨e.toExtentValue, e.modRevision⟩ := by
  rw [getExtents, mem_sortExtents, Store.mem_list]
  constructor
  · rintro ⟨k, v, hg, hd⟩
    obtain ⟨rfl, hv⟩ := decodeExtent_eq_some.mp hd
    simp only at hv
    rw [hg, hv]
  · intro h
    exact ⟨_, _, h, decodeExtent_eq_some.mpr ⟨rfl, rfl⟩⟩

theorem getExtents_distinct (s : Etcd) (ino : Nat) : DistinctChunks (getExtents s ino) := by
  refine DistinctChunks.perm ?_ (sortExtents_perm _).symm
  refine s.list_map_nodup ?_
  intro k v k' v' x x' hx hx' hc
  obtain ⟨rfl, _⟩ := decodeExtent_eq_some.mp hx
  obtain ⟨rfl, _⟩ := decodeExtent_eq_some.mp hx'
  rw [hc]

theorem getExtents_ordered (s : Etcd) (ino : Nat) : Ordered (getExtents s ino) :=
  sortExtents_ordered ((getExtents_distinct s ino).perm (sortExtents_perm _))

theorem getExtents_congr {s t : Etcd} {ino : Nat}
    (h : ∀ chunk, s.get (.extent ino chunk) = t.get (.extent ino chunk)) :
    getExtents s ino = getExtents t ino := by
  refine (getExtents_ordered s ino).eq_of_mem_iff (getExtents_ordered t ino) fun e => ?_
  rw [mem_getExtents, mem_getExtents, h]

def extentValue (ino : Nat) : (k : Key) → Val k → Option ExtentValue
  | .extent i _, v => if i = ino then some v else none
  | .inode _, _ | .lock _ _ _, _ | .gen _, _ => none

theorem contribution_extent (ino chunk : Nat) (v : ExtentValue) :
    contribution (extentValue ino) (.extent ino chunk) (some v) = {v} := by
  simp [contribution, extentValue]

@[simp] theorem leaves_put_extent (ino chunk : Nat) (v : ExtentValue) :
    (Op.put (.extent ino chunk) v : Op Val).leaves (extentValue ino) = {v} :=
  contribution_extent ino chunk v

structure Describes (ino : Nat) (extents : List Extent) (s : Etcd) : Prop where
  distinct : DistinctChunks extents
  get_iff : ∀ chunk v, (s.get (.extent ino chunk)).map Versioned.value = some v ↔
    ∃ e ∈ extents, e.chunk = chunk ∧ e.toExtentValue = v

theorem getExtents_describes (s : Etcd) (ino : Nat) : Describes ino (getExtents s ino) s where
  distinct := getExtents_distinct s ino
  get_iff := by
    intro chunk v
    rw [map_eq_some_iff]
    constructor
    · rintro ⟨⟨v, r⟩, hg, rfl⟩
      exact ⟨⟨v, chunk, r⟩, mem_getExtents.mpr hg, rfl, rfl⟩
    · rintro ⟨e, he, rfl, rfl⟩
      exact ⟨_, mem_getExtents.mp he, rfl⟩

theorem list_extentValue (s : Etcd) (ino : Nat) : s.list (fun k v => extentValue ino k v.value) =
      (s.list (decodeExtent ino)).map Extent.toExtentValue := by
  simp only [Store.list, map_filterMap]
  refine filterMap_congr ?_
  rintro ⟨k, v⟩ -
  cases k with
  | extent i c =>
    simp only [extentValue, decodeExtent]
    split <;> rfl
  | inode | lock | gen => rfl

theorem contents_eq_getExtents (s : Etcd) (ino : Nat) :
    s.contents (extentValue ino) = ↑((getExtents s ino).map Extent.toExtentValue) := by
  rw [Store.contents, list_extentValue, Multiset.coe_eq_coe]
  exact ((sortExtents_perm _).map _).symm

namespace Describes

variable {ino : Nat} {extents : List Extent} {s : Etcd}

theorem get_of_mem (h : Describes ino extents s) {e : Extent} (he : e ∈ extents) :
    (s.get (.extent ino e.chunk)).map Versioned.value = some e.toExtentValue :=
  (h.get_iff _ _).mpr ⟨e, he, rfl, rfl⟩

theorem get_eq_none (h : Describes ino extents s) {chunk : Nat}
    (hc : ∀ e ∈ extents, e.chunk ≠ chunk) : s.get (.extent ino chunk) = none := by
  rw [← map_eq_none_iff, eq_none_iff_forall_ne_some]
  intro v hv
  obtain ⟨e, he, hec, -⟩ := (h.get_iff _ _).mp hv
  exact hc e he hec

theorem perm (h : Describes ino extents s) {extents' : List Extent}
    (h' : Describes ino extents' s) :
    (extents.map Extent.toExtentValue).Perm (extents'.map Extent.toExtentValue) := by
  have hmap : ∀ {xs : List Extent}, DistinctChunks xs →
      (xs.map fun e => (e.chunk, e.toExtentValue)).Nodup := by
    intro xs hd
    refine List.Nodup.of_map Prod.fst ?_
    rwa [List.map_map]
  have hpairs : (extents.map fun e => (e.chunk, e.toExtentValue)).Perm
      (extents'.map fun e => (e.chunk, e.toExtentValue)) := by
    refine (List.perm_ext_iff_of_nodup (hmap h.distinct) (hmap h'.distinct)).mpr ?_
    rintro ⟨c, v⟩
    have hiff := (h.get_iff c v).symm.trans (h'.get_iff c v)
    simpa only [List.mem_map, Prod.mk.injEq] using hiff
  have hsnd := hpairs.map Prod.snd
  rwa [List.map_map, List.map_map] at hsnd

theorem contents_eq (h : Describes ino extents s) :
    s.contents (extentValue ino) = ↑(extents.map Extent.toExtentValue) := by
  rw [contents_eq_getExtents, Multiset.coe_eq_coe]
  exact (getExtents_describes s ino).perm h

theorem held_of_mem (h : Describes ino extents s) {e : Extent} (he : e ∈ extents) :
    s.held (extentValue ino) (.extent ino e.chunk) = {e.toExtentValue} := by
  rw [Store.held, h.get_of_mem he, contribution_extent]

theorem held_eq_zero (h : Describes ino extents s) {chunk : Nat}
    (hc : ∀ e ∈ extents, e.chunk ≠ chunk) :
    s.held (extentValue ino) (.extent ino chunk) = 0 := by
  simp [Store.held, h.get_eq_none hc, contribution]

end Describes

end EtcFS.Metadata
