import EtcFS.Core.Bytes
import EtcFS.Metadata.Keys
import EtcFS.Metadata.Words

/-!
# Stored records

The fields of a record are fixed-length and big-endian. The nanoseconds were appended later, and the
generation is not stored.
-/

namespace EtcFS.Metadata

open EtcFS.Core Core.Bytes List Option

structure Instant where
  sec : Int64
  nsec : UInt32
  nsec_lt : nsec.toNat < 10 ^ 9
  deriving DecidableEq

namespace Instant

theorem zero_nsec_lt : (0 : UInt32).toNat < 10 ^ 9 := by decide

theorem mod_nsec_lt (n : Nat) : (UInt32.ofNat (n % 10 ^ 9)).toNat < 10 ^ 9 := by
  rw [UInt32.toNat_ofNat']
  omega

def unix (sec : Int64) : Instant := ⟨sec, 0, zero_nsec_lt⟩

def add (t : Instant) (d : UInt32) : Instant where
  sec := t.sec + Int64.ofNat ((t.nsec.toNat + d.toNat) / 10 ^ 9)
  nsec := UInt32.ofNat ((t.nsec.toNat + d.toNat) % 10 ^ 9)
  nsec_lt := mod_nsec_lt _

def wholeSecond (t : Instant) : Instant := unix t.sec

theorem wholeSecond_add (t : Instant) : t.wholeSecond.add t.nsec = t := by
  obtain ⟨sec, nsec, hlt⟩ := t
  have hsum : (0 : UInt32).toNat + nsec.toNat = nsec.toNat := Nat.zero_add _
  simp only [wholeSecond, unix, add, hsum, Nat.div_eq_of_lt hlt, Nat.mod_eq_of_lt hlt,
    UInt32.ofNat_toNat, Instant.mk.injEq, and_true]
  exact Int64.add_zero sec

end Instant

structure InodeWords where
  ino : UInt64
  size : UInt64
  blocks : UInt64
  mode : UInt32
  nlink : UInt32
  uid : UInt32
  gid : UInt32
  rdev : UInt32
  blksize : UInt32
  generation : UInt64
  atime : Instant
  mtime : Instant
  ctime : Instant
  deriving DecidableEq

def putUint64 (v : UInt64) : List UInt8 := beBytes 8 v.toNat

def putUint32 (v : UInt32) : List UInt8 := beBytes 4 v.toNat

def uint64At (data : List UInt8) (pos : Nat) : UInt64 := UInt64.ofNat (beField data pos 8)

def uint32At (data : List UInt8) (pos : Nat) : UInt32 := UInt32.ofNat (beField data pos 4)

def inodeBytesV1 : Nat := 72

def inodeBytes : Nat := inodeBytesV1 + 12

namespace InodeWords

def encodeV1 (r : InodeWords) : List UInt8 :=
  putUint64 r.ino ++ (putUint64 r.size ++ (putUint64 r.blocks ++ (putUint32 r.mode ++
    (putUint32 r.nlink ++ (putUint32 r.uid ++ (putUint32 r.gid ++ (putUint32 r.rdev ++
      (putUint32 r.blksize ++ (putUint64 r.atime.sec.toUInt64 ++
        (putUint64 r.mtime.sec.toUInt64 ++ putUint64 r.ctime.sec.toUInt64))))))))))

def encode (r : InodeWords) : List UInt8 :=
  r.encodeV1 ++ (putUint32 r.atime.nsec ++ (putUint32 r.mtime.nsec ++ putUint32 r.ctime.nsec))

def decodeV1 (data : List UInt8) : InodeWords where
  ino := uint64At data 0
  size := uint64At data 8
  blocks := uint64At data 16
  mode := uint32At data 24
  nlink := uint32At data 28
  uid := uint32At data 32
  gid := uint32At data 36
  rdev := uint32At data 40
  blksize := uint32At data 44
  generation := 0
  atime := .unix (uint64At data 48).toInt64
  mtime := .unix (uint64At data 56).toInt64
  ctime := .unix (uint64At data 64).toInt64

def decode (data : List UInt8) : Option InodeWords :=
  if data.length < inodeBytesV1 then none
  else
    let r := decodeV1 data
    if inodeBytes ≤ data.length then
      some { r with
        atime := r.atime.add (uint32At data 72)
        mtime := r.mtime.add (uint32At data 76)
        ctime := r.ctime.add (uint32At data 80) }
    else some r

def wholeSeconds (r : InodeWords) : InodeWords :=
  { r with
    atime := r.atime.wholeSecond
    mtime := r.mtime.wholeSecond
    ctime := r.ctime.wholeSecond }

end InodeWords

structure StoredExtent extends ExtentWords where
  key : Text
  chunk : UInt64
  modRevision : Int64
  deriving DecidableEq

def ExtentWords.encode (e : ExtentWords) : Text :=
  decimal e.logOff.toNat ++ ',' :: (decimal e.diskOff.toNat ++ ',' :: (decimal e.length.toNat ++
    ',' :: (decimal e.gen.toNat ++ ',' :: (decimal e.seq.toNat ++ ',' :: e.node.toList))))

def decodeExtentText (key value : Text) : Option StoredExtent :=
  match splitN ',' 6 value with
  | [logOff, diskOff, length, gen, seq, node] => do
    let logOff ← parseUint logOff
    let diskOff ← parseUint diskOff
    let length ← parseUint length
    let gen ← parseUint gen
    let seq ← parseUint seq
    some { logOff, diskOff, length, gen, seq, node := String.ofList node, key
           chunk := ((parseExtentKey key).map Prod.snd).getD 0, modRevision := 0 }
  | _ => none

/-! ## Reading records back -/

section

variable (v : UInt64) (w : UInt32) (rest : List UInt8)

@[simp] theorem length_putUint64 : (putUint64 v).length = 8 := length_beBytes ..

@[simp] theorem length_putUint32 : (putUint32 w).length = 4 := length_beBytes ..

@[simp] theorem uint64At_putUint64 : uint64At (putUint64 v ++ rest) 0 = v := by
  rw [uint64At, putUint64, beField_self v.toNat_lt, UInt64.ofNat_toNat]

@[simp] theorem uint32At_putUint32 : uint32At (putUint32 w ++ rest) 0 = w := by
  rw [uint32At, putUint32, beField_self w.toNat_lt, UInt32.ofNat_toNat]

variable {pos : Nat}

theorem uint64At_skip64 (h : 8 ≤ pos) :
    uint64At (putUint64 v ++ rest) pos = uint64At rest (pos - 8) := by
  rw [uint64At, uint64At, putUint64, beField_skip h]

theorem uint64At_skip32 (h : 4 ≤ pos) :
    uint64At (putUint32 w ++ rest) pos = uint64At rest (pos - 4) := by
  rw [uint64At, uint64At, putUint32, beField_skip h]

theorem uint32At_skip64 (h : 8 ≤ pos) :
    uint32At (putUint64 v ++ rest) pos = uint32At rest (pos - 8) := by
  rw [uint32At, uint32At, putUint64, beField_skip h]

theorem uint32At_skip32 (h : 4 ≤ pos) :
    uint32At (putUint32 w ++ rest) pos = uint32At rest (pos - 4) := by
  rw [uint32At, uint32At, putUint32, beField_skip h]

end

namespace InodeWords

theorem length_encodeV1 (r : InodeWords) : r.encodeV1.length = inodeBytesV1 := by
  simp [encodeV1, inodeBytesV1]

theorem decodeV1_encodeV1 (r : InodeWords) (rest : List UInt8) :
    decodeV1 (r.encodeV1 ++ rest) = { r.wholeSeconds with generation := 0 } := by
  simp (disch := decide) only [decodeV1, encodeV1, append_assoc, uint64At_putUint64,
    uint32At_putUint32, uint64At_skip64, uint64At_skip32, uint32At_skip64, uint32At_skip32,
    Nat.reduceSub, Int64.toInt64_toUInt64, wholeSeconds, Instant.wholeSecond]

theorem length_encode (r : InodeWords) : r.encode.length = inodeBytes := by
  simp [encode, length_encodeV1, inodeBytes]

theorem uint32At_encodeV1 (r : InodeWords) (rest : List UInt8) (pos : Nat) :
    uint32At (r.encodeV1 ++ rest) (inodeBytesV1 + pos) = uint32At rest pos := by
  have hdrop : (r.encodeV1 ++ rest).drop inodeBytesV1 = rest := drop_left' r.length_encodeV1
  rw [uint32At, uint32At, beField, beField, ← drop_drop, hdrop]

theorem decode_encode (r : InodeWords) : decode r.encode = some { r with generation := 0 } := by
  have hlen := r.length_encode
  have ha : uint32At r.encode 72 = r.atime.nsec := by
    rw [encode]
    exact (uint32At_encodeV1 r _ 0).trans (uint32At_putUint32 _ _)
  have hm : uint32At r.encode 76 = r.mtime.nsec := by
    rw [encode]
    refine (uint32At_encodeV1 r _ 4).trans ?_
    rw [uint32At_skip32 _ _ le_rfl, Nat.sub_self, uint32At_putUint32]
  have hc : uint32At r.encode 80 = r.ctime.nsec := by
    rw [encode]
    refine (uint32At_encodeV1 r _ 8).trans ?_
    rw [uint32At_skip32 _ _ (by decide), uint32At_skip32 _ _ le_rfl, Nat.sub_self,
      ← append_nil (putUint32 r.ctime.nsec), uint32At_putUint32]
  have hfirst : decodeV1 r.encode = { r.wholeSeconds with generation := 0 } :=
    decodeV1_encodeV1 r _
  rw [decode, if_neg (by rw [hlen]; decide), if_pos hlen.ge, hfirst, ha, hm, hc]
  simp only [wholeSeconds, Instant.wholeSecond_add]

theorem decode_take (r : InodeWords) :
    decode (r.encode.take inodeBytesV1) = some { r.wholeSeconds with generation := 0 } := by
  have hlen := r.length_encodeV1
  have htake : r.encode.take inodeBytesV1 = r.encodeV1 := by rw [encode, take_left' hlen]
  have hfirst := decodeV1_encodeV1 r []
  rw [append_nil] at hfirst
  rw [htake, decode, if_neg (by rw [hlen]; decide), if_neg (by rw [hlen]; decide), hfirst]

end InodeWords

theorem decodeExtentText_encode (ino : UInt64) (e : StoredExtent) :
    decodeExtentText (extentKey ino.toNat e.chunk.toNat) e.encode =
      some { e with key := extentKey ino.toNat e.chunk.toNat, modRevision := 0 } := by
  have hcomma : ∀ n, ',' ∉ decimal n := not_mem_decimal (by decide)
  have hsplit : splitN ',' 6 e.encode = [decimal e.logOff.toNat, decimal e.diskOff.toNat,
      decimal e.length.toNat, decimal e.gen.toNat, decimal e.seq.toNat, e.node.toList] := by
    rw [ExtentWords.encode, splitN_append (hcomma _), splitN_append (hcomma _),
      splitN_append (hcomma _), splitN_append (hcomma _), splitN_append (hcomma _), splitN]
  simp only [decodeExtentText, hsplit, parseUint_decimal, parseExtentKey_extentKey,
    bind_eq_bind, bind_some, map_some, getD_some,
    String.ofList_toList]

end EtcFS.Metadata
