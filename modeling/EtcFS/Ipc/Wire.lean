import Mathlib.Data.UInt
import Mathlib.Tactic.SplitIfs

/-!
# Replies on the wire

The mount reads a reply with a cursor that remembers whether it ran out. A reader here fails if it
looks at a byte that is not in the reply.
-/

namespace EtcFS.Ipc

/-! ## The writers of the daemon -/

def w32 (v : UInt32) : List UInt8 :=
  [(v >>> 24).toUInt8, (v >>> 16).toUInt8, (v >>> 8).toUInt8, v.toUInt8]

def w64 (v : UInt64) : List UInt8 :=
  [(v >>> 56).toUInt8, (v >>> 48).toUInt8, (v >>> 40).toUInt8, (v >>> 32).toUInt8,
    (v >>> 24).toUInt8, (v >>> 16).toUInt8, (v >>> 8).toUInt8, v.toUInt8]

/-! ## The cursor of the mount -/

structure Rbuf where
  p : List UInt8
  len : UInt32
  off : UInt32
  ok : Bool

def rbNew (p : List UInt8) : Rbuf := ⟨p, UInt32.ofNat p.length, 0, true⟩

abbrev Reader := StateT Rbuf Option

theorem reader_pure {α : Type} (a : α) (b : Rbuf) : (pure a : Reader α) b = some (a, b) := rfl

def rbTake (n : UInt32) : Reader Bool := fun r =>
  if r.ok = false ∨ n > r.len - r.off then some (false, { r with ok := false }) else some (true, r)

/-- The byte at a distance from the cursor, which must be in the reply. -/
def rbByte (i : Nat) : Reader UInt8 := fun r => (r.p[r.off.toNat + i]?).map fun b => (b, r)

def rbAdvance (n : UInt32) : Reader Unit := fun r => some ((), { r with off := r.off + n })

def rbU64 : Reader UInt64 := do
  if ← rbTake 8 then
    let b0 ← rbByte 0
    let b1 ← rbByte 1
    let b2 ← rbByte 2
    let b3 ← rbByte 3
    let b4 ← rbByte 4
    let b5 ← rbByte 5
    let b6 ← rbByte 6
    let b7 ← rbByte 7
    rbAdvance 8
    return b0.toUInt64 <<< 56 ||| b1.toUInt64 <<< 48 ||| b2.toUInt64 <<< 40 |||
      b3.toUInt64 <<< 32 ||| b4.toUInt64 <<< 24 ||| b5.toUInt64 <<< 16 ||| b6.toUInt64 <<< 8 |||
      b7.toUInt64
  else return 0

def rbU32 : Reader UInt32 := do
  if ← rbTake 4 then
    let b0 ← rbByte 0
    let b1 ← rbByte 1
    let b2 ← rbByte 2
    let b3 ← rbByte 3
    rbAdvance 4
    return b0.toUInt32 <<< 24 ||| b1.toUInt32 <<< 16 ||| b2.toUInt32 <<< 8 ||| b3.toUInt32
  else return 0

/-- The position of the bytes, unless there are too few. -/
def rbBytes (n : UInt32) : Reader (Option Nat) := do
  if ← rbTake n then
    let r ← get
    rbAdvance n
    return some r.off.toNat
  else return none

/-- What a C function takes a pointer into the reply for: the bytes before the first zero,
which must be in the reply. -/
def cString (p : List UInt8) : Option (List UInt8) :=
  match p with
  | [] => none
  | b :: p => if b = 0 then some [] else (cString p).map (b :: ·)

/-! ## What is read back -/

structure Unread (r : Rbuf) (bs : List UInt8) : Prop where
  ok : r.ok = true
  len : r.len.toNat = r.p.length
  off : r.off.toNat ≤ r.p.length
  rest : r.p.drop r.off.toNat = bs

theorem unread_rbNew {p : List UInt8} (h : p.length < 2 ^ 32) : Unread (rbNew p) p where
  ok := rfl
  len := by
    rw [rbNew, UInt32.toNat_ofNat']
    exact Nat.mod_eq_of_lt h
  off := Nat.zero_le _
  rest := rfl

namespace Unread

variable {r : Rbuf} {bs post : List UInt8}

theorem length (h : Unread r bs) : r.off.toNat + bs.length = r.p.length := by
  have hlen := congrArg List.length h.rest
  rw [List.length_drop] at hlen
  have hoff := h.off
  omega

theorem take (h : Unread r (bs ++ post)) {n : UInt32} (hn : n.toNat = bs.length) :
    rbTake n r = some (true, r) := by
  have hle : r.off ≤ r.len := by
    rw [UInt32.le_iff_toNat_le, h.len]
    exact h.off
  have hlen := h.length
  rw [List.length_append] at hlen
  have hfits : ¬ n > r.len - r.off := by
    rw [gt_iff_lt, UInt32.lt_iff_toNat_lt, UInt32.toNat_sub_of_le _ _ hle, h.len]
    omega
  rw [rbTake, if_neg]
  simpa [h.ok] using hfits

theorem byte (h : Unread r bs) {i : Nat} {b : UInt8} (hb : bs[i]? = some b) :
    rbByte i r = some (b, r) := by
  rw [rbByte, ← List.getElem?_drop, h.rest, hb, Option.map_some]

theorem advance (h : Unread r (bs ++ post)) {n : UInt32} (hn : n.toNat = bs.length) :
    rbAdvance n r = some ((), { r with off := r.off + n }) ∧
      Unread { r with off := r.off + n } post := by
  have hlen := h.length
  rw [List.length_append] at hlen
  have hoff : (r.off + n).toNat = r.off.toNat + bs.length := by
    have hbound := r.len.toNat_lt
    rw [h.len] at hbound
    rw [UInt32.toNat_add, hn, Nat.mod_eq_of_lt (by omega)]
  have hle : (r.off + n).toNat ≤ r.p.length := by omega
  refine ⟨rfl, h.ok, h.len, hle, ?_⟩
  rw [hoff, ← List.drop_drop, h.rest, List.drop_left]

end Unread

/-- From the bytes on, a reader takes just these, whatever comes after them. -/
def Reads {α : Type} (f : Reader α) (bs : List UInt8) (v : α) : Prop :=
  ∀ r post, Unread r (bs ++ post) → ∃ r', f r = some (v, r') ∧ Unread r' post ∧ r'.p = r.p

namespace Reads

variable {α β : Type}

theorem pure (v : α) : Reads (Pure.pure v) [] v := fun r _ h => ⟨r, rfl, h, rfl⟩

theorem bind {f : Reader α} {g : α → Reader β} {bs : List UInt8} {bss : List (List UInt8)} {v : α}
    {w : β} (hf : Reads f bs v) (hg : Reads (g v) bss.flatten w) :
    Reads (f >>= g) (bs :: bss).flatten w := by
  intro r post h
  rw [List.flatten_cons, List.append_assoc] at h
  obtain ⟨r₁, hr₁, hrest, hp₁⟩ := hf r _ h
  obtain ⟨r₂, hr₂, hend, hp₂⟩ := hg r₁ post hrest
  refine ⟨r₂, ?_, hend, hp₂.trans hp₁⟩
  change (f r >>= fun x => g x.1 x.2) = _
  rw [hr₁]
  exact hr₂

end Reads

theorem join32 (v : UInt32) : (v >>> 24).toUInt8.toUInt32 <<< 24 |||
    (v >>> 16).toUInt8.toUInt32 <<< 16 ||| (v >>> 8).toUInt8.toUInt32 <<< 8 |||
    v.toUInt8.toUInt32 = v := by
  apply UInt32.eq_of_toBitVec_eq
  ext i hi
  simp [-UInt32.toUInt32_toUInt8]
  grind

theorem join64 (v : UInt64) : (v >>> 56).toUInt8.toUInt64 <<< 56 |||
    (v >>> 48).toUInt8.toUInt64 <<< 48 ||| (v >>> 40).toUInt8.toUInt64 <<< 40 |||
    (v >>> 32).toUInt8.toUInt64 <<< 32 ||| (v >>> 24).toUInt8.toUInt64 <<< 24 |||
    (v >>> 16).toUInt8.toUInt64 <<< 16 ||| (v >>> 8).toUInt8.toUInt64 <<< 8 |||
    v.toUInt8.toUInt64 = v := by
  apply UInt64.eq_of_toBitVec_eq
  ext i hi
  simp [-UInt64.toUInt64_toUInt8]
  grind

theorem reads_rbU32 (v : UInt32) : Reads rbU32 (w32 v) v := by
  intro r post h
  have hadvance := h.advance (n := 4) rfl
  refine ⟨_, ?_, hadvance.2, rfl⟩
  simp only [rbU32, bind, StateT.bind, h.take (n := 4) rfl, if_true,
    h.byte (i := 0) rfl, h.byte (i := 1) rfl, h.byte (i := 2) rfl, h.byte (i := 3) rfl,
    hadvance.1, Option.bind_some, reader_pure, join32]

theorem reads_rbU64 (v : UInt64) : Reads rbU64 (w64 v) v := by
  intro r post h
  have hadvance := h.advance (n := 8) rfl
  refine ⟨_, ?_, hadvance.2, rfl⟩
  simp only [rbU64, bind, StateT.bind, h.take (n := 8) rfl, if_true,
    h.byte (i := 0) rfl, h.byte (i := 1) rfl, h.byte (i := 2) rfl, h.byte (i := 3) rfl,
    h.byte (i := 4) rfl, h.byte (i := 5) rfl, h.byte (i := 6) rfl, h.byte (i := 7) rfl,
    hadvance.1, Option.bind_some, reader_pure, join64]

theorem rbBytes_eq {r : Rbuf} {bs post : List UInt8} (h : Unread r (bs ++ post)) {n : UInt32}
    (hn : n.toNat = bs.length) :
    ∃ r', rbBytes n r = some (some r.off.toNat, r') ∧ Unread r' post ∧ r'.p = r.p := by
  have hadvance := h.advance hn
  refine ⟨_, ?_, hadvance.2, rfl⟩
  simp only [rbBytes, bind, StateT.bind, h.take hn, if_true, get, getThe, MonadStateOf.get,
    StateT.get, hadvance.1, Option.pure_def, Option.bind_some, reader_pure]

/-- A name without zeros is a C string if a zero comes right after it. -/
theorem cString_eq {name post : List UInt8} (h : 0 ∉ name) :
    cString (name ++ 0 :: post) = some name := by
  induction name with
  | nil => rfl
  | cons b name ih =>
    rw [List.mem_cons, not_or] at h
    rw [List.cons_append, cString, if_neg (Ne.symm h.1), ih h.2, Option.map_some]

end EtcFS.Ipc
