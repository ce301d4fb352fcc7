import EtcFS.Core.Bytes
import EtcFS.Metadata.Extent

/-!
# NVMe reservation reports

A node's key is preempted in the shared namespace and the report is read back. The layout of NVMe
1.4 is stated here next to the parser.
-/

namespace EtcFS.Fencing

open Core.Bytes Metadata List

structure Registrant where
  controllerID : UInt16
  key : UInt64
  holdsReservation : Bool
  deriving DecidableEq, Repr

structure Report where
  generation : UInt32
  type : UInt8
  registrants : List Registrant
  deriving DecidableEq, Repr

def Report.holds (r : Report) (key : UInt64) : Bool := r.registrants.any fun reg => reg.key == key

def reportHeaderLen : Nat := 24

def registrantLen : Nat := 24

def parseRegistrant (e : List UInt8) : Registrant where
  controllerID := UInt16.ofNat (field e 0 2)
  holdsReservation := e.getD 2 0 &&& 1 != 0
  key := UInt64.ofNat (field e 14 8)

def parseReport (buf : List UInt8) : Except String Report :=
  if buf.length < reportHeaderLen then
    .error s!"nvmeresv: report truncated: {buf.length} bytes"
  else
    let count := field buf 5 2
    if buf.length < reportHeaderLen + count * registrantLen then
      .error s!"nvmeresv: report claims {count} registrants, buffer holds {buf.length} bytes"
    else
      .ok {
        generation := UInt32.ofNat (field buf 0 4)
        type := buf.getD 4 0
        registrants := (range count).map fun i =>
          parseRegistrant (buf.drop (reportHeaderLen + i * registrantLen)) }

def deviceReport (exec : Except String (List UInt8)) : Except String Report :=
  match exec with
  | .error err => .error s!"nvmeresv: report: {err}"
  | .ok buf => parseReport buf

def fnv1a (bytes : List UInt8) : UInt64 :=
  bytes.foldl (fun h b => (h ^^^ b.toUInt64) * 1099511628211) 14695981039346656037

def keyForNode (nodeID : NodeID) : UInt64 :=
  let k := fnv1a nodeID.toUTF8.data.toList
  if k ≠ 0 then k else 1

def nvmeFence (selfKey : UInt64) (nodeID : NodeID) (preempt : Except String Unit)
    (exec : Except String (List UInt8)) : Except String Unit :=
  let victim := keyForNode nodeID
  if victim = selfKey then
    .error s!"nvme fencing: refusing to preempt own key for {nodeID}"
  else
    match preempt with
    | .error err => .error s!"nvme fencing: preempt {nodeID}: {err}"
    | .ok () =>
      match deviceReport exec with
      | .error err => .error s!"nvme fencing: confirm preempt of {nodeID}: {err}"
      | .ok report =>
        if report.holds victim then
          .error s!"nvme fencing: {nodeID} still registered after preempt"
        else .ok ()

structure RegisteredController where
  cntlid : UInt16
  rcsts : UInt8
  hostID : UInt64
  rkey : UInt64
  deriving DecidableEq, Repr

structure ReservationStatus where
  gen : UInt32
  rtype : UInt8
  controllers : List RegisteredController
  deriving DecidableEq, Repr

def ReservationStatus.keys (s : ReservationStatus) : List UInt64 :=
  s.controllers.map RegisteredController.rkey

structure RegisteredController.LaidOut (c : RegisteredController) (e : List UInt8) : Prop where
  length : registrantLen ≤ e.length
  cntlid : field e 0 2 = c.cntlid.toNat
  rcsts : e.getD 2 0 = c.rcsts
  hostID : field e 8 8 = c.hostID.toNat
  rkey : field e 16 8 = c.rkey.toNat

structure ReservationStatus.LaidOut (s : ReservationStatus) (buf : List UInt8) : Prop where
  length : reportHeaderLen ≤ buf.length
  gen : field buf 0 4 = s.gen.toNat
  rtype : buf.getD 4 0 = s.rtype
  regctl : field buf 5 2 = s.controllers.length
  entries : ∀ i, (h : i < s.controllers.length) →
    s.controllers[i].LaidOut (buf.drop (reportHeaderLen + i * registrantLen))

instance (c : RegisteredController) (e : List UInt8) : Decidable (c.LaidOut e) :=
  decidable_of_iff (registrantLen ≤ e.length ∧ field e 0 2 = c.cntlid.toNat ∧
      e.getD 2 0 = c.rcsts ∧ field e 8 8 = c.hostID.toNat ∧ field e 16 8 = c.rkey.toNat)
    ⟨fun ⟨h₁, h₂, h₃, h₄, h₅⟩ => ⟨h₁, h₂, h₃, h₄, h₅⟩,
      fun ⟨h₁, h₂, h₃, h₄, h₅⟩ => ⟨h₁, h₂, h₃, h₄, h₅⟩⟩

instance (s : ReservationStatus) (buf : List UInt8) : Decidable (s.LaidOut buf) :=
  decidable_of_iff (reportHeaderLen ≤ buf.length ∧ field buf 0 4 = s.gen.toNat ∧
      buf.getD 4 0 = s.rtype ∧ field buf 5 2 = s.controllers.length ∧
      ∀ i, (h : i < s.controllers.length) →
        s.controllers[i].LaidOut (buf.drop (reportHeaderLen + i * registrantLen)))
    ⟨fun ⟨h₁, h₂, h₃, h₄, h₅⟩ => ⟨h₁, h₂, h₃, h₄, h₅⟩,
      fun ⟨h₁, h₂, h₃, h₄, h₅⟩ => ⟨h₁, h₂, h₃, h₄, h₅⟩⟩

def RegisteredController.straddled (c : RegisteredController) : UInt64 :=
  UInt64.ofNat (c.hostID.toNat / 2 ^ 48 + 2 ^ 16 * (c.rkey.toNat % 2 ^ 48))

theorem parseRegistrant_key {c : RegisteredController} {e : List UInt8} (h : c.LaidOut e) :
    (parseRegistrant e).key = c.straddled := by
  have hlen : 24 ≤ e.length := h.length
  -- bytes 8 to 15 and 16 to 23 are cut where the read at 14 begins and ends
  have hhost : field e 8 8 = field e 8 6 + 256 ^ 6 * field e 14 2 :=
    field_add 8 6 2 (by omega)
  have hkey : field e 16 8 = field e 16 6 + 256 ^ 6 * field e 22 2 :=
    field_add 16 6 2 (by omega)
  have hread : field e 14 8 = field e 14 2 + 256 ^ 2 * field e 16 6 :=
    field_add 14 2 6 (by omega)
  have hlow : field e 8 6 < 256 ^ 6 := field_lt ..
  have hmid : field e 16 6 < 256 ^ 6 := field_lt ..
  have hh := h.hostID
  have hk := h.rkey
  have hsame : field e 14 8 = c.hostID.toNat / 2 ^ 48 + 2 ^ 16 * (c.rkey.toNat % 2 ^ 48) := by
    omega
  rw [parseRegistrant, RegisteredController.straddled, hsame]

theorem straddled_eq_iff (c : RegisteredController) :
    c.straddled = c.rkey ↔ c.rkey.toNat = c.hostID.toNat / 2 ^ 48 * 0x0001000100010001 := by
  have hk : c.rkey.toNat < 2 ^ 64 := c.rkey.toNat_lt
  have hh : c.hostID.toNat < 2 ^ 64 := c.hostID.toNat_lt
  rw [← UInt64.toNat_inj, RegisteredController.straddled, UInt64.toNat_ofNat']
  omega

theorem parseReport_of_laidOut {s : ReservationStatus} {buf : List UInt8} (h : s.LaidOut buf) :
    ∃ r, parseReport buf = .ok r ∧
      r.registrants.map Registrant.key = s.controllers.map RegisteredController.straddled := by
  have hhead : ¬ buf.length < reportHeaderLen := Nat.not_lt.mpr h.length
  have hroom : ¬ buf.length < reportHeaderLen + field buf 5 2 * registrantLen := by
    rw [h.regctl]
    -- the last entry lies within the buffer, and there is none if the list is empty
    cases hn : s.controllers.length with
    | zero => simpa using h.length
    | succ n =>
      have hi : n < s.controllers.length := by omega
      have hlast := (h.entries n hi).length
      rw [length_drop] at hlast
      simp only [reportHeaderLen, registrantLen] at hlast ⊢
      omega
  refine ⟨_, by rw [parseReport, if_neg hhead]; exact if_neg hroom, ?_⟩
  apply ext_getElem?
  intro i
  simp only [map_map, getElem?_map, h.regctl]
  by_cases hi : i < s.controllers.length
  · have hget := getElem?_eq_getElem hi
    rw [getElem?_range hi, hget]
    exact congrArg some (parseRegistrant_key (h.entries i hi))
  · rw [getElem?_eq_none (by simpa using hi), getElem?_eq_none (by omega)]
    rfl

theorem holds_iff {r : Report} {key : UInt64} :
    r.holds key = true ↔ key ∈ r.registrants.map Registrant.key := by
  simp only [Report.holds, any_eq_true, beq_iff_eq, mem_map]

theorem nvmeFence_eq_ok {selfKey : UInt64} {nodeID : NodeID} {preempt : Except String Unit}
    {exec : Except String (List UInt8)} :
    nvmeFence selfKey nodeID preempt exec = .ok () ↔
      keyForNode nodeID ≠ selfKey ∧ preempt = .ok () ∧
        ∃ r, deviceReport exec = .ok r ∧ r.holds (keyForNode nodeID) = false := by
  simp only [nvmeFence]
  split
  · next h => simp [h]
  · next h =>
    cases preempt with
    | error err => simp
    | ok u =>
      cases hr : deviceReport exec with
      | error err => simp
      | ok r =>
        cases hh : r.holds (keyForNode nodeID) <;> simp [h, hh]

end EtcFS.Fencing
