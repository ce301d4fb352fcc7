import EtcFS.Fencing.Reservation

/-!
# What a reservation report confirms

The parser takes a registrant's key from bytes 14 to 21 of its entry, and the layout has it in bytes
16 to 23.
-/

namespace EtcFS.Correctness

open Core.Bytes Fencing Metadata List

structure ReadsKeys (s : ReservationStatus) (buf : List UInt8) : Prop where
  parsed : ∃ r, parseReport buf = .ok r ∧ r.registrants.map Registrant.key = s.keys ∧
    ∀ key, r.holds key = true ↔ key ∈ s.keys
  fenced : ∀ selfKey nodeID preempt,
    nvmeFence selfKey nodeID preempt (.ok buf) = .ok () → keyForNode nodeID ∉ s.keys

def KeyRepeatsHost (c : RegisteredController) : Prop :=
  c.rkey.toNat = c.hostID.toNat / 2 ^ 48 * 0x0001000100010001
  deriving Decidable

/-- A report in the layout of NVMe 1.4, with any registrants and host identifiers,
is read for what it says exactly if every key repeats its host identifier's upper word. -/
theorem readsKeys_iff {s : ReservationStatus} {buf : List UInt8} (h : s.LaidOut buf) :
    ReadsKeys s buf ↔ ∀ c ∈ s.controllers, KeyRepeatsHost c := by
  obtain ⟨r, hparse, hread⟩ := parseReport_of_laidOut h
  have hsame : r.registrants.map Registrant.key = s.keys ↔
      ∀ c ∈ s.controllers, KeyRepeatsHost c := by
    rw [hread, ReservationStatus.keys, map_inj_left]
    exact forall₂_congr fun c _ => straddled_eq_iff c
  constructor
  · rintro ⟨⟨r', hparse', hkeys, -⟩, -⟩
    obtain rfl : r = r' := Except.ok.inj (hparse.symm.trans hparse')
    exact hsame.mp hkeys
  · intro hall
    have hkeys := hsame.mpr hall
    refine ⟨⟨r, hparse, hkeys, fun key => by rw [holds_iff, hkeys]⟩, ?_⟩
    intro selfKey nodeID preempt hok hmem
    obtain ⟨-, -, r', hr', hnot⟩ := nvmeFence_eq_ok.mp hok
    obtain rfl : r = r' := Except.ok.inj (hparse.symm.trans hr')
    rw [← hkeys, ← holds_iff, hnot] at hmem
    cases hmem

def oneRegistrant (hostID rkey : UInt64) : ReservationStatus where
  gen := 1
  rtype := 5
  controllers := [⟨1, 1, hostID, rkey⟩]

def oneRegistrantReport (hostID rkey : UInt64) : List UInt8 :=
  leBytes 4 1 ++ [5] ++ leBytes 2 1 ++ replicate 17 0 ++
    (leBytes 2 1 ++ [1] ++ replicate 5 0 ++ leBytes 8 hostID.toNat ++ leBytes 8 rkey.toNat)

/-- A registrant whose key and host identifier are all the same word is read right. -/
theorem readsKeys_iff_repeated :
    (oneRegistrant 0x0002000000000000 0x0002000200020002).LaidOut
        (oneRegistrantReport 0x0002000000000000 0x0002000200020002) ∧
      ReadsKeys (oneRegistrant 0x0002000000000000 0x0002000200020002)
        (oneRegistrantReport 0x0002000000000000 0x0002000200020002) := by
  have hlaid : (oneRegistrant 0x0002000000000000 0x0002000200020002).LaidOut
      (oneRegistrantReport 0x0002000000000000 0x0002000200020002) := by
    decide +kernel
  exact ⟨hlaid, (readsKeys_iff hlaid).mpr (by decide +kernel)⟩

/-- The host whose identifier is one is registered under the key of node `b`. The
fence of `b` by node `a` succeeds on its report. -/
theorem fence_confirms_registered_key :
    (oneRegistrant 1 (keyForNode "b")).LaidOut (oneRegistrantReport 1 (keyForNode "b")) ∧
      nvmeFence (keyForNode "a") "b" (.ok ()) (.ok (oneRegistrantReport 1 (keyForNode "b"))) =
        .ok () ∧
      ¬ ReadsKeys (oneRegistrant 1 (keyForNode "b")) (oneRegistrantReport 1 (keyForNode "b")) := by
  have hfence : nvmeFence (keyForNode "a") "b" (.ok ())
      (.ok (oneRegistrantReport 1 (keyForNode "b"))) = .ok () := by
    decide +kernel
  refine ⟨by decide +kernel, hfence, fun h => ?_⟩
  exact h.fenced _ _ _ hfence (by decide +kernel)

end EtcFS.Correctness
