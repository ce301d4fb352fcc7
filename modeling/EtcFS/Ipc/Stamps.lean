import EtcFS.Ipc.Pieces

/-!
# Where the stamps of extents come from

A write stamps its new extents itself. What it leaves of the extents it buries keeps the stamp it
had, whoever's it is.
-/

namespace EtcFS.Ipc

open EtcFS.Core Metadata Arena

def Stamps (P : Nat → NodeID → Prop) (ops : List (Op Val)) : Prop :=
  ∀ (ino chunk : Nat) (v : ExtentValue), Op.put (Key.extent ino chunk) v ∈ ops → P v.gen v.node

section

variable {P Q : Nat → NodeID → Prop} {ops : List (Op Val)}

theorem stamps_iff : Stamps P ops ↔ Puts (fun v => P v.gen v.node) ops := Iff.rfl

theorem Stamps.imp (h : Stamps P ops) (hPQ : ∀ gen node, P gen node → Q gen node) : Stamps Q ops :=
  Puts.imp (stamps_iff.mp h) fun v hv => hPQ v.gen v.node hv

variable {n : Node} {w : WriteReq} {runs : List Run} {rec : InodeRecord} {existing : List Extent}

theorem newExtents_stamp {seq pos : Nat} {v : ExtentValue} (h : v ∈ newExtents n w seq pos runs) :
    v.gen = n.gen ∧ v.node = n.id := by
  induction runs generalizing pos with
  | nil => cases h
  | cons r runs ih =>
    rcases List.mem_cons.mp h with rfl | h
    · exact ⟨rfl, rfl⟩
    · exact ih h

theorem planReclaim_stamps {ino start stop next next' : Nat} {e : Extent} {plan : ReclaimPlan}
    (h : planReclaim n ino e start stop next = (some plan, next')) (he : P e.gen e.node) :
    Stamps P plan.ops :=
  stamps_iff.mpr (planReclaim_puts h he fun _ => he)

theorem proposal_stamps (hnew : P n.gen n.id) (hold : ∀ e ∈ existing, P e.gen e.node) :
    Stamps P (proposal n w runs rec existing).ops := by
  refine stamps_iff.mpr (proposal_puts ?_ (fun e he _ => hold e he) fun e he _ _ => hold e he)
  intro v hv
  obtain ⟨hgen, hnode⟩ := newExtents_stamp hv
  rw [hgen, hnode]
  exact hnew

end

end EtcFS.Ipc
