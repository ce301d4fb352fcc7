import EtcFS.Correctness.TxnShape
import EtcFS.Ipc.Blocks

/-!
# Block ownership through a file's history

No device block is touched by two extents and no freed block by any, exactly as long as no write and
no punch splits an extent inside one block.
-/

namespace EtcFS.Correctness

open EtcFS.Core Metadata Arena Ipc List Option

def SplitsAllowed (c : FileConfig) (st : FileState) : FileStep → Prop
  | .data (.write a) => SplitsApart a.req.offset a.req.stop (st.live c)
  | .punch offset length => SplitsApart offset (offset + length) (st.live c)
  | .data .flush | .data (.recall _) | .setattr .. => True

section

variable {c : FileConfig} {st st' : FileState}

theorem blockInv_step (howns : ∀ d, c.node.owns d = true) (h : Coherent c st)
    (hb : BlockInv c [] st) {step : FileStep} (hstep : (fileOps c).step st step = some st') :
    Coherent c st' ∧ (SplitsAllowed c st step → BlockInv c [] st') ∧
      (BlocksDisjoint (st'.live c) → SplitsAllowed c st step) := by
  have h₀ : Coherent c { st with freed := [] } := h.congr rfl rfl rfl rfl
  have hb₀ := hb.begin
  cases step with
  | data step =>
    cases step with
    | write a =>
      obtain ⟨hcoh, hdone⟩ := write_spec (blockRule howns _) h₀ ⟨hb₀, rfl⟩ hstep
      exact ⟨hcoh, hdone⟩
    | flush =>
      obtain ⟨u, hu, hf⟩ := flush_spec h₀
      obtain rfl : u = st' := some.inj (hu.symm.trans hstep)
      exact ⟨hf.coherent, fun _ => hb₀.flush hf, fun _ => trivial⟩
    | «recall» next =>
      obtain ⟨u, v, hf, hv, hun, -⟩ := recall_spec h₀ next
      obtain rfl : v = st' := some.inj (hv.symm.trans hstep)
      exact ⟨hun.coherent, fun _ => (hb₀.flush hf).unchanged hun, fun _ => trivial⟩
  | setattr valid f now queued =>
    have hsel : Selects valid fattrSize := by
      by_contra hnot
      have hnone : (fileOps c).step st (.setattr valid f now queued) = none := if_neg hnot
      rw [hnone] at hstep
      cases hstep
    obtain ⟨u, v, hf, hv, hcut⟩ := setattr_spec h₀ f now queued hsel hb.logOff_lt
    obtain rfl : v = st' := some.inj (hv.symm.trans hstep)
    have hbu := hb₀.flush hf
    rcases hcut with ⟨blocks, hcut⟩ | hun
    · -- No extent reaches past the end of the address space, so none is split.
      have hsplit : SplitsApart f.size maxOffset (u.live c) :=
        fun e he _ htail => absurd (hbu.placed e he).2.2 (not_le.mpr htail)
      have hd := (flatMap_cutBy_disjoint hbu.placed hbu.disjoint hsplit).perm hcut.perm.symm
      exact ⟨hcut.coherent, fun _ => hbu.cut howns hcut hd, fun _ => trivial⟩
    · exact ⟨hun.coherent, fun _ => hbu.unchanged hun, fun _ => trivial⟩
  | punch offset length =>
    have hlen : 0 < length ∧ offset + length < offsetBound := by
      by_contra hnot
      have hnone : (fileOps c).step st (.punch offset length) = none := if_neg hnot
      rw [hnone] at hstep
      cases hstep
    obtain ⟨u, v, blocks, hf, hv, hcut⟩ := punch_spec h₀ hlen
    obtain rfl : v = st' := some.inj (hv.symm.trans hstep)
    have hiff := hcut.disjoint_iff howns (Nat.lt_add_of_pos_right hlen.1) (hb₀.flush hf)
    rw [hf.live_eq] at hiff
    exact ⟨hcut.coherent, fun hs => (hb₀.flush hf).cut howns hcut (hiff.mpr hs), hiff.mp⟩

end

/-- Along every run of writes, truncates and punches on a file that started
empty, on a node that owns every arena: the blocks are safe after each operation
exactly when no write and no punch splits an extent in two inside one block. -/
theorem along_blocksSafe_iff {c : FileConfig} (howns : ∀ d, c.node.owns d = true)
    {st : FileState} (hst : Opened c st) (steps : List FileStep) :
    (fileOps c).Along (fun _ _ t => BlocksSafe c t) st steps ↔
      (fileOps c).Along (fun s step _ => SplitsAllowed c s step) st steps := by
  refine Machine.along_iff (I := fun s => Coherent c s ∧ BlockInv c [] s) ?_ ?_
    ⟨hst.coherent, hst.blockInv⟩ steps
  · rintro s step t ⟨hcoh, hb⟩ hallowed hstep
    obtain ⟨hcoh', hkeep, -⟩ := blockInv_step howns hcoh hb hstep
    exact ⟨hcoh', hkeep hallowed⟩
  · rintro s step t ⟨hcoh, hb⟩ hstep
    obtain ⟨-, hkeep, hneeds⟩ := blockInv_step howns hcoh hb hstep
    exact ⟨fun hsafe => hneeds hsafe.live, fun hallowed => (hkeep hallowed).safe⟩

/-- The equivalence at the run that rewrites the middle byte. -/
theorem along_blocksSafe_solo :
    (fileOps soloConfig).Along (fun _ _ t => BlocksSafe soloConfig t) soloFile
        ((rewriteMiddle true).map FileStep.data) ↔
      (fileOps soloConfig).Along (fun s step _ => SplitsAllowed soloConfig s step) soloFile
        ((rewriteMiddle true).map FileStep.data) :=
  along_blocksSafe_iff (fun _ => rfl) soloFile_opened ((rewriteMiddle true).map FileStep.data)

/-- The middle byte's write splits the first extent inside its only block, and
both halves keep it. -/
theorem split_block_shared :
    ∃ t, (fileOps soloConfig).exec soloFile ((rewriteMiddle true).map FileStep.data) = some t ∧
      ¬ BlocksSafe soloConfig t := by
  have hrun : ((fileOps soloConfig).exec soloFile ((rewriteMiddle true).map FileStep.data)).map
      (fun t => extentsOf t.etcd 7) = some
        [⟨0, 0, 3, 0, 0, "a"⟩, ⟨0, 0, 1, 0, 0, "a"⟩, ⟨1, 4096, 1, 0, 1, "a"⟩] := by
    decide +kernel
  obtain ⟨t, ht, hext⟩ := map_eq_some_iff.mp hrun
  refine ⟨t, ht, fun hsafe => ?_⟩
  have hdisj := hsafe.published
  rw [show extentsOf t.etcd soloConfig.ino = _ from hext] at hdisj
  have hapart := (pairwise_cons.mp hdisj).1 ⟨0, 0, 1, 0, 0, "a"⟩ (by decide)
  exact hapart 0 ⟨0, by decide⟩ ⟨0, by decide⟩

/-! ## Nothing is refused -/

section

variable {c : FileConfig} {st st' : FileState}

end

end EtcFS.Correctness
