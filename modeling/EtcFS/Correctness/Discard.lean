import EtcFS.Ipc.Blocks
import EtcFS.Ipc.Delegate

/-!
# What a discarded buffer gives back

A discard frees the runs the buffer reserved and the ranges its plans meant to bury. It is clean if
there are none and no attempt got in.
-/

namespace EtcFS.Correctness

open EtcFS.Core Metadata Arena Ipc List Option

def runBlocks (s : Delegation) : List Nat := s.file.pending.runs.flatMap Run.blocks

def DiscardsCleanly (t : Delegation) : Prop :=
  ∀ blocks ∈ t.discarded, blocks.Nodup ∧ ∀ b ∈ blocks, ¬Named t.file.etcd b

def StaysApart (s : Delegation) : DelegationAct → Prop
  | .buffer a => ∀ b ∈ a.blocks, ¬Named s.file.etcd b
  | .other ops => ∀ ino chunk v, Op.put (.extent ino chunk) v ∈ ops →
    ∀ b ∈ runBlocks s, ¬ExtentValue.Touches v b
  | _ => True

def DiscardsUnpublished (s t : Delegation) : Prop :=
  t.discarded ≠ none → s.file.pending.freed = [] ∧ s.landed = false
  deriving Decidable

structure RunsOwned (s : Delegation) : Prop where
  nodup : (runBlocks s).Nodup
  reserved : ∀ b ∈ runBlocks s, s.file.allocated b = true
  unnamed : s.landed = false → ∀ b ∈ runBlocks s, ¬Named s.file.etcd b

theorem named_commit {s : Etcd} {ops : List (Op Val)} {b : Nat} (h : Named (s.commit ops) b) :
    Named s b ∨ ∃ ino chunk v, Op.put (.extent ino chunk) v ∈ ops ∧ ExtentValue.Touches v b := by
  obtain ⟨ino, chunk, v, hget, hb⟩ := h
  rcases Store.get_commit_cases hget with ⟨hold, -⟩ | ⟨hput, -⟩
  · exact .inl ⟨ino, chunk, v, hold, hb⟩
  · exact .inr ⟨ino, chunk, v.value, hput, hb⟩

theorem named_of_commit {s : Etcd} {ops : List (Op Val)} {b : Nat}
    (hops : ∀ ino chunk v, Op.put (.extent ino chunk) v ∉ ops) (h : Named (s.commit ops) b) :
    Named s b := by
  rcases named_commit h with h | ⟨ino, chunk, v, hput, -⟩
  · exact h
  · exact absurd hput (hops ino chunk v)

namespace RunsOwned

variable {c : FileConfig} {s t : Delegation}

theorem of_empty (h : t.file.pending.runs = []) : RunsOwned t := by
  have hblocks : runBlocks t = [] := by rw [runBlocks, h]; rfl
  constructor
  · rw [hblocks]
    exact nodup_nil
  · intro b hb
    rw [hblocks] at hb
    cases hb
  · intro _ b hb
    rw [hblocks] at hb
    cases hb

theorem of_same (hs : RunsOwned s) (hruns : t.file.pending.runs = s.file.pending.runs)
    (hallocated : t.file.allocated = s.file.allocated)
    (hnamed : t.landed = false → s.landed = false ∧
      ∀ b ∈ runBlocks s, Named t.file.etcd b → Named s.file.etcd b) : RunsOwned t := by
  have hblocks : runBlocks t = runBlocks s := by rw [runBlocks, hruns]; rfl
  constructor
  · rw [hblocks]
    exact hs.nodup
  · rw [hblocks, hallocated]
    exact hs.reserved
  · intro hlanded b hb hname
    rw [hblocks] at hb
    obtain ⟨hold, himp⟩ := hnamed hlanded
    exact hs.unnamed hold b hb (himp b hb hname)

theorem discard (hs : RunsOwned s) (hfreed : s.file.pending.freed = [])
    (hlanded : s.landed = false) :
    s.discards.Nodup ∧ ∀ b ∈ s.discards, ¬Named s.file.etcd b := by
  rw [Delegation.discards, hfreed, nil_append]
  exact ⟨hs.nodup, hs.unnamed hlanded⟩

end RunsOwned

section

variable {c : FileConfig} {s t : Delegation}

theorem discardPending_clean (hs : RunsOwned s)
    (hc : s.file.pending.freed = [] ∧ s.landed = false) :
    RunsOwned s.discardPending ∧ DiscardsCleanly s.discardPending := by
  refine ⟨.of_empty rfl, ?_⟩
  rintro blocks ⟨⟩
  exact hs.discard hc.1 hc.2

theorem discardsCleanly_of_none (h : s.discarded = none) : DiscardsCleanly s := by
  intro blocks hblocks
  rw [h] at hblocks
  cases hblocks

theorem keyLost_clean (hs : RunsOwned s) (hquiet : s.discarded = none)
    (hc : DiscardsUnpublished s s.keyLost) : RunsOwned s.keyLost ∧ DiscardsCleanly s.keyLost := by
  have hforget : RunsOwned s.forget := hs.of_same rfl rfl fun h => ⟨h, fun _ _ => id⟩
  by_cases hempty : s.file.pending.isEmpty = true
  · rw [Delegation.keyLost, if_pos hempty]
    exact ⟨hforget, discardsCleanly_of_none hquiet⟩
  · rw [Delegation.keyLost, if_neg hempty] at hc ⊢
    exact discardPending_clean hforget (hc (by simp [Delegation.discardPending]))

theorem flush_clean {f : FlushFaults} (hs : RunsOwned s) (hquiet : s.discarded = none)
    (hc : DiscardsUnpublished s (s.flush c f)) :
    RunsOwned (s.flush c f) ∧ DiscardsCleanly (s.flush c f) := by
  have hkept : ∀ t : Delegation, t.discarded = none → DiscardsCleanly t :=
    fun _ => discardsCleanly_of_none
  have hstored : RunsOwned s.storeData := hs.of_same rfl rfl fun h => ⟨h, fun _ _ => id⟩
  have hend := s.flush_end c f
  revert hc
  generalize s.flush c f = t at hend ⊢
  intro hc
  cases hend with
  | idle | unstored => exact ⟨hs, hkept _ hquiet⟩
  | untold | stuck => exact ⟨hstored, hkept _ hquiet⟩
  | unheld => exact discardPending_clean hs (hc (by simp [Delegation.discardPending]))
  | fenced => exact discardPending_clean hstored (hc (by simp [Delegation.discardPending]))
  | landed =>
    exact ⟨⟨hs.nodup, hs.reserved, fun h => by cases h⟩, hkept _ hquiet⟩
  | committed => exact ⟨.of_empty rfl, hkept _ hquiet⟩
  | adopted => exact ⟨.of_empty rfl, hkept _ hquiet⟩
  | keyLost => exact keyLost_clean hstored hquiet hc

theorem buffer_owned {a : WriteAct} (hs : RunsOwned s)
    (hunnamed : ∀ b ∈ a.blocks, ¬Named s.file.etcd b) (h : s.buffer c a = some t) :
    RunsOwned t ∧ t.discarded = s.discarded := by
  obtain ⟨m, -, h⟩ := bind_eq_some_iff.mp h
  simp only [ite_none_right_eq_some] at h
  obtain ⟨⟨-, ⟨-, hnodup, hfree⟩, -⟩, h⟩ := h
  obtain ⟨replay, -, rfl⟩ := map_eq_some_iff.mp h
  have hblocks : ∀ t : Delegation, t.file.pending.runs = s.file.pending.runs ++ a.runs →
      runBlocks t = runBlocks s ++ a.blocks := by
    intro t ht
    rw [runBlocks, ht, flatMap_append]
    rfl
  refine ⟨⟨?_, ?_, ?_⟩, rfl⟩
  · rw [hblocks _ rfl, nodup_append]
    refine ⟨hs.nodup, hnodup, ?_⟩
    rintro b hb b' hb' rfl
    -- what is handed out was free, and the runs of the buffer are not
    have htaken := hs.reserved b hb
    rw [hfree b hb'] at htaken
    cases htaken
  · intro b hb
    rw [hblocks _ rfl, mem_append] at hb
    refine reserve_eq_true.mpr (hb.imp_left fun hb => ?_)
    exact hs.reserved b hb
  · intro hlanded b hb
    rw [hblocks _ rfl, mem_append] at hb
    rcases hb with hb | hb
    · exact hs.unnamed hlanded b hb
    · exact hunnamed b hb

theorem commit_owned (hs : RunsOwned s) {ops : List (Op Val)}
    (hops : ∀ ino chunk v, Op.put (.extent ino chunk) v ∈ ops →
      ∀ b ∈ runBlocks s, ¬ExtentValue.Touches v b) :
    RunsOwned (s.commit (s.file.etcd.commit ops)) := by
  refine hs.of_same rfl rfl fun h => ⟨h, fun b hb hname => ?_⟩
  rcases named_commit hname with hname | ⟨ino, chunk, v, hput, htouch⟩
  · exact hname
  · exact absurd htouch (hops ino chunk v hput b hb)

theorem step_clean {act : DelegationAct} (hs : RunsOwned s) (hquiet : s.discarded = none)
    (ha : StaysApart s act) (hc : DiscardsUnpublished s t) (h : s.step c act = some t) :
    RunsOwned t ∧ DiscardsCleanly t := by
  have hkept : ∀ t : Delegation, t.discarded = none → DiscardsCleanly t :=
    fun _ => discardsCleanly_of_none
  cases act with
  | read age =>
    obtain ⟨-, h⟩ := ite_none_right_eq_some.mp h
    obtain ⟨etcd, -, h⟩ := bind_eq_some_iff.mp h
    obtain ⟨record, -, h⟩ := bind_eq_some_iff.mp h
    cases h
    exact ⟨hs.of_same rfl rfl fun h => ⟨h, fun _ _ => id⟩, hkept _ hquiet⟩
  | plan =>
    obtain ⟨-, h⟩ := ite_none_right_eq_some.mp h
    obtain ⟨m, -, rfl⟩ := map_eq_some_iff.mp h
    exact ⟨hs.of_same rfl rfl fun h => ⟨h, fun _ _ => id⟩, hkept _ hquiet⟩
  | buffer a =>
    obtain ⟨ht, hsame⟩ := buffer_owned hs ha h
    exact ⟨ht, hkept _ (hsame.trans hquiet)⟩
  | abandon =>
    cases h
    exact ⟨hs.of_same rfl rfl fun h => ⟨h, fun _ _ => id⟩, hkept _ hquiet⟩
  | flush f =>
    obtain ⟨-, rfl⟩ := ite_some_none_eq_some.mp h
    exact flush_clean hs hquiet hc
  | keyLost =>
    cases h
    exact keyLost_clean hs hquiet hc
  | release =>
    obtain ⟨-, rfl⟩ := ite_some_none_eq_some.mp h
    exact keyLost_clean (commit_owned hs (by simp)) hquiet hc
  | shutDown =>
    obtain ⟨-, rfl⟩ := ite_some_none_eq_some.mp h
    exact discardPending_clean hs (hc (by simp [Delegation.discardPending]))
  | acquire next =>
    obtain ⟨-, rfl⟩ := ite_some_none_eq_some.mp h
    have hcommit : RunsOwned (s.commit (s.file.etcd.commit
        [.put (.lock c.ino .exclusive next) c.node.id])) := commit_owned hs (by simp)
    exact ⟨hcommit.of_same rfl rfl fun h => ⟨h, fun _ _ => id⟩, hkept _ hquiet⟩
  | scrub chunk revision =>
    cases h
    unfold Delegation.scrub
    split
    case h_1 etcd htxn =>
      obtain ⟨-, rfl⟩ := Store.txn_eq_some_iff.mp htxn
      exact ⟨commit_owned hs (by simp), hkept _ hquiet⟩
    case h_2 => exact ⟨hs, hkept _ hquiet⟩
  | other ops =>
    cases h
    exact ⟨commit_owned hs ha, hkept _ hquiet⟩

end

/-- In every run in which others stay apart from the buffer, and a buffer is discarded
only if it frees no range of an extent and no attempt to publish it got in, every
discard frees each of its blocks once and none that an extent in etcd names. -/
theorem along_discardsCleanly {c : FileConfig} {s : Delegation}
    (hempty : s.file.pending.runs = []) {acts : List DelegationAct}
    (hc : (delegation c).Along (fun s act t => StaysApart s act ∧ DiscardsUnpublished s t) s acts) :
    (delegation c).Along (fun _ _ t => DiscardsCleanly t) s acts := by
  refine Machine.Along.of_invariant (I := RunsOwned) ?_ (.of_empty hempty) hc
  intro s act t hs hc h
  exact step_clean (s := { s with discarded := none }) ⟨hs.nodup, hs.reserved, hs.unnamed⟩ rfl
    hc.1 hc.2 h

theorem solo_unnamed (b : Nat) : ¬Named soloDelegation.file.etcd b := by
  intro h
  have h := named_of_commit (by simp) h
  have h := named_of_commit (by simp) h
  have h := named_of_commit (by simp) h
  obtain ⟨ino, chunk, v, hget, -⟩ := h
  cases hget

/-- A first write is buffered, and the session ends before it is published. -/
theorem along_discardsCleanly_fresh :
    (delegation soloConfig).Along (fun _ _ t => DiscardsCleanly t) soloDelegation
      (.read 0 :: bufferSolo 0 ++ [.keyLost]) := by
  refine along_discardsCleanly rfl (Machine.Along.and ?_ (by decide +kernel))
  change (delegation soloConfig).Along _ soloDelegation
    ([.read 0, .plan] ++ [.buffer (soloWrite false 0 [1] 0 one_byte_ne one_byte_bound), .keyLost])
  refine Machine.along_append.mpr ⟨Machine.along_of_forall ?_ _, fun t ht => ?_⟩
  · simp [StaysApart]
  · have hetcd : ((delegation soloConfig).exec soloDelegation [.read 0, .plan]).map
        (fun s => s.file.etcd) = some soloDelegation.file.etcd := rfl
    rw [ht, map_some, some.injEq] at hetcd
    intro u _
    refine ⟨fun b _ => ?_, fun v _ => ⟨trivial, trivial⟩⟩
    rw [hetcd]
    exact solo_unnamed b

def overwriteLost : List DelegationAct :=
  .read 0 :: bufferSolo 0 ++ flushSolo .answered :: bufferSolo 1 ++ [.keyLost]

def overwriteBuffered : List DelegationAct := .read 0 :: bufferSolo 0 ++ bufferSolo 1 ++ [.keyLost]

/-- The first discard frees a block that an extent in etcd names, and the second one
frees a block twice. -/
theorem overwrite_discard_frees_published :
    (∃ t, (delegation soloConfig).exec soloDelegation overwriteLost = some t ∧
      t.discarded = some [0, 1] ∧ Named t.file.etcd 0) ∧
    ((delegation soloConfig).exec soloDelegation overwriteBuffered).map
      (fun t => t.discarded) = some (some [0, 0, 1]) := by
  have hrun : ((delegation soloConfig).exec soloDelegation overwriteLost).map
      (fun t => (t.discarded, getExtents t.file.etcd 7)) =
        some (some [0, 1], [⟨⟨0, 0, 1, 0, 0, "a"⟩, 0, 4⟩]) := by
    decide +kernel
  obtain ⟨t, ht, hrun⟩ := map_eq_some_iff.mp hrun
  obtain ⟨hdiscarded, hlisted⟩ := Prod.mk.inj hrun
  have hmem : (⟨⟨0, 0, 1, 0, 0, "a"⟩, 0, 4⟩ : Extent) ∈ getExtents t.file.etcd 7 := by
    rw [hlisted]
    exact mem_singleton_self _
  refine ⟨⟨t, ht, hdiscarded, 7, 0, _, mem_getExtents.mp hmem, ?_⟩, by decide +kernel⟩
  exact ⟨0, le_rfl, Nat.zero_lt_one, Nat.zero_div _⟩

end EtcFS.Correctness
