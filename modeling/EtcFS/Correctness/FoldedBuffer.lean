import EtcFS.Ipc.Folding

/-!
# The transaction of a buffer against its proposals

The transaction is accepted exactly while every key compared by the first proposal that touched it
is as it was then.
-/

namespace EtcFS.Correctness

open EtcFS.Core Metadata Arena Ipc List Option Core.Store

structure FoldsTo (s₀ : Etcd) (qs : List (Proposal × Nat)) (b : Pending) : Prop where
  accepts : ∀ s, s₀.Later s →
    ((s.txn b.txn.1 b.txn.2).isSome = true ↔ ∀ k, Compared qs k → s.get k = s₀.get k)
  keyMap : ∀ s k, ((s.commit b.txn.2).get k).map Versioned.value =
    ((applyInTurn qs s).get k).map Versioned.value
  one_op : (b.txn.2.map Op.key).Nodup
  one_cmp : (b.txn.1.map Cmp.key).Nodup ∧ ∀ x ∈ b.txn.1, x.key ≠ none

def Watches (s₀ : Etcd) (x : Cmp Val) : Prop :=
  ∃ k, x.key = some k ∧ ∀ s, s₀.Later s → (s.holds x = true ↔ s.get k = s₀.get k)

theorem watches_absent {s₀ : Etcd} {k : Key} (h : s₀.get k = none) : Watches s₀ (.absent k) := by
  refine ⟨k, rfl, fun s _ => ?_⟩
  rw [holds_absent, h]

theorem watches_modRevision {s₀ : Etcd} {k : Key} {v : Versioned (Val k)}
    (h : s₀.get k = some v) : Watches s₀ (.modRevisionEq k v.modRevision) := by
  refine ⟨k, rfl, fun s hs => ?_⟩
  have hv : s₀.modRevision k = v.modRevision := by
    rw [Store.modRevision, h]
    rfl
  rw [holds_modRevisionEq, ← hv]
  exact hs.modRevision_eq_iff

/-! ## Planning against the buffer -/

section

variable {c : FileConfig} {s₀ : Etcd} {m : InodeMeta} {qs : List (Proposal × Nat)}

def overStore (s₀ : Etcd) (b : Pending) : FileState where
  etcd := s₀
  holder := ⟨0, 0⟩
  cached := none
  pending := b
  device := fun _ => 0
  allocated := fun _ => false
  freed := []

structure FoldedSoFar (c : FileConfig) (s₀ : Etcd) (qs : List (Proposal × Nat)) (m : InodeMeta) :
    Prop where
  snapshot : Snapshot c (overStore s₀ (foldBuffer qs)) m
  watched : ∀ x ∈ (foldBuffer qs).cmps, Watches s₀ x
  self_owned : ∀ q ∈ qs, ∀ k, q.1.Compares k → Owned q.1.ops (some k)
  extents : ∀ q ∈ qs, ∀ k, q.1.Compares k → ∃ chunk, k = .extent c.ino chunk

theorem foldedSoFar_nil {rec : InodeRecord} (hrec : getInode s₀ c.ino = some rec) :
    FoldedSoFar c s₀ [] ⟨rec, getExtents s₀ c.ino⟩ where
  snapshot := by
    have hread : Snapshot c (overStore s₀ .none) ⟨rec, getExtents s₀ c.ino⟩ :=
      snapshot_read rfl hrec
    exact hread
  watched := fun x hx => nomatch hx
  self_owned := fun q hq => nomatch hq
  extents := fun q hq => nomatch hq

theorem FoldedSoFar.step (h : FoldedSoFar c s₀ qs m) {a : WriteAct} (hino : a.req.ino = c.ino)
    (hr : RunsFor a.req.data.length a.runs) {replay : TxnReplay}
    (hreplay : replayTxn c.ino m.record
      (proposal c.node a.req a.runs m.record m.extents).ops = some replay) (bytes : Nat) :
    FoldedSoFar c s₀ (qs ++ [(proposal c.node a.req a.runs m.record m.extents, bytes)])
      (replay.apply m 0) := by
  have hm := h.snapshot
  have ht : Tracks c.node a.req.ino a.req.offset a.req.stop m.extents
      (overStore s₀ (foldBuffer qs)).shown _ m.extents
      (proposal c.node a.req a.runs m.record m.extents) :=
    tracks_proposal (hino ▸ hm.describes) hr
  refine ⟨?_, ?_, ?_, ?_⟩
  · rw [foldBuffer_snoc]
    exact hm.replay (replayTxn_accounts ht.keys_nodup hreplay) rfl
      (foldl_setOp (foldBuffer_ops qs).1 _).2
  · intro x hx
    rw [foldBuffer_snoc] at hx
    rcases mem_add_cmps hx with hx | ⟨hx, hown⟩
    · exact h.watched x hx
    · -- The buffer does not write the key, so the plan saw of it what etcd has.
      rcases ht.cmp_mem x hx with ⟨k, rfl, hk⟩ | ⟨e, he, rfl⟩
      · rw [hino] at hown ⊢
        have hfree := hm.describes.get_eq_none
          fun e he => ((lt_onePast Extent.chunk he).trans_le hk).ne
        rw [get_shown, overStore, not_owned_iff.mp hown, elim_none] at hfree
        exact watches_absent hfree
      · rw [hino] at hown ⊢
        exact watches_modRevision (hm.revision e he (not_owned_iff.mp hown))
  · intro q hq k hk
    rcases mem_append.mp hq with hq | hq
    · exact h.self_owned q hq k hk
    · obtain rfl := mem_singleton.mp hq
      obtain ⟨x, hx, hk⟩ := hk
      exact hk ▸ owned_of_mem_cmps hx
  · intro q hq k hk
    rcases mem_append.mp hq with hq | hq
    · exact h.extents q hq k hk
    · obtain rfl := mem_singleton.mp hq
      obtain ⟨x, hx, hk⟩ := hk
      obtain ⟨chunk, hx⟩ := proposal_cmps_key hx
      exact ⟨chunk, by rw [← hino]; exact some.inj (hk.symm.trans hx)⟩

theorem exists_planWrites (h : FoldedSoFar c s₀ qs m) {as : List WriteAct}
    (has : ∀ a ∈ as, a.req.ino = c.ino ∧ RunsFor a.req.data.length a.runs) :
    ∃ qs' m', planWrites c m as = some qs' ∧ FoldedSoFar c s₀ (qs ++ qs') m' := by
  induction as generalizing qs m with
  | nil => exact ⟨[], m, rfl, by rwa [append_nil]⟩
  | cons a as ih =>
    obtain ⟨hino, hr⟩ := has a mem_cons_self
    have hwrites : ∀ op ∈ (proposal c.node a.req a.runs m.record m.extents).ops,
        (∃ v, op = .put (.inode c.ino) v) ∨ ∃ chunk, op.key = .extent c.ino chunk := by
      rw [← hino]
      exact fun op hop => proposal_writes_inode hop
    obtain ⟨replay, hreplay⟩ := exists_replayTxn m.record hwrites
    obtain ⟨qs', m', hplan, hfold⟩ := ih (h.step hino hr hreplay (a.heldBytes (a.hold 0)))
      fun a ha => has a (mem_cons_of_mem _ ha)
    rw [append_assoc, singleton_append] at hfold
    refine ⟨_, m', ?_, hfold⟩
    rw [planWrites, hreplay, bind_some, hplan]
    rfl

end

/-! ## Acceptance -/

section

variable {c : FileConfig} {s₀ s : Etcd} {m : InodeMeta} {qs : List (Proposal × Nat)}

theorem FoldedSoFar.accepts_iff (h : FoldedSoFar c s₀ qs m) (hs : s₀.Later s) :
    (s.txn (foldBuffer qs).txn.1 (foldBuffer qs).txn.2).isSome = true ↔
      ∀ k, ComparesFirst qs k → s.get k = s₀.get k := by
  rw [txn_isSome_iff]
  constructor
  · intro hall k hk
    obtain ⟨x, hx, hxk⟩ := (foldBuffer_txn_compares h.self_owned).mpr hk
    obtain ⟨k', hk', hiff⟩ := h.watched x (mem_txn_cmps hx)
    obtain rfl : k = k' := some.inj (hxk.symm.trans hk')
    exact (hiff s hs).mp (hall x hx)
  · intro hall x hx
    obtain ⟨k, hk, hiff⟩ := h.watched x (mem_txn_cmps hx)
    exact (hiff s hs).mpr (hall k ((foldBuffer_txn_compares h.self_owned).mp ⟨x, hx, hk⟩))

theorem get_commit_putExtent (s : Etcd) (ino chunk : Nat) (v : ExtentValue) (k : Key) :
    (s.commit [.put (.extent ino chunk) v]).get k = s.get k ↔ k ≠ .extent ino chunk := by
  constructor
  · rintro hget rfl
    rw [get_commit] at hget
    simp only [effect, Op.effect_put_self, none_or, elim_some, map_some] at hget
    have hle := modRevision_le hget.symm
    exact absurd hle (Nat.not_succ_le_self _)
  · intro hne
    refine get_commit_of_untouched fun op hop => ?_
    rw [mem_singleton.mp hop]
    exact hne.symm

def anyExtent : ExtentValue := ⟨0, 0, 1, 0, 0, ""⟩

theorem FoldedSoFar.foldsTo_iff (h : FoldedSoFar c s₀ qs m) :
    FoldsTo s₀ qs (foldBuffer qs) ↔ ∀ k, Compared qs k → ComparesFirst qs k := by
  constructor
  · rintro hf k ⟨q, hq, hk⟩
    by_contra hnot
    -- A peer's put of this very key is not noticed.
    obtain ⟨chunk, rfl⟩ := h.extents q hq k hk
    have hlater := (Store.Later.refl s₀).commit [.put (.extent c.ino chunk) anyExtent]
    have hsome := (h.accepts_iff hlater).mpr fun k hfirst =>
      (get_commit_putExtent s₀ c.ino chunk anyExtent k).mpr fun heq => hnot (heq ▸ hfirst)
    have hsame := (hf.accepts _ hlater).mp hsome _ ⟨q, hq, hk⟩
    exact (get_commit_putExtent s₀ c.ino chunk anyExtent _).mp hsame rfl
  · intro hcond
    refine ⟨fun s hs => (h.accepts_iff hs).trans ?_, fun s k => foldBuffer_value qs s k,
      (foldBuffer_ops qs).1, txn_cmps_nodup (foldBuffer_ops qs).1, fun x hx => ?_⟩
    · exact ⟨fun hall k hk => hall k (hcond k hk), fun hall k hk => hall k hk.compared⟩
    · obtain ⟨k, hk, -⟩ := h.watched x (mem_txn_cmps hx)
      rw [hk]
      exact some_ne_none k

end

/-- Writes planned one after another and folded into one buffer come out as one
transaction for all of them exactly if every compared key is compared by the first
proposal that touches it. -/
theorem folded_txn_iff {c : FileConfig} {s₀ : Etcd} {rec : InodeRecord}
    (hrec : getInode s₀ c.ino = some rec) {as : List WriteAct}
    (has : ∀ a ∈ as, a.req.ino = c.ino ∧ RunsFor a.req.data.length a.runs) :
    ∃ qs, planWrites c ⟨rec, getExtents s₀ c.ino⟩ as = some qs ∧
      (FoldsTo s₀ qs (foldBuffer qs) ↔ ∀ k, Compared qs k → ComparesFirst qs k) := by
  obtain ⟨qs, m, hplan, hfold⟩ := exists_planWrites (foldedSoFar_nil hrec) has
  exact ⟨qs, hplan, hfold.foldsTo_iff⟩

def grownWrites : List WriteAct :=
  [soloWrite false 0 [1] 0 one_byte_ne one_byte_bound,
    soloWrite false 0 [1, 2, 3] 1 three_bytes_ne three_bytes_bound]

/-- The two writes fold into the transaction they are in turn. -/
theorem folded_txn_grown : ∃ qs,
    planWrites soloConfig ⟨regularFile 7, getExtents (freshFile 7) 7⟩ grownWrites = some qs ∧
      FoldsTo (freshFile 7) qs (foldBuffer qs) := by
  have hrec : getInode (freshFile 7) soloConfig.ino = some (regularFile 7) := by decide +kernel
  have hruns : ∀ a ∈ grownWrites, a.req.ino = soloConfig.ino ∧
      RunsFor a.req.data.length a.runs := by decide +kernel
  have hfirst : ∀ qs ∈ planWrites soloConfig ⟨regularFile 7, getExtents (freshFile 7) 7⟩
      grownWrites, ∀ q ∈ qs, ∀ x ∈ q.1.cmps, ∀ k ∈ x.key, ComparesFirst qs k := by
    decide +kernel
  obtain ⟨qs, hplan, hiff⟩ := folded_txn_iff hrec hruns
  refine ⟨qs, hplan, hiff.mpr ?_⟩
  rintro k ⟨q, hq, x, hx, hk⟩
  exact hfirst qs hplan q hq x hx k hk

/-! ## The second half of a split -/

def threeByteFile : Etcd := (freshFile 7).commit [.put (.extent 7 0) ⟨0, 0, 3, 0, 0, "a"⟩]

def splitWrites : List WriteAct :=
  [soloWrite false 1 [7] 1 middle_ne middle_bound,
    soloWrite false 0 [1, 2, 3] 2 three_bytes_ne three_bytes_bound]

/-- The second write compares chunk 2, where the first put the second half. The
buffer does not, and is accepted over a record that a peer published there. -/
theorem split_not_folded : ∃ qs,
    planWrites soloConfig ⟨regularFile 7, getExtents threeByteFile 7⟩ splitWrites = some qs ∧
      Compared qs (.extent 7 2) ∧ ¬ FoldsTo threeByteFile qs (foldBuffer qs) := by
  have hrun : ∃ qs ∈ planWrites soloConfig ⟨regularFile 7, getExtents threeByteFile 7⟩
      splitWrites, (∃ q ∈ qs, q.1.Compares (.extent 7 2)) ∧
        ((threeByteFile.commit [.put (.extent 7 2) anyExtent]).txn (foldBuffer qs).txn.1
          (foldBuffer qs).txn.2).isSome = true := by
    decide +kernel
  obtain ⟨qs, hplan, hcmp, hsome⟩ := hrun
  refine ⟨qs, hplan, hcmp, fun h => ?_⟩
  have hlater := (Store.Later.refl threeByteFile).commit [.put (.extent 7 2) anyExtent]
  have hsame := (h.accepts _ hlater).mp hsome _ hcmp
  exact (get_commit_putExtent threeByteFile 7 2 anyExtent _).mp hsame rfl

end EtcFS.Correctness
