import EtcFS.Ipc.Coherence

/-!
# Folding proposals into one buffer

The buffer's transaction does what the operations of its proposals do in turn. It compares a key if
the first proposal that writes it does.
-/

namespace EtcFS.Ipc

open EtcFS.Core Metadata Arena List Option

def planWrites (c : FileConfig) : InodeMeta → List WriteAct → Option (List (Proposal × Nat))
  | _, [] => some []
  | m, a :: as =>
    let p := proposal c.node a.req a.runs m.record m.extents
    (replayTxn c.ino m.record p.ops).bind fun replay =>
      (planWrites c (replay.apply m 0) as).map ((p, a.heldBytes (a.hold 0)) :: ·)

def Pending.join (b : Pending) (q : Proposal × Nat) : Pending :=
  b.add q.1.cmps q.1.ops q.1.plans q.2

def foldBuffer (qs : List (Proposal × Nat)) : Pending := qs.foldl Pending.join .none

def applyInTurn (qs : List (Proposal × Nat)) (s : Etcd) : Etcd :=
  qs.foldl (fun s q => s.commit q.1.ops) s

def Proposal.Compares (p : Proposal) (k : Key) : Prop := ∃ x ∈ p.cmps, x.key = some k
  deriving Decidable

def Compared (qs : List (Proposal × Nat)) (k : Key) : Prop := ∃ q ∈ qs, q.1.Compares k

def ComparesFirst : List (Proposal × Nat) → Key → Prop
  | [], _ => False
  | q :: qs, k => q.1.Compares k ∨ (¬ Owned q.1.ops (some k) ∧ ComparesFirst qs k)

instance decidableComparesFirst : (qs : List (Proposal × Nat)) → (k : Key) →
    Decidable (ComparesFirst qs k)
  | [], _ => inferInstanceAs (Decidable False)
  | _ :: qs, k =>
    letI := decidableComparesFirst qs k
    inferInstanceAs (Decidable (_ ∨ (_ ∧ _)))

/-! ## What the buffer holds -/

section

variable {qs : List (Proposal × Nat)} {q : Proposal × Nat} {k : Key}

theorem foldBuffer_snoc (qs : List (Proposal × Nat)) (q : Proposal × Nat) :
    foldBuffer (qs ++ [q]) = (foldBuffer qs).join q := by
  rw [foldBuffer, foldl_append]
  rfl

theorem foldBuffer_ops (qs : List (Proposal × Nat)) : ((foldBuffer qs).ops.map Op.key).Nodup ∧
      ∀ k, effect k (foldBuffer qs).ops = effect k (qs.flatMap fun q => q.1.ops) := by
  induction qs using reverseRecOn with
  | nil => exact ⟨nodup_nil, fun _ => rfl⟩
  | append_singleton qs q ih =>
    obtain ⟨hn, heff⟩ := foldl_setOp ih.1 q.1.ops
    rw [foldBuffer_snoc]
    refine ⟨hn, fun k => (heff k).trans ?_⟩
    rw [flatMap_append, flatMap_singleton, effect_append, effect_append, ih.2]

theorem not_owned_foldBuffer : ¬ Owned (foldBuffer qs).ops (some k) ↔
    ∀ q ∈ qs, ¬ Owned q.1.ops (some k) := by
  rw [not_owned_iff, (foldBuffer_ops qs).2, effect_eq_none_iff]
  simp only [mem_flatMap, Owned, some.injEq, not_exists, not_and]
  constructor
  · exact fun h q hq op hop => h op ⟨q, hq, hop⟩
  · rintro h op ⟨q, hq, hop⟩
    exact h q hq op hop

theorem comparesFirst_snoc : ComparesFirst (qs ++ [q]) k ↔ ComparesFirst qs k ∨ (q.1.Compares k ∧
      ∀ q' ∈ qs, ¬ q'.1.Compares k ∧ ¬ Owned q'.1.ops (some k)) := by
  induction qs with
  | nil => simp [ComparesFirst]
  | cons q' qs ih =>
    rw [cons_append, ComparesFirst, ComparesFirst, ih, forall_mem_cons]
    tauto

theorem ComparesFirst.compared (h : ComparesFirst qs k) : Compared qs k := by
  induction qs with
  | nil => exact h.elim
  | cons q qs ih =>
    rcases h with h | ⟨-, h⟩
    · exact ⟨q, mem_cons_self, h⟩
    · obtain ⟨q', hq', h'⟩ := ih h
      exact ⟨q', mem_cons_of_mem _ hq', h'⟩

theorem foldBuffer_compares (hself : ∀ q ∈ qs, ∀ k, q.1.Compares k → Owned q.1.ops (some k)) :
    (∃ x ∈ (foldBuffer qs).cmps, x.key = some k) ↔ ComparesFirst qs k := by
  induction qs using reverseRecOn with
  | nil => exact ⟨fun ⟨x, hx, _⟩ => (nomatch hx), False.elim⟩
  | append_singleton qs q ih =>
    have hqs := fun q' hq' => hself q' (mem_append_left _ hq')
    rw [foldBuffer_snoc, Pending.join, exists_key_add_cmps, ih hqs, comparesFirst_snoc,
      not_owned_foldBuffer]
    refine or_congr_right (and_congr_right fun _ => forall₂_congr fun q' hq' => ?_)
    exact ⟨fun h => ⟨fun hk => h (hqs q' hq' k hk), h⟩, And.right⟩

theorem foldBuffer_txn_compares (hself : ∀ q ∈ qs, ∀ k, q.1.Compares k → Owned q.1.ops (some k)) :
    (∃ x ∈ (foldBuffer qs).txn.1, x.key = some k) ↔ ComparesFirst qs k := by
  rw [← foldBuffer_compares hself]
  constructor
  · rintro ⟨x, hx, hk⟩
    exact ⟨x, mem_txn_cmps hx, hk⟩
  · intro h
    refine exists_key_txn_cmps ?_ h
    obtain ⟨q, hq, hk⟩ := ((foldBuffer_compares hself).mp h).compared
    by_contra hnot
    exact not_owned_foldBuffer.mp hnot q hq (hself q hq k hk)

theorem txn_cmps_nodup {b : Pending} (hn : (b.ops.map Op.key).Nodup) :
    (b.txn.1.map Cmp.key).Nodup := by
  unfold Pending.txn
  generalize b.ops = ops at hn
  induction ops with
  | nil => exact nodup_nil
  | cons op ops ih =>
    rw [map_cons, nodup_cons] at hn
    rw [filterMap_cons]
    split
    · exact ih hn.2
    · rename_i x hx
      rw [map_cons, nodup_cons]
      refine ⟨fun hmem => hn.1 ?_, ih hn.2⟩
      obtain ⟨y, hy, hkey⟩ := mem_map.mp hmem
      obtain ⟨o, ho, hf⟩ := mem_filterMap.mp hy
      have hyo := find?_some hf
      have hxo := find?_some hx
      rw [decide_eq_true_eq] at hyo hxo
      rw [hkey, hxo, some.injEq] at hyo
      exact mem_map.mpr ⟨o, ho, hyo.symm⟩

/-! ## The key map a commit leaves -/

theorem applyInTurn_value (qs : List (Proposal × Nat)) (s : Etcd) (k : Key) :
    ((applyInTurn qs s).get k).map Versioned.value =
      ((s.commit (qs.flatMap fun q => q.1.ops)).get k).map Versioned.value := by
  induction qs generalizing s with
  | nil => rw [Store.commit_value]; rfl
  | cons q qs ih =>
    have hstep : applyInTurn (q :: qs) s = applyInTurn qs (s.commit q.1.ops) := rfl
    rw [hstep, ih, Store.commit_value, Store.commit_value, Store.commit_value, flatMap_cons,
      effect_append]
    cases effect k (qs.flatMap fun q => q.1.ops) <;> rfl

theorem foldBuffer_value (qs : List (Proposal × Nat)) (s : Etcd) (k : Key) :
    ((s.commit (foldBuffer qs).ops).get k).map Versioned.value =
      ((applyInTurn qs s).get k).map Versioned.value := by
  rw [applyInTurn_value, Store.commit_value, Store.commit_value, (foldBuffer_ops qs).2]

end

/-! ## Proposals of writes -/

section

variable {n : Node} {w : WriteReq} {runs : List Run} {rec : InodeRecord} {existing : List Extent}

theorem owned_append {ops ops' : List (Op Val)} {k : Option Key} :
    Owned (ops ++ ops') k ↔ Owned ops k ∨ Owned ops' k := by
  simp only [Owned, mem_append, or_and_right, exists_or]

theorem owned_extentPuts {ino chunk : Nat} {vs : List ExtentValue} {x : Cmp Val}
    (h : x ∈ extentAbsent ino chunk vs) : Owned (extentPuts ino chunk vs) x.key := by
  induction vs generalizing chunk with
  | nil => cases h
  | cons v vs ih =>
    rcases mem_cons.mp h with rfl | h
    · exact ⟨_, mem_cons_self, rfl⟩
    · obtain ⟨op, hop, hk⟩ := ih h
      exact ⟨op, mem_cons_of_mem _ hop, hk⟩

theorem planReclaim_writes {ino start stop next next' : Nat} {e : Extent} {plan : ReclaimPlan}
    (h : planReclaim n ino e start stop next = (some plan, next')) :
    Owned plan.ops plan.cmp.key ∧ ∀ op ∈ plan.ops, ∃ chunk, op.key = .extent ino chunk := by
  obtain ⟨-, hcmp, -, -, hkeys⟩ := planReclaim_some h
  have hmem : Key.extent ino e.chunk ∈ plan.ops.map Op.key := by
    rcases hkeys with ⟨-, hkeys⟩ | ⟨-, hkeys⟩ <;>
      exact hkeys ▸ mem_cons_self
  obtain ⟨op, hop, hk⟩ := mem_map.mp hmem
  refine ⟨⟨op, hop, ?_⟩, fun op hop => ?_⟩
  · rw [hcmp, hk]
    rfl
  · exact (planReclaim_key h hop).elim (fun hk => ⟨_, hk⟩) fun hk => ⟨_, hk.1⟩

theorem owned_of_mem_cmps {x : Cmp Val} (hx : x ∈ (proposal n w runs rec existing).cmps) :
    Owned (proposal n w runs rec existing).ops x.key := by
  revert x
  refine proposal_induction (P := fun cmps ops => ∀ {x : Cmp Val}, x ∈ cmps → Owned ops x.key) ?_ ?_
  · exact fun hx => owned_append.mpr (.inl (owned_extentPuts hx))
  · intro cmps ops e plan stop next next' _ hplan _ _ ih x hx
    rw [owned_append]
    rcases mem_append.mp hx with hx | hx
    · exact .inl (ih hx)
    · rw [mem_singleton.mp hx]
      exact .inr (planReclaim_writes hplan).1

theorem proposal_writes_inode {op : Op Val} (hop : op ∈ (proposal n w runs rec existing).ops) :
    (∃ v, op = .put (.inode w.ino) v) ∨ ∃ chunk, op.key = .extent w.ino chunk := by
  revert op
  refine proposal_induction (P := fun _ ops => ∀ {op : Op Val}, op ∈ ops →
    (∃ v, op = .put (.inode w.ino) v) ∨ ∃ chunk, op.key = .extent w.ino chunk) ?_ ?_
  · intro op hop
    rcases mem_append.mp hop with hop | hop
    · obtain ⟨k, hk, -⟩ := mem_extentPuts hop
      exact .inr ⟨k, hk⟩
    · split at hop
      · exact .inl ⟨_, mem_singleton.mp hop⟩
      · cases hop
  · intro cmps ops e plan stop next next' _ hplan _ _ ih op hop
    rcases mem_append.mp hop with hop | hop
    · exact ih hop
    · exact .inr ((planReclaim_writes hplan).2 op hop)

end

end EtcFS.Ipc
