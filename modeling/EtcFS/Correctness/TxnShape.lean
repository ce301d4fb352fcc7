import EtcFS.Arena.Search
import EtcFS.Ipc.FlushBatch

/-!
# The size of the write path's transactions

etcd takes at most 128 operations and 128 comparisons in a transaction, and no key twice among
either.
-/

namespace EtcFS.Correctness

open EtcFS.Core Metadata Ipc Arena List Option

structure Submittable (t : FlushTxn) : Prop where
  ops_le : t.2.length ≤ etcdMaxTxnOps
  cmps_le : t.1.length ≤ etcdMaxTxnOps
  ops_nodup : (t.2.map Op.key).Nodup
  cmps_nodup : (t.1.map Cmp.key).Nodup

inductive Accumulated (n : Node) (ino : Nat) : Pending → Prop
  | none : Accumulated n ino .none
  | join {b : Pending} {w : WriteReq} {runs : List Run} {rec : InodeRecord}
      {existing : List Extent} {s : Etcd} (bytes : Nat) (hb : Accumulated n ino b)
      (hino : w.ino = ino) (hd : Describes w.ino existing s)
      (hr : RunsFor w.data.length runs) (hfew : runs.length + 2 ≤ etcdMaxTxnOps)
      (hroom : b.isEmpty = true ∨
        b.ops.length + (proposal n w runs rec existing).ops.length ≤ maxWriteTxnOps) :
      Accumulated n ino (b.join (proposal n w runs rec existing, bytes))
  | payload {b : Pending} (data : List BufferedRun) (runs : List Run)
      (hb : Accumulated n ino b) : Accumulated n ino { b with data := data, runs := runs }

/-! ## The size of one write's proposal -/

section

variable {n : Node} {w : WriteReq} {runs : List Run} {rec : InodeRecord}
  {existing : List Extent} {s : Etcd}

theorem start_cmps_length : (Proposal.start n w runs rec existing).cmps.length = runs.length := by
  rw [Proposal.start, extentAbsent_length, newExtents_length]

theorem start_ops_length : (Proposal.start n w runs rec existing).ops.length ≤ runs.length + 1 := by
  rw [Proposal.start, length_append, extentPuts_length, newExtents_length]
  refine Nat.add_le_add_left ?_ _
  split
  · exact le_rfl
  · exact Nat.zero_le _

theorem planReclaim_keys {ino start stop next next' : Nat} {e : Extent} {plan : ReclaimPlan}
    (h : planReclaim n ino e start stop next = (some plan, next')) :
    plan.ops.length ≤ maxReclaimOps ∧
      [plan.cmp.key].Sublist (plan.ops.map fun op => some op.key) := by
  obtain ⟨-, hcmp, -, -, hkeys⟩ := planReclaim_some h
  have hsome : (plan.ops.map fun op => some op.key) = (plan.ops.map Op.key).map some := by
    rw [List.map_map]
    rfl
  rw [hcmp, hsome, ← List.length_map (f := Op.key)]
  rcases hkeys with ⟨-, hkeys⟩ | ⟨-, hkeys⟩
  · rw [hkeys]
    exact ⟨Nat.le_succ 1, List.Sublist.refl _⟩
  · rw [hkeys]
    exact ⟨Nat.le_refl 2, List.Sublist.cons_cons _ (nil_sublist _)⟩

theorem proposal_size :
    (proposal n w runs rec existing).cmps.length ≤ max runs.length maxWriteTxnOps ∧
      (proposal n w runs rec existing).ops.length ≤ max (runs.length + 1) maxWriteTxnOps := by
  refine proposal_induction (P := fun cmps ops => cmps.length ≤ max runs.length maxWriteTxnOps ∧
    ops.length ≤ max (runs.length + 1) maxWriteTxnOps) ?_ ?_
  · exact ⟨start_cmps_length.trans_le (le_max_left _ _), start_ops_length.trans (le_max_left _ _)⟩
  · intro cmps ops e plan stop next next' _ hplan hops hcmps _
    have hlen := (planReclaim_keys hplan).1
    rw [length_append, length_append, length_singleton]
    constructor
    · exact hcmps.trans (le_max_right _ _)
    · exact le_trans (by omega) (le_max_right _ _)

theorem start_cmps_sublist : (Proposal.start n w runs rec existing).cmps <+
    (proposal n w runs rec existing).cmps := by
  refine proposal_induction (P := fun cmps _ =>
    (Proposal.start n w runs rec existing).cmps <+ cmps) (List.Sublist.refl _) ?_
  intro cmps ops e plan stop next next' _ _ _ _ ih
  exact ih.trans (sublist_append_left _ _)

theorem le_proposal_cmps_length : runs.length ≤ (proposal n w runs rec existing).cmps.length :=
  start_cmps_length.ge.trans start_cmps_sublist.length_le

theorem extentAbsent_keys (ino chunk : Nat) (vs : List ExtentValue) :
    (extentAbsent ino chunk vs).map Cmp.key =
      (extentPuts ino chunk vs).map fun op => some op.key := by
  induction vs generalizing chunk with
  | nil => rfl
  | cons v vs ih =>
    rw [extentAbsent, extentPuts, map_cons, map_cons, ih]
    rfl

theorem proposal_cmps_sublist : ((proposal n w runs rec existing).cmps.map Cmp.key).Sublist
    ((proposal n w runs rec existing).ops.map fun op => some op.key) := by
  refine proposal_induction (P := fun cmps ops =>
    (cmps.map Cmp.key).Sublist (ops.map fun op => some op.key)) ?_ ?_
  · rw [Proposal.start, extentAbsent_keys, map_append]
    exact sublist_append_left _ _
  · intro cmps ops e plan stop next next' _ hplan _ _ ih
    rw [map_append, map_append]
    exact ih.append (planReclaim_keys hplan).2

end

/-! ## Transactions about some inodes -/

def OfInode (ino : Nat) : Key → Prop
  | .inode i | .extent i _ | .lock i _ _ => i = ino
  | .gen _ => False

def FileKey (ino : Nat) (k : Key) : Prop := k = .inode ino ∨ ∃ chunk, k = .extent ino chunk

/-- Distinct keys, each about one of the inodes. -/
structure KeysOf (inos : List Nat) (ks : List (Option Key)) : Prop where
  nodup : ks.Nodup
  of : ∀ k ∈ ks, ∃ ino ∈ inos, ∃ k', k = some k' ∧ OfInode ino k'

structure Publishable (inos : List Nat) (t : FlushTxn) : Prop where
  ops_le : t.2.length ≤ etcdMaxTxnOps
  cmps_lt : t.1.length < etcdMaxTxnOps
  ops : KeysOf inos (t.2.map fun op => some op.key)
  cmps : KeysOf inos (t.1.map Cmp.key)

theorem FileKey.ofInode {ino : Nat} {k : Key} (h : FileKey ino k) : OfInode ino k := by
  rcases h with rfl | ⟨chunk, rfl⟩ <;> exact rfl

theorem OfInode.inj {i j : Nat} {k : Key} (hi : OfInode i k) (hj : OfInode j k) : i = j := by
  cases k with
  | inode | extent | lock => exact hi.symm.trans hj
  | gen => exact hi.elim

namespace KeysOf

variable {inos inos' : List Nat} {ks ks' : List (Option Key)}

theorem nil (inos : List Nat) : KeysOf inos [] := ⟨nodup_nil, fun _ hk => absurd hk not_mem_nil⟩

theorem eq_nil (h : KeysOf [] ks) : ks = [] := by
  refine eq_nil_iff_forall_not_mem.mpr fun k hk => ?_
  obtain ⟨ino, hino, -⟩ := h.of k hk
  exact not_mem_nil hino

theorem sublist (h : KeysOf inos ks) (hsub : ks' <+ ks) : KeysOf inos ks' :=
  ⟨h.nodup.sublist hsub, fun k hk => h.of k (hsub.subset hk)⟩

theorem append (h : KeysOf inos ks) (h' : KeysOf inos' ks') (hdisj : inos.Disjoint inos') :
    KeysOf (inos ++ inos') (ks ++ ks') where
  nodup := by
    refine h.nodup.append h'.nodup fun k hk hk' => ?_
    obtain ⟨i, hi, x, rfl, hof⟩ := h.of k hk
    obtain ⟨j, hj, y, hy, hof'⟩ := h'.of _ hk'
    cases hy
    exact hdisj hi (hof.inj hof' ▸ hj)
  of k hk := by
    rcases mem_append.mp hk with hk | hk
    · obtain ⟨i, hi, hof⟩ := h.of k hk
      exact ⟨i, mem_append_left _ hi, hof⟩
    · obtain ⟨i, hi, hof⟩ := h'.of k hk
      exact ⟨i, mem_append_right _ hi, hof⟩

end KeysOf

theorem nodup_map_some {ops : List (Op Val)} :
    (ops.map fun op => some op.key).Nodup ↔ (ops.map Op.key).Nodup := by
  rw [← Function.comp_def, ← List.map_map]
  exact nodup_map_iff (some_injective _)

theorem keysOf_ops {ino : Nat} {ops : List (Op Val)} (hnodup : (ops.map Op.key).Nodup)
    (hof : ∀ op ∈ ops, OfInode ino op.key) : KeysOf [ino] (ops.map fun op => some op.key) where
  nodup := nodup_map_some.mpr hnodup
  of k hk := by
    obtain ⟨op, hop, rfl⟩ := mem_map.mp hk
    exact ⟨ino, mem_singleton_self _, op.key, rfl, hof op hop⟩

namespace Publishable

variable {n : Node} {inos inos' : List Nat} {t u : FlushTxn}

theorem guarded (h : Publishable inos t) : Submittable (n.guarded t) where
  ops_le := h.ops_le
  cmps_le := h.cmps_lt
  ops_nodup := nodup_map_some.mp h.ops.nodup
  cmps_nodup := by
    refine nodup_cons.mpr ⟨fun hmem => ?_, h.cmps.nodup⟩
    obtain ⟨ino, -, k, hk, hof⟩ := h.cmps.of _ hmem
    cases hk
    exact hof

theorem append (h : Publishable inos t) (h' : Publishable inos' u) (hdisj : inos.Disjoint inos')
    (hops : t.2.length + u.2.length ≤ maxWriteTxnOps)
    (hcmps : t.1.length + u.1.length ≤ maxWriteTxnOps) :
    Publishable (inos ++ inos') (t.1 ++ u.1, t.2 ++ u.2) where
  ops_le := (length_append.trans_le hops).trans (by decide)
  cmps_lt := (length_append.trans_le hcmps).trans_lt (by decide)
  ops := map_append ▸ h.ops.append h'.ops hdisj
  cmps := map_append ▸ h.cmps.append h'.cmps hdisj

end Publishable

/-! ## Commits and reclaims of one write -/

section

variable {n : Node} {w : WriteReq} {runs : List Run} {rec : InodeRecord}
  {existing : List Extent} {s : Etcd}

theorem proposal_ops_of {op : Op Val} (hop : op ∈ (proposal n w runs rec existing).ops) :
    FileKey w.ino op.key := by
  rcases proposal_writes_inode hop with ⟨v, rfl⟩ | h
  · exact .inl rfl
  · exact .inr h

theorem commit_submittable_iff (hd : Describes w.ino existing s) (hr : RunsFor w.data.length runs) :
    Submittable (n.guarded ((proposal n w runs rec existing).cmps,
      (proposal n w runs rec existing).ops)) ↔ runs.length + 1 ≤ etcdMaxTxnOps := by
  have hsize := @proposal_size n w runs rec existing
  constructor
  · exact fun h => (Nat.succ_le_succ le_proposal_cmps_length).trans h.cmps_le
  · intro hfew
    have hops : KeysOf [w.ino] ((proposal n w runs rec existing).ops.map fun op => some op.key) :=
      keysOf_ops (tracks_proposal hd hr).keys_nodup fun op hop => (proposal_ops_of hop).ofInode
    have hpub : Publishable [w.ino] ((proposal n w runs rec existing).cmps,
        (proposal n w runs rec existing).ops) :=
      ⟨hsize.2.trans (max_le hfew (by decide)), hsize.1.trans_lt (max_lt hfew (by decide)), hops,
        hops.sublist proposal_cmps_sublist⟩
    exact hpub.guarded

theorem reclaim_submittable {ino start stop next next' : Nat} {e : Extent} {plan : ReclaimPlan}
    (hplan : planReclaim n ino e start stop next = (some plan, next')) (hlt : e.chunk < next) :
    Submittable (n.guarded ([plan.cmp], plan.ops)) := by
  obtain ⟨hlen, hsub⟩ := planReclaim_keys hplan
  have hops : KeysOf [ino] (plan.ops.map fun op => some op.key) := by
    refine keysOf_ops (planReclaim_keys_nodup hplan hlt) fun op hop => ?_
    obtain ⟨chunk, hk⟩ := (planReclaim_writes hplan).2 op hop
    rw [hk]
    rfl
  have hpub : Publishable [ino] ([plan.cmp], plan.ops) :=
    ⟨hlen.trans (by decide), Nat.lt_of_sub_eq_succ rfl, hops, hops.sublist hsub⟩
  exact hpub.guarded

end

/-! ## Buffers -/

section

variable {n : Node} {ino : Nat} {b : Pending}

theorem setOp_length (ops : List (Op Val)) (op : Op Val) :
    (setOp ops op).length ≤ ops.length + 1 := by
  unfold setOp
  split
  · rw [length_map]
    exact Nat.le_succ _
  · exact length_append.le

theorem foldl_setOp_length (ops new : List (Op Val)) :
    (new.foldl setOp ops).length ≤ ops.length + new.length := by
  induction new generalizing ops with
  | nil => exact le_rfl
  | cons op new ih =>
    have hset := setOp_length ops op
    rw [foldl_cons, length_cons]
    exact (ih _).trans (by omega)

theorem length_foldl_setCmp {ops : List (Op Val)} (cmps m : List (Cmp Val)) :
    (cmps.foldl (fun m c => if Owned ops c.key then m else setCmp m c) m).length ≤
      m.length + cmps.length := by
  induction cmps generalizing m with
  | nil => exact le_rfl
  | cons c cmps ih =>
    rw [foldl_cons, length_cons]
    refine (ih _).trans ?_
    split
    · omega
    · have hfilter := length_filter_le (fun c' : Cmp Val => decide (c'.key ≠ c.key)) m
      rw [setCmp, length_append, length_singleton]
      omega

theorem owned_foldl_setOp {ops new : List (Op Val)} (hn : (ops.map Op.key).Nodup) {k : Key} :
    Owned (new.foldl setOp ops) (some k) ↔ Owned ops (some k) ∨ Owned new (some k) := by
  rw [← owned_append, ← not_iff_not, not_owned_iff, not_owned_iff, (foldl_setOp hn new).2]

theorem txn_cmps_length (hn : (b.ops.map Op.key).Nodup) : b.txn.1.length ≤ b.cmps.length := by
  have hnodup : b.txn.1.Nodup := (txn_cmps_nodup hn).of_map
  exact (subperm_of_subset hnodup fun x hx => mem_txn_cmps hx).length_le

structure Roomy (ino : Nat) (b : Pending) : Prop where
  ops_nodup : (b.ops.map Op.key).Nodup
  owned : ∀ x ∈ b.cmps, Owned b.ops x.key
  ops_of : ∀ op ∈ b.ops, FileKey ino op.key
  ops_le : b.ops.length ≤ etcdMaxTxnOps
  cmps_le : b.txn.1.length + 2 ≤ etcdMaxTxnOps

variable {existing : List Extent}

theorem Roomy.join {w : WriteReq} {runs : List Run} {rec : InodeRecord}
    (h : Roomy w.ino b) (bytes : Nat)
    (hfew : runs.length + 2 ≤ etcdMaxTxnOps)
    (hroom : b.isEmpty = true ∨
      b.ops.length + (proposal n w runs rec existing).ops.length ≤ maxWriteTxnOps) :
    Roomy w.ino (b.join (proposal n w runs rec existing, bytes)) := by
  have hsize := @proposal_size n w runs rec existing
  have hcap : maxWriteTxnOps + 2 ≤ etcdMaxTxnOps := by decide
  have hnodup : ((b.join (proposal n w runs rec existing, bytes)).ops.map Op.key).Nodup :=
    (foldl_setOp h.ops_nodup (proposal n w runs rec existing).ops).1
  have hlen : (b.join (proposal n w runs rec existing, bytes)).ops.length ≤
      b.ops.length + (proposal n w runs rec existing).ops.length := foldl_setOp_length _ _
  refine ⟨hnodup, fun x hx => ?_, fun op hop => ?_, ?_, ?_⟩
  · obtain ⟨y, hy, hk⟩ | ⟨⟨y, hy, hk⟩, -⟩ := exists_key_add_cmps.mp ⟨x, hx, rfl⟩
    · obtain ⟨op, hop, hop'⟩ := h.owned y hy
      rw [← hk, ← hop']
      exact (owned_foldl_setOp h.ops_nodup).mpr (.inl ⟨op, hop, rfl⟩)
    · obtain ⟨op, hop, hop'⟩ := owned_of_mem_cmps hy
      rw [← hk, ← hop']
      exact (owned_foldl_setOp h.ops_nodup).mpr (.inr ⟨op, hop, rfl⟩)
  · obtain ⟨o, ho, hk⟩ | ⟨o, ho, hk⟩ :=
      (owned_foldl_setOp h.ops_nodup).mp ⟨op, hop, rfl⟩
    · rw [← some.inj hk]
      exact h.ops_of o ho
    · rw [← some.inj hk]
      exact proposal_ops_of ho
  · rcases hroom with hempty | hroom
    · rw [isEmpty_iff.mp hempty, length_nil] at hlen
      omega
    · omega
  · rcases hroom with hempty | hroom
    · -- An empty buffer compares nothing yet, so the comparisons are the write's own.
      have hcmps : b.cmps = [] := by
        refine eq_nil_iff_forall_not_mem.mpr fun x hx => ?_
        obtain ⟨op, hop, -⟩ := h.owned x hx
        rw [isEmpty_iff.mp hempty] at hop
        exact not_mem_nil hop
      have hset : (b.join (proposal n w runs rec existing, bytes)).cmps.length ≤
          b.cmps.length + (proposal n w runs rec existing).cmps.length :=
        length_foldl_setCmp _ _
      have htxn := txn_cmps_length hnodup
      rw [hcmps, length_nil] at hset
      omega
    · have htxn : (b.join (proposal n w runs rec existing, bytes)).txn.1.length ≤
          (b.join (proposal n w runs rec existing, bytes)).ops.length :=
        length_filterMap_le _ _
      omega

theorem roomy_of_not_full {c : FileConfig} {st : FileState} {p : Proposal} {bytes : Nat}
    (h : ¬st.Full c p bytes) : st.pending.isEmpty = true ∨
      st.pending.ops.length + p.ops.length ≤ maxWriteTxnOps := by
  rw [FileState.Full, not_and_or, not_or, Bool.not_eq_false] at h
  exact h.imp_right fun h => not_lt.mp h.1

theorem Accumulated.roomy (h : Accumulated n ino b) : Roomy ino b := by
  induction h with
  | none =>
    exact ⟨nodup_nil, fun _ hx => (nomatch hx),
      fun _ hop => (nomatch hop), Nat.zero_le _, by decide⟩
  | join bytes _ hino _ _ hfew hroom ih =>
    subst hino
    exact ih.join bytes hfew hroom
  | payload data runs _ ih => exact ⟨ih.ops_nodup, ih.owned, ih.ops_of, ih.ops_le, ih.cmps_le⟩

theorem Roomy.publishable (h : Roomy ino b) (mode : LockMode) (holder : Holder) :
    Publishable [ino] (b.flushTxn ino mode holder) where
  ops_le := h.ops_le
  cmps_lt := by
    rw [Pending.flushTxn, length_append]
    exact h.cmps_le
  ops := keysOf_ops h.ops_nodup fun op hop => (h.ops_of op hop).ofInode
  cmps := by
    rw [Pending.flushTxn, map_append]
    refine ⟨(txn_cmps_nodup h.ops_nodup).append (nodup_singleton _) fun k hk hk' => ?_,
      fun k hk => ?_⟩
    · obtain ⟨x, hx, rfl⟩ := mem_map.mp hk
      obtain ⟨op, hop, hop'⟩ := h.owned x (mem_txn_cmps hx)
      have hlock : op.key = .lock ino mode holder := some.inj (hop'.trans (mem_singleton.mp hk'))
      rcases h.ops_of op hop with hfile | ⟨chunk, hfile⟩ <;> cases hlock.symm.trans hfile
    · rcases mem_append.mp hk with hk | hk
      · obtain ⟨x, hx, rfl⟩ := mem_map.mp hk
        obtain ⟨op, hop, hop'⟩ := h.owned x (mem_txn_cmps hx)
        exact ⟨ino, mem_singleton_self _, op.key, hop'.symm, (h.ops_of op hop).ofInode⟩
      · rw [mem_singleton.mp hk]
        exact ⟨ino, mem_singleton_self _, _, rfl, rfl⟩

theorem le_txn_cmps_length {w : WriteReq} {runs : List Run} {rec : InodeRecord} {s : Etcd}
    (hd : Describes w.ino existing s) (hr : RunsFor w.data.length runs) (bytes : Nat) :
    runs.length ≤ (Pending.none.join (proposal n w runs rec existing, bytes)).txn.1.length := by
  have hnodup : ((Proposal.start n w runs rec existing).cmps.map Cmp.key).Nodup := by
    have hsub : ((Proposal.start n w runs rec existing).cmps.map Cmp.key).Sublist
        ((Proposal.start n w runs rec existing).ops.map fun op => some op.key) := by
      rw [Proposal.start, extentAbsent_keys, map_append]
      exact sublist_append_left _ _
    exact hsub.nodup (nodup_map_some.mpr (tracks_start hd hr).keys_nodup)
  have hsubset : (Proposal.start n w runs rec existing).cmps.map Cmp.key ⊆
      (Pending.none.join (proposal n w runs rec existing, bytes)).txn.1.map Cmp.key := by
    intro k hk
    obtain ⟨x, hx, rfl⟩ := mem_map.mp hk
    obtain ⟨op, hop, hkey⟩ := owned_of_mem_cmps (start_cmps_sublist.subset hx)
    rw [← hkey]
    refine mem_map.mpr (exists_key_txn_cmps ?_ (exists_key_add_cmps.mpr (.inr ⟨?_, ?_⟩)))
    · have hnil : (Pending.none.ops.map Op.key).Nodup := nodup_nil
      exact (owned_foldl_setOp hnil).mpr (.inr ⟨op, hop, rfl⟩)
    · exact ⟨x, start_cmps_sublist.subset hx, hkey.symm⟩
    · rintro ⟨_, hmem, -⟩
      cases hmem
  have hle := (subperm_of_subset hnodup hsubset).length_le
  rwa [length_map, length_map, start_cmps_length] at hle

theorem flush_submittable_iff {w : WriteReq} {runs : List Run} {rec : InodeRecord}
    {s : Etcd} (hd : Describes w.ino existing s)
    (hr : RunsFor w.data.length runs) (bytes : Nat) (mode : LockMode) (holder : Holder) :
    Submittable (n.guarded ((Pending.none.join (proposal n w runs rec existing, bytes)).flushTxn
      w.ino mode holder)) ↔ runs.length + 2 ≤ etcdMaxTxnOps := by
  constructor
  · intro h
    have hle := h.cmps_le
    rw [Node.guarded, Pending.flushTxn, length_cons, length_append,
      length_singleton] at hle
    exact (Nat.add_le_add_right (le_txn_cmps_length hd hr bytes) 2).trans hle
  · intro hfew
    have hacc : Accumulated n w.ino (Pending.none.join (proposal n w runs rec existing, bytes)) :=
      .join bytes .none rfl hd hr hfew (.inl rfl)
    exact (hacc.roomy.publishable mode holder).guarded

end

/-! ## Sweeps -/

section

variable {n : Node}

variable {t : FlushTxn}

theorem propose_publishable {e : FlushEntry}
    (h : Roomy e.ino e.pending) (ht : e.propose = some t) : Publishable [e.ino] t := by
  obtain ⟨-, hmap⟩ := ite_none_right_eq_some.mp ht
  obtain ⟨holder, -, rfl⟩ := map_eq_some_iff.mp hmap
  exact h.publishable e.mode holder

def AboutMembers (b : FlushBatch) : Prop :=
  Publishable (b.entries.map FlushEntry.ino) (b.cmps, b.ops)

theorem about_none : AboutMembers .none := ⟨Nat.zero_le _, by decide, .nil _, .nil _⟩

theorem about_add {b : FlushBatch} {e : FlushEntry}
    (h : AboutMembers b) (ht : Publishable [e.ino] t) (hfits : b.fits t = true)
    (hnew : e.ino ∉ b.entries.map FlushEntry.ino) : AboutMembers (b.add e t) := by
  rw [AboutMembers, FlushBatch.add, map_append]
  rw [FlushBatch.fits, Bool.or_eq_true, Bool.and_eq_true, decide_eq_true_eq,
    decide_eq_true_eq] at hfits
  rcases hfits with hempty | ⟨hops, hcmps⟩
  · rw [AboutMembers, isEmpty_iff.mp hempty] at h
    have hcmps : b.cmps = [] := map_eq_nil_iff.mp h.cmps.eq_nil
    have hops : b.ops = [] := map_eq_nil_iff.mp h.ops.eq_nil
    rw [isEmpty_iff.mp hempty, hcmps, hops]
    exact ht
  · exact h.append ht (disjoint_singleton.mpr hnew) hops hcmps

theorem submitted_submittable {b : FlushBatch} (h : AboutMembers b)
    (ht : t ∈ b.submitted n) : Submittable t := by
  unfold FlushBatch.submitted at ht
  split at ht
  · cases ht
  · rw [mem_singleton.mp ht]
    exact h.guarded

theorem flushEntries_submittable {es : List FlushEntry} (hes : ∀ e ∈ es, Roomy e.ino e.pending)
    {b : FlushBatch} (hb : AboutMembers b)
    (hdistinct : ((b.entries ++ es).map FlushEntry.ino).Nodup)
    (ht : t ∈ flushEntries n b es) : Submittable t := by
  induction es generalizing b with
  | nil => exact submitted_submittable hb ht
  | cons e es ih =>
    have hes' := fun e' he' => hes e' (mem_cons_of_mem _ he')
    have hskip : ((b.entries ++ es).map FlushEntry.ino).Nodup :=
      (((sublist_cons_self e es).append_left b.entries).map _).nodup hdistinct
    have hrest : ((e :: es).map FlushEntry.ino).Nodup :=
      ((sublist_append_right b.entries (e :: es)).map _).nodup hdistinct
    have hnew : e.ino ∉ b.entries.map FlushEntry.ino := by
      rw [map_append, nodup_append] at hdistinct
      exact fun hmem => hdistinct.2.2 _ hmem _ mem_cons_self rfl
    rw [flushEntries] at ht
    split at ht
    · exact ih hes' hb hskip ht
    · rename_i u hu
      have hprop : e.propose = some u := by
        split at hu
        · exact absurd hu.symm (some_ne_none _)
        · exact hu
      have hpub := propose_publishable (hes e mem_cons_self) hprop
      split at ht
      · rename_i hfits
        refine ih hes' (about_add hb hpub hfits hnew) ?_ ht
        rwa [FlushBatch.add, append_assoc]
      · rcases mem_append.mp ht with ht | ht
        · exact submitted_submittable hb ht
        · exact ih hes' (about_add about_none hpub rfl not_mem_nil) hrest ht

end

/-! ## What the write path and a flush submit -/

section

variable {n : Node} {w : WriteReq} {runs : List Run} {rec : InodeRecord}
  {existing : List Extent} {s : Etcd}

/-- A synchronous write's transaction fits exactly when it has at most 127 runs, and
its flush from a buffer of its own exactly when it has at most 126. The reclaims that
did not fit always fit in transactions of their own. Buffers of such writes fit, each
alone and in the batches of a sweep. -/
theorem submittable_iff (hd : Describes w.ino existing s) (hr : RunsFor w.data.length runs)
    {entries : List FlushEntry} (hdistinct : (entries.map FlushEntry.ino).Nodup)
    (hbuf : ∀ e ∈ entries, Accumulated n e.ino e.pending) :
    (Submittable (n.guarded ((proposal n w runs rec existing).cmps,
        (proposal n w runs rec existing).ops)) ↔ runs.length ≤ 127) ∧
      (∀ bytes mode holder, Submittable (n.guarded
        ((Pending.none.join (proposal n w runs rec existing, bytes)).flushTxn
          w.ino mode holder)) ↔ runs.length ≤ 126) ∧
      (∀ old ∈ existing, ∀ start stop next next' plan, nextChunk existing ≤ next →
        planReclaim n w.ino old start stop next = (some plan, next') →
        Submittable (n.guarded ([plan.cmp], plan.ops))) ∧
      (∀ e ∈ entries, ∀ t, e.propose = some t → Submittable (n.guarded t)) ∧
      ∀ t ∈ flushEntries n .none entries, Submittable t := by
  refine ⟨?_, fun bytes mode holder => ?_, ?_, fun e he t ht => ?_, fun t ht => ?_⟩
  · exact (commit_submittable_iff hd hr).trans Nat.succ_le_succ_iff
  · exact (flush_submittable_iff hd hr bytes mode holder).trans
      (Nat.succ_le_succ_iff.trans Nat.succ_le_succ_iff)
  · intro old hold start stop next next' plan hle hplan
    exact reclaim_submittable hplan ((lt_onePast Extent.chunk hold).trans_le hle)
  · exact (propose_publishable (hbuf e he).roomy ht).guarded
  · exact flushEntries_submittable (fun e he => (hbuf e he).roomy) about_none hdistinct ht

end

def shortWrite : WriteAct := soloWrite false 0 [1] 0 one_byte_ne one_byte_bound

def shortEntry : FlushEntry :=
  ⟨7, .exclusive, some ⟨1, 1⟩, Pending.none.join (proposal soloConfig.node shortWrite.req
    shortWrite.runs (regularFile 7) (getExtents (freshFile 7) 7), 1), true⟩

/-- The one-byte write fits, committed or flushed. -/
theorem submittable_iff_short :
    Submittable (soloConfig.node.guarded
        ((proposal soloConfig.node shortWrite.req shortWrite.runs (regularFile 7)
          (getExtents (freshFile 7) 7)).cmps,
        (proposal soloConfig.node shortWrite.req shortWrite.runs (regularFile 7)
          (getExtents (freshFile 7) 7)).ops)) ∧
      ∀ t ∈ flushEntries soloConfig.node .none [shortEntry], Submittable t := by
  have hd : Describes shortWrite.req.ino (getExtents (freshFile 7) 7) (freshFile 7) :=
    getExtents_describes (freshFile 7) 7
  have hr : RunsFor shortWrite.req.data.length shortWrite.runs := by decide +kernel
  have hbuf : ∀ e ∈ [shortEntry], Accumulated soloConfig.node e.ino e.pending := by
    intro e he
    rw [mem_singleton.mp he]
    exact .join 1 .none rfl hd hr (by decide +kernel) (.inl rfl)
  have hdistinct : ([shortEntry].map FlushEntry.ino).Nodup := nodup_singleton _
  obtain ⟨hcommit, -, -, -, hsweep⟩ := submittable_iff hd hr hdistinct hbuf
  exact ⟨hcommit.mpr (by decide +kernel), hsweep⟩

/-! ## A fragmented arena -/

def alternatingArena : Arena := ⟨0, fun _ => 0xAAAAAAAAAAAAAAAA#64, 0⟩

theorem mebibyte_ne : replicate (2 ^ 20) (0 : Byte) ≠ [] := by
  rw [Ne, replicate_eq_nil_iff]
  decide

theorem mebibyte_bound : 0 + (replicate (2 ^ 20) (0 : Byte)).length < offsetBound := by
  rw [length_replicate]
  decide

def mebibyteWrite : WriteReq := ⟨7, 0, replicate (2 ^ 20) 0, 0, mebibyte_ne, mebibyte_bound⟩

theorem tidy_alternating : Tidy [alternatingArena] :=
  ⟨by decide, fun ar har => by rw [mem_singleton.mp har]; exact Nat.zero_le _⟩

/-- There is space for a mebibyte in the fragmented arena, in 256 runs. The write can
neither be committed nor be flushed. -/
theorem mebibyte_unsubmittable :
    ∃ runs, (allocate [alternatingArena] mebibyteWrite.data.length).1 = some runs ∧
      runs.length = 256 ∧
      ¬ Submittable (soloConfig.node.guarded
        ((proposal soloConfig.node mebibyteWrite runs (regularFile 7)
          (getExtents (freshFile 7) 7)).cmps,
        (proposal soloConfig.node mebibyteWrite runs (regularFile 7)
          (getExtents (freshFile 7) 7)).ops)) ∧
      ∀ bytes mode holder, ¬ Submittable (soloConfig.node.guarded
        ((Pending.none.join (proposal soloConfig.node mebibyteWrite runs (regularFile 7)
          (getExtents (freshFile 7) 7), bytes)).flushTxn 7 mode holder)) := by
  have hlen : mebibyteWrite.data.length = 2 ^ 20 := length_replicate
  have halloc : (allocate [alternatingArena] (2 ^ 20)).1.map length = some 256 := by
    decide +kernel
  obtain ⟨runs, hruns, hcount⟩ := map_eq_some_iff.mp halloc
  have hd : Describes mebibyteWrite.ino (getExtents (freshFile 7) 7) (freshFile 7) :=
    getExtents_describes (freshFile 7) 7
  have hr : RunsFor mebibyteWrite.data.length runs := by
    rw [hlen]
    exact (mayAllocate_of_allocate tidy_alternating (by decide) hruns).1.1
  refine ⟨runs, hlen ▸ hruns, hcount, fun h => ?_, fun bytes mode holder h => ?_⟩
  · have hfew := (commit_submittable_iff hd hr).mp h
    rw [hcount] at hfew
    exact absurd hfew (by decide)
  · have hfew := (flush_submittable_iff hd hr bytes mode holder).mp h
    rw [hcount] at hfew
    exact absurd hfew (by decide)

end EtcFS.Correctness
