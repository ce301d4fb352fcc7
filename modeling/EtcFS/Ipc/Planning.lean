import EtcFS.Ipc.WriteOp
import Mathlib.Tactic.Abel
import Mathlib.Data.List.Induction

/-!
# What a proposal does to the extents

The reclaim loop's invariant is a balance: what the operations leave makes up the new extents, the
pieces, and what the keys held before.
-/

namespace EtcFS.Ipc

open EtcFS.Core Metadata Arena List Option

def cutBy (n : Node) (start stop : Nat) (e : ExtentValue) : List ExtentValue :=
  if e.Overlaps start stop ∧ n.owns e.diskOff = true then survivors e start stop else [e]

def valuesOf (extents : List Extent) : Multiset ExtentValue :=
  ↑(extents.map Extent.toExtentValue)

def piecesOf (n : Node) (start stop : Nat) (extents : List Extent) : Multiset ExtentValue :=
  ↑(extents.flatMap fun e => cutBy n start stop e.toExtentValue)

@[simp] theorem valuesOf_nil : valuesOf [] = 0 := rfl

@[simp] theorem valuesOf_append (xs ys : List Extent) :
    valuesOf (xs ++ ys) = valuesOf xs + valuesOf ys := by
  simp [valuesOf]

@[simp] theorem valuesOf_singleton (e : Extent) : valuesOf [e] = {e.toExtentValue} := rfl

@[simp] theorem piecesOf_nil (n : Node) (start stop : Nat) : piecesOf n start stop [] = 0 := rfl

@[simp] theorem piecesOf_append (n : Node) (start stop : Nat) (xs ys : List Extent) :
    piecesOf n start stop (xs ++ ys) = piecesOf n start stop xs + piecesOf n start stop ys := by
  simp [piecesOf]

@[simp] theorem piecesOf_singleton (n : Node) (start stop : Nat) (e : Extent) :
    piecesOf n start stop [e] = ↑(cutBy n start stop e.toExtentValue) := by
  simp [piecesOf]

theorem cutBy_of_not_overlaps {n : Node} {start stop : Nat} {e : ExtentValue}
    (h : ¬ e.Overlaps start stop) : cutBy n start stop e = [e] := if_neg fun hc => h hc.1

/-! ## The counters -/

theorem onePast_append (field : Extent → Nat) (xs : List Extent) (e : Extent) :
    onePast field (xs ++ [e]) = max (onePast field xs) (field e + 1) := by
  simp only [onePast, foldl_append, foldl_cons, foldl_nil]
  split <;> omega

theorem lt_onePast (field : Extent → Nat) {xs : List Extent} {e : Extent} (he : e ∈ xs) :
    field e < onePast field xs := by
  induction xs using reverseRecOn with
  | nil => cases he
  | append_singleton xs x ih =>
    rw [onePast_append]
    rcases mem_append.mp he with he | he
    · exact (ih he).trans_le (le_max_left _ _)
    · rw [mem_singleton.mp he]
      exact Nat.lt_of_succ_le (Nat.le_max_right _ _)

theorem onePast_le {field : Extent → Nat} {xs : List Extent} {bound : Nat}
    (h : ∀ e ∈ xs, field e < bound) : onePast field xs ≤ bound := by
  induction xs using reverseRecOn with
  | nil => exact Nat.zero_le _
  | append_singleton xs x ih =>
    rw [onePast_append]
    refine max_le (ih fun e he => h e (mem_append_left _ he)) ?_
    exact h x mem_concat_self

theorem onePast_congr {field : Extent → Nat} {xs ys : List Extent}
    (h : ∀ x, x ∈ xs.map field ↔ x ∈ ys.map field) : onePast field xs = onePast field ys := by
  have hle : ∀ {as bs : List Extent}, (∀ x, x ∈ as.map field → x ∈ bs.map field) →
      onePast field as ≤ onePast field bs := by
    intro as bs hsub
    refine onePast_le fun e he => ?_
    obtain ⟨f, hf, hfe⟩ := mem_map.mp (hsub _ (mem_map_of_mem he))
    rw [← hfe]
    exact lt_onePast field hf
  exact le_antisymm (hle fun x => (h x).mp) (hle fun x => (h x).mpr)

/-! ## One reclaim plan -/

section

variable {n : Node} {ino start stop next next' : Nat} {old : Extent} {p : ReclaimPlan}

theorem planReclaim_some (h : planReclaim n ino old start stop next = (some p, next')) :
    n.owns old.diskOff = true ∧
    p.cmp = .modRevisionEq (.extent ino old.chunk) old.modRevision ∧
    (p.freeOff, p.freeLen) = givenUp old.toExtentValue start stop ∧
    (p.ops.map (Op.leaves (extentValue ino))).sum = ↑(survivors old.toExtentValue start stop) ∧
    ((next' = next ∧ p.ops.map Op.key = [.extent ino old.chunk]) ∨
      (next' = next + 1 ∧ p.ops.map Op.key = [.extent ino old.chunk, .extent ino next])) := by
  unfold planReclaim at h
  split at h
  · rename_i howns
    by_cases hh : old.logOff < start <;> by_cases ht : stop < old.endOff <;>
      simp only [splitAround, gt_iff_lt, hh, ht, if_true, if_false, Prod.mk.injEq,
        some.injEq] at h
    · obtain ⟨rfl, rfl⟩ := h
      simp [howns, givenUp, survivors, splitAround, hh, ht, leaves_put_extent, Op.key,
        ← Multiset.cons_coe, ← Multiset.singleton_add]
    · obtain ⟨rfl, rfl⟩ := h
      simp [howns, givenUp, survivors, splitAround, hh, ht, leaves_put_extent, Op.key]
    · split at h
      · simp at h
      · simp only [Prod.mk.injEq, some.injEq] at h
        obtain ⟨rfl, rfl⟩ := h
        simp [howns, givenUp, survivors, splitAround, hh, ht, leaves_put_extent, Op.key]
    · obtain ⟨rfl, rfl⟩ := h
      simp [howns, givenUp, survivors, splitAround, hh, ht, Op.leaves, Op.key]
  · simp at h

theorem planReclaim_none (h : planReclaim n ino old start stop next = (none, next')) :
    next' = next ∧ cutBy n start stop old.toExtentValue = [old.toExtentValue] := by
  unfold planReclaim at h
  split at h
  · rename_i howns
    by_cases hh : old.logOff < start <;> by_cases ht : stop < old.endOff <;>
      simp only [splitAround, gt_iff_lt, hh, ht, if_true, if_false, Prod.mk.injEq,
        reduceCtorEq, false_and] at h
    split at h
    · rename_i hsnap
      obtain ⟨-, rfl⟩ := Prod.mk.inj h
      -- The tail starts where the extent did, so it is the extent.
      have hskip : tailSkip old.toExtentValue stop = 0 := by
        simp only [tailOf] at hsnap
        omega
      have htail : tailOf old.toExtentValue stop = old.toExtentValue := by
        simp [tailOf, hskip]
      refine ⟨rfl, ?_⟩
      simp [cutBy, survivors, splitAround, hh, ht, htail]
    · simp at h
  · rename_i howns
    obtain ⟨-, rfl⟩ := Prod.mk.inj h
    exact ⟨rfl, if_neg fun hc => howns hc.2⟩

theorem planReclaim_key (h : planReclaim n ino old start stop next = (some p, next'))
    {op : Op Val} (hop : op ∈ p.ops) : op.key = .extent ino old.chunk ∨
      (op.key = .extent ino next ∧ next' = next + 1) := by
  obtain ⟨-, -, -, -, hkeys⟩ := planReclaim_some h
  have hmem := mem_map_of_mem (f := Op.key) hop
  rcases hkeys with ⟨-, hk⟩ | ⟨hn, hk⟩
  · rw [hk, mem_singleton] at hmem
    exact .inl hmem
  · rw [hk, mem_cons, mem_singleton] at hmem
    exact hmem.imp_right fun hm => ⟨hm, hn⟩

theorem planReclaim_keys_nodup (h : planReclaim n ino old start stop next = (some p, next'))
    (hlt : old.chunk < next) : (p.ops.map Op.key).Nodup := by
  obtain ⟨-, -, -, -, ⟨-, hk⟩ | ⟨-, hk⟩⟩ := planReclaim_some h
  · rw [hk]
    exact nodup_singleton _
  · rw [hk]
    simp only [nodup_cons, mem_singleton, Key.extent.injEq, true_and,
      not_mem_nil, not_false_eq_true, nodup_nil, and_true]
    omega

theorem planReclaim_held {existing : List Extent} {s : Etcd} (hd : Describes ino existing s)
    (h : planReclaim n ino old start stop next = (some p, next')) (hold : old ∈ existing)
    (hnext : ∀ x ∈ existing, x.chunk < next) :
    (p.ops.map fun op => s.held (extentValue ino) op.key).sum = {old.toExtentValue} := by
  have hzero : s.held (extentValue ino) (.extent ino next) = 0 :=
    hd.held_eq_zero fun x hx => (hnext x hx).ne
  have hmap : (p.ops.map fun op => s.held (extentValue ino) op.key) =
      (p.ops.map Op.key).map (s.held (extentValue ino)) := by
    rw [List.map_map]
    rfl
  obtain ⟨-, -, -, -, ⟨-, hk⟩ | ⟨-, hk⟩⟩ := planReclaim_some h
  · rw [hmap, hk]
    simp [hd.held_of_mem hold]
  · rw [hmap, hk]
    simp [hd.held_of_mem hold, hzero]

end

/-! ## The reclaim loop -/

/-- What the loop does with one extent. -/
inductive Proposal.Reclaims (n : Node) (ino start : Nat) (p : Proposal) (e : Extent) :
    Proposal → Prop
  | keep (hcut : cutBy n start p.stop e.toExtentValue = [e.toExtentValue]) :
    Reclaims n ino start p e p
  | defer (hov : e.Overlaps start p.stop) :
    Reclaims n ino start p e { p with deferredReclaim := p.deferredReclaim ++ [e] }
  | plan {plan : ReclaimPlan} {next : Nat} (hov : e.Overlaps start p.stop)
    (hops : p.ops.length + maxReclaimOps + 1 ≤ maxWriteTxnOps)
    (hcmps : p.cmps.length + 1 ≤ maxWriteTxnOps)
    (hplan : planReclaim n ino e start p.stop p.nextChunk = (some plan, next)) :
    Reclaims n ino start p e (p.withPlan plan next)

section

variable {n : Node} {ino start stop : Nat} {existing : List Extent} {s : Etcd}
  {news : List ExtentValue}

theorem Proposal.reclaims (n : Node) (ino start : Nat) (p : Proposal) (e : Extent) :
    p.Reclaims n ino start e (p.reclaim n ino start e) := by
  unfold Proposal.reclaim
  split
  · refine .keep (cutBy_of_not_overlaps ?_)
    simp only [ExtentValue.Overlaps]
    omega
  · have hov : e.Overlaps start p.stop := by
      simp only [ExtentValue.Overlaps]
      omega
    split
    · exact .defer hov
    · rename_i hroom
      rw [not_or, not_lt, not_lt] at hroom
      split
      · rename_i hplan
        exact .plan hov hroom.1 hroom.2 hplan
      · rename_i hplan
        obtain ⟨rfl, hcut⟩ := planReclaim_none hplan
        exact .keep hcut

/-- Induction over the loop. -/
theorem foldl_reclaims {P : List Extent → Proposal → Prop} {p : Proposal} (hstart : P [] p)
    (hstep : ∀ done e rest p p', existing = done ++ e :: rest →
      Proposal.Reclaims n ino start p e p' → P done p → P (done ++ [e]) p') :
    P existing (existing.foldl (Proposal.reclaim n ino start) p) := by
  suffices hfold : ∀ (rest done : List Extent) (p : Proposal), existing = done ++ rest →
      P done p → P existing (rest.foldl (Proposal.reclaim n ino start) p) from
    hfold existing [] p rfl hstart
  intro rest
  induction rest with
  | nil =>
    rintro done p rfl hp
    rwa [append_nil]
  | cons e rest ih =>
    intro done p hsplit hp
    refine ih (done ++ [e]) _ ?_ (hstep done e rest p _ hsplit (p.reclaims n ino start e) hp)
    rw [hsplit, append_assoc, singleton_append]

structure Tracks (n : Node) (ino start stop : Nat) (existing : List Extent) (s : Etcd)
    (news : List ExtentValue) (done : List Extent) (p : Proposal) : Prop where
  stop_eq : p.stop = stop
  chunk_le : nextChunk existing ≤ p.nextChunk
  /-- Every operation writes the record, a record looked at, or a fresh chunk. -/
  key_mem : ∀ op ∈ p.ops, op.key = .inode ino ∨
    (∃ e ∈ done, op.key = .extent ino e.chunk ∧ e ∉ p.deferredReclaim) ∨
    ∃ c, op.key = .extent ino c ∧ nextChunk existing ≤ c ∧ c < p.nextChunk
  keys_nodup : (p.ops.map Op.key).Nodup
  /-- Every comparison is about a fresh chunk or about a record looked at. -/
  cmp_mem : ∀ c ∈ p.cmps, (∃ k, c = .absent (.extent ino k) ∧ nextChunk existing ≤ k) ∨
    ∃ e ∈ done, c = .modRevisionEq (.extent ino e.chunk) e.modRevision
  plan_mem : ∀ plan ∈ p.plans, ∃ e ∈ done, e.Overlaps start stop ∧ n.owns e.diskOff = true ∧
    e ∉ p.deferredReclaim ∧ (plan.freeOff, plan.freeLen) = givenUp e.toExtentValue start stop
  deferred_mem : ∀ e ∈ p.deferredReclaim, e ∈ done ∧ e.Overlaps start stop
  deferred_nodup : p.deferredReclaim.Nodup
  balance : (p.ops.map (Op.leaves (extentValue ino))).sum + valuesOf done +
      piecesOf n start stop p.deferredReclaim =
    (p.ops.map fun op => s.held (extentValue ino) op.key).sum + ↑news +
      piecesOf n start stop done + valuesOf p.deferredReclaim

variable {done : List Extent} {p : Proposal} {e : Extent}

theorem Tracks.keep (h : Tracks n ino start stop existing s news done p)
    (hcut : cutBy n start stop e.toExtentValue = [e.toExtentValue]) :
    Tracks n ino start stop existing s news (done ++ [e]) p where
  stop_eq := h.stop_eq
  chunk_le := h.chunk_le
  key_mem := fun op hop => (h.key_mem op hop).imp_right fun hk => hk.imp_left
    fun ⟨x, hx, hxk⟩ => ⟨x, mem_append_left _ hx, hxk⟩
  keys_nodup := h.keys_nodup
  cmp_mem := fun c hc => (h.cmp_mem c hc).imp_right
    fun ⟨x, hx, hxc⟩ => ⟨x, mem_append_left _ hx, hxc⟩
  plan_mem := fun plan hp =>
    let ⟨x, hx, hxp⟩ := h.plan_mem plan hp
    ⟨x, mem_append_left _ hx, hxp⟩
  deferred_mem := fun x hx =>
    ⟨mem_append_left _ (h.deferred_mem x hx).1, (h.deferred_mem x hx).2⟩
  deferred_nodup := h.deferred_nodup
  balance := by
    have hb := h.balance
    simp only [valuesOf_append, valuesOf_singleton, piecesOf_append, piecesOf_singleton, hcut,
      Multiset.coe_singleton]
    rw [← add_assoc, add_right_comm, hb]
    abel

theorem Tracks.defer (h : Tracks n ino start stop existing s news done p)
    (hov : e.Overlaps start stop) (hfresh : e ∉ done) :
    Tracks n ino start stop existing s news (done ++ [e])
      { p with deferredReclaim := p.deferredReclaim ++ [e] } where
  stop_eq := h.stop_eq
  chunk_le := h.chunk_le
  key_mem := by
    intro op hop
    refine (h.key_mem op hop).imp_right fun hk => hk.imp_left ?_
    rintro ⟨x, hx, hxk, hxd⟩
    refine ⟨x, mem_append_left _ hx, hxk, ?_⟩
    rw [mem_append, mem_singleton]
    rintro (hd | rfl)
    · exact hxd hd
    · exact hfresh hx
  keys_nodup := h.keys_nodup
  cmp_mem := fun c hc => (h.cmp_mem c hc).imp_right
    fun ⟨x, hx, hxc⟩ => ⟨x, mem_append_left _ hx, hxc⟩
  plan_mem := by
    intro plan hp
    obtain ⟨x, hx, hov, howns, hxd, hg⟩ := h.plan_mem plan hp
    refine ⟨x, mem_append_left _ hx, hov, howns, ?_, hg⟩
    rw [mem_append, mem_singleton]
    rintro (hd | rfl)
    · exact hxd hd
    · exact hfresh hx
  deferred_mem := by
    intro x hx
    rcases mem_append.mp hx with hx | hx
    · exact ⟨mem_append_left _ (h.deferred_mem x hx).1, (h.deferred_mem x hx).2⟩
    · rw [mem_singleton.mp hx]
      exact ⟨mem_concat_self, hov⟩
  deferred_nodup := by
    refine nodup_append.mpr ⟨h.deferred_nodup, nodup_singleton _, ?_⟩
    rintro x hx y hy rfl
    rw [mem_singleton.mp hy] at hx
    exact hfresh (h.deferred_mem _ hx).1
  balance := by
    have hb := h.balance
    simp only [valuesOf_append, valuesOf_singleton, piecesOf_append, piecesOf_singleton]
    calc _ = _ + valuesOf done + piecesOf n start stop p.deferredReclaim +
          ({e.toExtentValue} + ↑(cutBy n start stop e.toExtentValue)) := by abel
      _ = _ := by
        rw [hb]
        abel

theorem Tracks.key_fresh (h : Tracks n ino start stop existing s news done p)
    (hd : Describes ino existing s) (hdone : ∀ x ∈ done, x ∈ existing) (he : e ∈ existing)
    (hfresh : e ∉ done) {op : Op Val} (hop : op ∈ p.ops) :
    op.key ≠ .extent ino e.chunk ∧ op.key ≠ .extent ino p.nextChunk := by
  have hlt : ∀ x ∈ existing, x.chunk < nextChunk existing := fun x hx =>
    lt_onePast Extent.chunk hx
  have hle := hlt e he
  have hchunk := h.chunk_le
  rcases h.key_mem op hop with hk | ⟨x, hx, hk, -⟩ | ⟨c, hk, hlo, hhi⟩
  · simp [hk]
  · have hne : x.chunk ≠ e.chunk := by
      intro hc
      rw [hd.distinct.eq_of_mem (hdone x hx) he hc] at hx
      exact hfresh hx
    have hxlt := hlt x (hdone x hx)
    simp only [hk, ne_eq, Key.extent.injEq, true_and]
    omega
  · simp only [hk, ne_eq, Key.extent.injEq, true_and]
    omega

theorem Tracks.plan (h : Tracks n ino start stop existing s news done p)
    (hd : Describes ino existing s) (hdone : ∀ x ∈ done, x ∈ existing) (he : e ∈ existing)
    (hfresh : e ∉ done) (hov : e.Overlaps start stop) {plan : ReclaimPlan} {next : Nat}
    (hplan : planReclaim n ino e start stop p.nextChunk = (some plan, next)) :
    Tracks n ino start stop existing s news (done ++ [e]) (p.withPlan plan next) := by
  obtain ⟨howns, hcmp, hfree, hleaves, hkeys⟩ := planReclaim_some hplan
  have hlt : ∀ x ∈ existing, x.chunk < nextChunk existing := fun x hx =>
    lt_onePast Extent.chunk hx
  have hnext : p.nextChunk ≤ next := by omega
  have hed : e ∉ p.deferredReclaim := fun hmem => hfresh (h.deferred_mem e hmem).1
  have hkey : ∀ op ∈ plan.ops, op.key = .extent ino e.chunk ∨
      (op.key = .extent ino p.nextChunk ∧ next = p.nextChunk + 1) :=
    fun op hop => planReclaim_key hplan hop
  refine ⟨h.stop_eq, h.chunk_le.trans hnext, ?_, ?_, ?_, ?_, ?_, h.deferred_nodup, ?_⟩
  · intro op hop
    rcases mem_append.mp hop with hop | hop
    · rcases h.key_mem op hop with hk | ⟨x, hx, hk⟩ | ⟨c, hk, hlo, hhi⟩
      · exact .inl hk
      · exact .inr (.inl ⟨x, mem_append_left _ hx, hk⟩)
      · exact .inr (.inr ⟨c, hk, hlo, hhi.trans_le hnext⟩)
    · rcases hkey op hop with hk | ⟨hk, hn⟩
      · exact .inr (.inl ⟨e, mem_concat_self, hk, hed⟩)
      · exact .inr (.inr ⟨_, hk, h.chunk_le, hn ▸ Nat.lt_succ_self _⟩)
  · rw [map_append, nodup_append]
    refine ⟨h.keys_nodup, ?_, ?_⟩
    · exact planReclaim_keys_nodup hplan ((hlt e he).trans_le h.chunk_le)
    · intro k hk k' hk' hkk
      obtain ⟨op, hop, rfl⟩ := mem_map.mp hk
      obtain ⟨op', hop', rfl⟩ := mem_map.mp hk'
      obtain ⟨hn1, hn2⟩ := h.key_fresh hd hdone he hfresh hop
      rcases hkey op' hop' with hk' | ⟨hk', -⟩
      · exact hn1 (hkk.trans hk')
      · exact hn2 (hkk.trans hk')
  · intro c hc
    rcases mem_append.mp hc with hc | hc
    · exact (h.cmp_mem c hc).imp_right
        fun ⟨x, hx, hxc⟩ => ⟨x, mem_append_left _ hx, hxc⟩
    · rw [mem_singleton.mp hc]
      exact .inr ⟨e, mem_concat_self, hcmp⟩
  · intro q hq
    rcases mem_append.mp hq with hq | hq
    · obtain ⟨x, hx, hxp⟩ := h.plan_mem q hq
      exact ⟨x, mem_append_left _ hx, hxp⟩
    · rw [mem_singleton.mp hq]
      exact ⟨e, mem_concat_self, hov, howns, hed, hfree⟩
  · exact fun x hx =>
      ⟨mem_append_left _ (h.deferred_mem x hx).1, (h.deferred_mem x hx).2⟩
  · have hb := h.balance
    have hheld : (plan.ops.map fun op => s.held (extentValue ino) op.key).sum = {e.toExtentValue} :=
      planReclaim_held hd hplan he fun x hx => (hlt x hx).trans_le h.chunk_le
    have hcut : cutBy n start stop e.toExtentValue = survivors e.toExtentValue start stop :=
      if_pos ⟨hov, howns⟩
    simp only [map_append, sum_append, hleaves, hheld, valuesOf_append,
      valuesOf_singleton, piecesOf_append, piecesOf_singleton, hcut]
    calc _ = (p.ops.map (Op.leaves (extentValue ino))).sum + valuesOf done +
          piecesOf n start stop p.deferredReclaim +
          (↑(survivors e.toExtentValue start stop) + {e.toExtentValue}) := by abel
      _ = _ := by
        rw [hb]
        abel

theorem Tracks.foldl (hd : Describes ino existing s)
    (h : Tracks n ino start stop existing s news [] p) :
    Tracks n ino start stop existing s news existing
      (existing.foldl (Proposal.reclaim n ino start) p) := by
  refine foldl_reclaims h fun done e rest p p' hsplit hstep h => ?_
  obtain rfl := h.stop_eq
  have hdone : ∀ x ∈ done, x ∈ existing := fun x hx => hsplit ▸ mem_append_left _ hx
  have he : e ∈ existing := hsplit ▸ mem_append_right _ mem_cons_self
  have hfresh : e ∉ done := by
    have hnodup : existing.Nodup := List.Nodup.of_map _ hd.distinct
    rw [hsplit, nodup_append] at hnodup
    exact fun hmem => hnodup.2.2 e hmem e mem_cons_self rfl
  cases hstep with
  | keep hcut => exact h.keep hcut
  | defer hov => exact h.defer hov hfresh
  | plan hov _ _ hplan => exact h.plan hd hdone he hfresh hov hplan

/-! ## The whole proposal -/

variable {vs : List ExtentValue}

theorem mem_extentPuts {op : Op Val} {chunk : Nat} (h : op ∈ extentPuts ino chunk vs) :
    ∃ c, op.key = .extent ino c ∧ chunk ≤ c ∧ c < chunk + vs.length := by
  induction vs generalizing chunk with
  | nil => cases h
  | cons v vs ih =>
    rw [length_cons]
    rcases mem_cons.mp h with rfl | h
    · exact ⟨chunk, rfl, le_rfl, by omega⟩
    · obtain ⟨c, hk, hlo, hhi⟩ := ih h
      exact ⟨c, hk, by omega, by omega⟩

theorem extentPuts_keys_nodup (chunk : Nat) (vs : List ExtentValue) :
    ((extentPuts ino chunk vs).map Op.key).Nodup := by
  induction vs generalizing chunk with
  | nil => exact nodup_nil
  | cons v vs ih =>
    rw [extentPuts, map_cons, nodup_cons]
    refine ⟨fun hmem => ?_, ih _⟩
    obtain ⟨op, hop, hk⟩ := mem_map.mp hmem
    obtain ⟨c, hc, hlo, -⟩ := mem_extentPuts hop
    rw [hc, Op.key, Key.extent.injEq] at hk
    omega

theorem extentPuts_leaves (chunk : Nat) (vs : List ExtentValue) :
    ((extentPuts ino chunk vs).map (Op.leaves (extentValue ino))).sum = ↑vs := by
  induction vs generalizing chunk with
  | nil => rfl
  | cons v vs ih =>
    rw [extentPuts, map_cons, sum_cons, ih, leaves_put_extent, Multiset.singleton_add,
      Multiset.cons_coe]

theorem mem_extentAbsent {c : Cmp Val} {chunk : Nat}
    (h : c ∈ extentAbsent ino chunk vs) : ∃ k, c = .absent (.extent ino k) ∧ chunk ≤ k := by
  induction vs generalizing chunk with
  | nil => cases h
  | cons v vs ih =>
    rcases mem_cons.mp h with rfl | h
    · exact ⟨chunk, rfl, le_rfl⟩
    · obtain ⟨k, hk, hlo⟩ := ih h
      exact ⟨k, hk, by omega⟩

variable {w : WriteReq} {runs : List Run} {rec : InodeRecord}

theorem start_ops_key {op : Op Val} (h : op ∈ (Proposal.start n w runs rec existing).ops) :
    op.key = .inode w.ino ∨
      op ∈ extentPuts w.ino (nextChunk existing) (newExtents n w (nextSeq existing) 0 runs) := by
  rcases mem_append.mp h with h | h
  · exact .inr h
  · split at h
    · rw [mem_singleton.mp h]
      exact .inl rfl
    · cases h

theorem tracks_start (hd : Describes w.ino existing s) (hr : RunsFor w.data.length runs) :
    Tracks n w.ino w.offset w.stop existing s (newExtents n w (nextSeq existing) 0 runs) []
      (Proposal.start n w runs rec existing) where
  stop_eq := newExtents_stop hr
  chunk_le := Nat.le_add_right _ _
  key_mem := by
    intro op hop
    refine (start_ops_key hop).imp_right fun hmem => .inr ?_
    exact mem_extentPuts hmem
  keys_nodup := by
    simp only [Proposal.start, map_append, nodup_append]
    refine ⟨extentPuts_keys_nodup _ _, ?_, ?_⟩
    · split
      · exact nodup_singleton _
      · exact nodup_nil
    · intro k hk k' hk' hkk
      obtain ⟨op, hop, rfl⟩ := mem_map.mp hk
      obtain ⟨c, hc, -⟩ := mem_extentPuts hop
      split at hk'
      · rw [map_singleton, mem_singleton] at hk'
        rw [hc, hk'] at hkk
        cases hkk
      · cases hk'
  cmp_mem := fun c hc => .inl (mem_extentAbsent hc)
  plan_mem := fun plan hp => by cases hp
  deferred_mem := fun e he => by cases he
  deferred_nodup := nodup_nil
  balance := by
    have hheld : ((Proposal.start n w runs rec existing).ops.map
        fun op => s.held (extentValue w.ino) op.key).sum = 0 := by
      rw [sum_eq_zero]
      intro m hm
      obtain ⟨op, hop, rfl⟩ := mem_map.mp hm
      rcases start_ops_key hop with hk | hop
      · rw [hk]
        simp [Store.held, contribution, extentValue]
      · obtain ⟨c, hk, hlo, -⟩ := mem_extentPuts hop
        rw [hk]
        refine hd.held_eq_zero fun e he hc => ?_
        have hlt := lt_onePast Extent.chunk he
        simp only [nextChunk] at hlo
        omega
    have hleaves : ((Proposal.start n w runs rec existing).ops.map
        (Op.leaves (extentValue w.ino))).sum =
          ↑(newExtents n w (nextSeq existing) 0 runs) := by
      simp only [Proposal.start, map_append, sum_append, extentPuts_leaves]
      split
      · simp [Op.leaves, contribution, extentValue]
      · simp
    rw [hheld, hleaves]
    simp [Proposal.start]

def updatedRecord (w : WriteReq) (rec : InodeRecord) : InodeRecord :=
  { rec with size := max rec.size w.stop, mode := clearSetIDOnWrite rec.mode w.uid }

def PutsRecord (w : WriteReq) (rec : InodeRecord) : Prop :=
  w.stop > rec.size ∨ clearSetIDOnWrite rec.mode w.uid ≠ rec.mode
  deriving Decidable

theorem updatedRecord_of_not_puts (h : ¬ PutsRecord w rec) : updatedRecord w rec = rec := by
  obtain ⟨hsize, hmode⟩ := not_or.mp h
  rw [not_not] at hmode
  simp [updatedRecord, hmode, Nat.max_eq_left (not_lt.mp hsize)]

theorem effect_inode_proposal (hr : RunsFor w.data.length runs) :
    effect (.inode w.ino) (proposal n w runs rec existing).ops =
      if PutsRecord w rec then some (some (updatedRecord w rec)) else none := by
  have hfold : effect (.inode w.ino) (proposal n w runs rec existing).ops =
      effect (.inode w.ino) (Proposal.start n w runs rec existing).ops := by
    refine foldl_reclaims (P := fun _ p => effect (.inode w.ino) p.ops = _) rfl ?_
    intro done e rest p p' _ hstep h
    cases hstep with
    | keep | defer => exact h
    | plan _ _ _ hplan =>
      rw [effect_append, effect_eq_none_iff.mpr, none_or, h]
      intro op hop hk
      rcases planReclaim_key hplan hop with h | ⟨h, -⟩ <;> simp [hk] at h
  have hputs : effect (.inode w.ino) (extentPuts w.ino (nextChunk existing)
      (newExtents n w (nextSeq existing) 0 runs)) = none := by
    rw [effect_eq_none_iff]
    intro op hop hk
    obtain ⟨c, hc, -⟩ := mem_extentPuts hop
    rw [hc] at hk
    cases hk
  rw [hfold]
  simp only [Proposal.start, newExtents_stop hr, effect_append, hputs, or_none]
  by_cases hput : w.stop > rec.size ∨ clearSetIDOnWrite rec.mode w.uid ≠ rec.mode
  · rw [if_pos hput, if_pos (show PutsRecord w rec from hput)]
    simp [effect, updatedRecord]
  · rw [if_neg hput, if_neg (show ¬ PutsRecord w rec from hput)]
    rfl

theorem modeChanged_proposal : (proposal n w runs rec existing).modeChanged =
    decide (clearSetIDOnWrite rec.mode w.uid ≠ rec.mode) := by
  refine foldl_reclaims (P := fun _ p => p.modeChanged = _) rfl ?_
  intro done e rest p p' _ hstep h
  cases hstep <;> exact h

theorem tracks_proposal (hd : Describes w.ino existing s) (hr : RunsFor w.data.length runs) :
    Tracks n w.ino w.offset w.stop existing s (newExtents n w (nextSeq existing) 0 runs) existing
      (proposal n w runs rec existing) :=
  (tracks_start hd hr).foldl hd

theorem contents_proposal (hd : Describes w.ino existing s) (hr : RunsFor w.data.length runs) :
    (s.commit (proposal n w runs rec existing).ops).contents (extentValue w.ino) +
        piecesOf n w.offset w.stop (proposal n w runs rec existing).deferredReclaim =
      ↑(newExtents n w (nextSeq existing) 0 runs) + piecesOf n w.offset w.stop existing +
        valuesOf (proposal n w runs rec existing).deferredReclaim := by
  have ht : Tracks n w.ino w.offset w.stop existing s _ existing
      (proposal n w runs rec existing) := tracks_proposal hd hr
  have hc := s.contents_commit (extentValue w.ino) ht.keys_nodup
  rw [hd.contents_eq] at hc
  have hb := ht.balance
  -- Both equations have the operations' old and new values in common, which cancel.
  refine add_left_cancel (a := ((proposal n w runs rec existing).ops.map
      fun op => s.held (extentValue w.ino) op.key).sum) ?_
  calc _ = (s.commit (proposal n w runs rec existing).ops).contents (extentValue w.ino) +
          ((proposal n w runs rec existing).ops.map
            fun op => s.held (extentValue w.ino) op.key).sum +
          piecesOf n w.offset w.stop (proposal n w runs rec existing).deferredReclaim := by abel
    _ = _ := by
      rw [hc, ← valuesOf, add_comm (valuesOf existing), hb]
      abel

/-! ## What the comparisons cover -/

def rewrites (n : Node) (start stop : Nat) (e : ExtentValue) : Nat :=
  if n.owns e.diskOff = false ∨ (start ≤ e.logOff ∧ stop < e.endOff ∧ tailSkip e stop = 0) then 0
  else if e.logOff < start ∧ stop < e.endOff then 2
  else 1

def splitCount (n : Node) (start stop : Nat) : Nat → Nat → List Extent → Nat
  | _, _, [] => 0
  | ops, cmps, e :: es =>
    if e.Overlaps start stop ∧ ops + maxReclaimOps + 1 ≤ maxWriteTxnOps ∧
        cmps + 1 ≤ maxWriteTxnOps then
      let k := rewrites n start stop e.toExtentValue
      (k - 1) + splitCount n start stop (ops + k) (cmps + min k 1) es
    else splitCount n start stop ops cmps es

def tailChunks (n : Node) (w : WriteReq) (runs : List Run) (rec : InodeRecord)
    (existing : List Extent) : List Nat :=
  range' (nextChunk existing + runs.length)
    (splitCount n w.offset w.stop (runs.length + if PutsRecord w rec then 1 else 0) runs.length
      existing)

theorem planReclaim_rewrites {o : Option ReclaimPlan} {next next' : Nat}
    (h : planReclaim n ino e start stop next = (o, next')) :
    next' = next + (rewrites n start stop e.toExtentValue - 1) ∧
      ((o = none ∧ rewrites n start stop e.toExtentValue = 0) ∨
        ∃ plan, o = some plan ∧ plan.ops.length = rewrites n start stop e.toExtentValue ∧
          rewrites n start stop e.toExtentValue ≠ 0) := by
  unfold planReclaim at h
  split at h
  · rename_i howns
    by_cases hh : e.logOff < start <;> by_cases ht : stop < e.endOff <;>
      simp only [splitAround, gt_iff_lt, hh, ht, if_true, if_false, Prod.mk.injEq] at h
    · obtain ⟨rfl, rfl⟩ := h
      simp [rewrites, howns, hh, ht, Nat.not_le.mpr hh]
    · obtain ⟨rfl, rfl⟩ := h
      simp [rewrites, howns, ht, Nat.not_le.mpr hh]
    · by_cases hskip : tailSkip e.toExtentValue stop = 0
      · rw [if_pos (by simp [tailOf, hskip])] at h
        obtain ⟨rfl, rfl⟩ := Prod.mk.inj h
        simp [rewrites, ht, hskip, Nat.not_lt.mp hh]
      · rw [if_neg (by simp [tailOf, hskip])] at h
        obtain ⟨rfl, rfl⟩ := Prod.mk.inj h
        simp [rewrites, howns, hh, hskip]
    · obtain ⟨rfl, rfl⟩ := h
      simp [rewrites, howns, hh, ht]
  · rename_i howns
    obtain ⟨rfl, rfl⟩ := Prod.mk.inj h
    simp [rewrites, howns]

structure Proposal.Guarded (ino fresh : Nat) (p : Proposal) : Prop where
  fresh_le : fresh ≤ p.nextChunk
  keys : ∀ op ∈ p.ops, op.key = .inode ino ∨ (∃ x ∈ p.cmps, x.key = some op.key) ∨
    ∃ c, op.key = .extent ino c ∧ fresh ≤ c ∧ c < p.nextChunk
  used : ∀ c, fresh ≤ c → c < p.nextChunk → ∃ op ∈ p.ops, op.key = .extent ino c

theorem exists_mem_extentAbsent {op : Op Val} {chunk : Nat} (h : op ∈ extentPuts ino chunk vs) :
    ∃ x ∈ extentAbsent ino chunk vs, x.key = some op.key := by
  induction vs generalizing chunk with
  | nil => cases h
  | cons v vs ih =>
    rcases mem_cons.mp h with rfl | h
    · exact ⟨_, mem_cons_self, rfl⟩
    · obtain ⟨x, hx, hk⟩ := ih h
      exact ⟨x, mem_cons_of_mem _ hx, hk⟩

theorem Proposal.Guarded.plan {fresh next : Nat} {plan : ReclaimPlan} (h : p.Guarded ino fresh)
    (hplan : planReclaim n ino e start stop p.nextChunk = (some plan, next)) :
    Proposal.Guarded ino fresh (p.withPlan plan next) := by
  obtain ⟨-, hcmp, -, -, hkeys⟩ := planReclaim_some hplan
  have hle : p.nextChunk ≤ next := by
    rcases hkeys with ⟨hn, -⟩ | ⟨hn, -⟩ <;> omega
  refine ⟨h.fresh_le.trans hle, fun op hop => ?_, fun c hlo hhi => ?_⟩
  · rcases mem_append.mp hop with hop | hop
    · rcases h.keys op hop with hk | ⟨x, hx, hxk⟩ | ⟨c, hk, hlo, hhi⟩
      · exact .inl hk
      · exact .inr (.inl ⟨x, mem_append_left _ hx, hxk⟩)
      · exact .inr (.inr ⟨c, hk, hlo, hhi.trans_le hle⟩)
    · rcases planReclaim_key hplan hop with hk | ⟨hk, hn⟩
      · refine .inr (.inl ⟨plan.cmp, ?_, ?_⟩)
        · exact mem_concat_self
        · rw [hcmp, hk]
          rfl
      · exact .inr (.inr ⟨_, hk, h.fresh_le, by simp only; omega⟩)
  · by_cases hold : c < p.nextChunk
    · obtain ⟨op, hop, hk⟩ := h.used c hlo hold
      exact ⟨op, mem_append_left _ hop, hk⟩
    · rcases hkeys with ⟨hn, -⟩ | ⟨hn, hk⟩
      · exact absurd (hn ▸ hhi) hold
      · have hc : c = p.nextChunk := by
          simp only at hhi
          omega
        have hmem : Key.extent ino c ∈ plan.ops.map Op.key := by
          rw [hk, hc]
          exact mem_cons_of_mem _ (mem_singleton_self _)
        obtain ⟨op, hop, hok⟩ := mem_map.mp hmem
        exact ⟨op, mem_append_right _ hop, hok⟩

theorem Proposal.Guarded.foldl {fresh : Nat} (h : p.Guarded ino fresh) (es : List Extent) :
    (es.foldl (Proposal.reclaim n ino start) p).Guarded ino fresh ∧
      (es.foldl (Proposal.reclaim n ino start) p).nextChunk =
        p.nextChunk + splitCount n start p.stop p.ops.length p.cmps.length es := by
  induction es generalizing p with
  | nil => exact ⟨h, rfl⟩
  | cons e es ih =>
    rw [foldl_cons, splitCount]
    by_cases hov : e.Overlaps start p.stop
    · have hnot : ¬ (e.logOff ≥ p.stop ∨ start ≥ e.endOff) := by
        simp only [ExtentValue.Overlaps] at hov
        omega
      by_cases hroom : p.ops.length + maxReclaimOps + 1 ≤ maxWriteTxnOps ∧
          p.cmps.length + 1 ≤ maxWriteTxnOps
      · have hnotfull : ¬ (p.ops.length + maxReclaimOps + 1 > maxWriteTxnOps ∨
            p.cmps.length + 1 > maxWriteTxnOps) := by omega
        rw [if_pos ⟨hov, hroom⟩, Proposal.reclaim, if_neg hnot, if_neg hnotfull]
        cases hplan : planReclaim n ino e start p.stop p.nextChunk with
        | mk o next =>
          obtain ⟨rfl, hcase⟩ := planReclaim_rewrites hplan
          rcases hcase with ⟨rfl, hzero⟩ | ⟨plan, rfl, hlen, hpos⟩
          · have hsame := ih h
            simp only [hzero, Nat.zero_sub, Nat.zero_add, Nat.add_zero, Nat.zero_min]
            exact hsame
          · obtain ⟨hg, hnext⟩ := ih (h.plan hplan)
            refine ⟨hg, hnext.trans ?_⟩
            have hmin : min (rewrites n start p.stop e.toExtentValue) 1 = 1 :=
              min_eq_right (Nat.one_le_iff_ne_zero.mpr hpos)
            simp only [length_append, length_singleton, hlen, hmin, Nat.add_assoc]
      · have hfull : p.ops.length + maxReclaimOps + 1 > maxWriteTxnOps ∨
            p.cmps.length + 1 > maxWriteTxnOps := by omega
        rw [if_neg fun hc => hroom hc.2, Proposal.reclaim, if_neg hnot, if_pos hfull]
        exact ih ⟨h.fresh_le, h.keys, h.used⟩
    · have hskip : e.logOff ≥ p.stop ∨ start ≥ e.endOff := by
        simp only [ExtentValue.Overlaps] at hov
        omega
      rw [if_neg fun hc => hov hc.1, Proposal.reclaim, if_pos hskip]
      exact ih h

theorem extentPuts_length (ino chunk : Nat) (vs : List ExtentValue) :
    (extentPuts ino chunk vs).length = vs.length := by
  induction vs generalizing chunk with
  | nil => rfl
  | cons v vs ih => rw [extentPuts, length_cons, ih, length_cons]

theorem extentAbsent_length (ino chunk : Nat) (vs : List ExtentValue) :
    (extentAbsent ino chunk vs).length = vs.length := by
  induction vs generalizing chunk with
  | nil => rfl
  | cons v vs ih => rw [extentAbsent, length_cons, ih, length_cons]

theorem guarded_proposal (hr : RunsFor w.data.length runs) :
    (proposal n w runs rec existing).Guarded w.ino (nextChunk existing + runs.length) ∧
      ∀ c, c ∈ tailChunks n w runs rec existing ↔ nextChunk existing + runs.length ≤ c ∧
        c < (proposal n w runs rec existing).nextChunk := by
  have hchunk : (Proposal.start n w runs rec existing).nextChunk =
      nextChunk existing + runs.length := by rw [Proposal.start, newExtents_length]
  have hstart : (Proposal.start n w runs rec existing).Guarded w.ino
      (nextChunk existing + runs.length) := by
    refine ⟨hchunk.ge, fun op hop => ?_, fun c hlo hhi => absurd (hchunk ▸ hhi) (not_lt.mpr hlo)⟩
    rcases start_ops_key hop with hk | hput
    · exact .inl hk
    · exact .inr (.inl (exists_mem_extentAbsent hput))
  obtain ⟨hg, hnext⟩ : (proposal n w runs rec existing).Guarded _ _ ∧
    (proposal n w runs rec existing).nextChunk = _ := hstart.foldl existing
  refine ⟨hg, fun c => ?_⟩
  have hops : (Proposal.start n w runs rec existing).ops.length =
      runs.length + if PutsRecord w rec then 1 else 0 := by
    simp only [Proposal.start, length_append, extentPuts_length, newExtents_length,
      newExtents_stop hr, PutsRecord, apply_ite length, length_singleton,
      length_nil]
    rfl
  have hcmps : (Proposal.start n w runs rec existing).cmps.length = runs.length := by
    rw [Proposal.start, extentAbsent_length, newExtents_length]
  have hstop : (Proposal.start n w runs rec existing).stop = w.stop := newExtents_stop hr
  rw [hops, hcmps, hstop, hchunk] at hnext
  rw [tailChunks, mem_range'_1, hnext]

theorem proposal_induction {P : List (Cmp Val) → List (Op Val) → Prop}
    (hstart : P (Proposal.start n w runs rec existing).cmps
      (Proposal.start n w runs rec existing).ops)
    (hplan : ∀ (cmps : List (Cmp Val)) (ops : List (Op Val)) (e : Extent) (plan : ReclaimPlan)
      (stop next next' : Nat), e ∈ existing ∧ w.offset < e.endOff →
        planReclaim n w.ino e w.offset stop next = (some plan, next') →
        ops.length + maxReclaimOps + 1 ≤ maxWriteTxnOps → cmps.length + 1 ≤ maxWriteTxnOps →
        P cmps ops → P (cmps ++ [plan.cmp]) (ops ++ plan.ops)) :
    P (proposal n w runs rec existing).cmps (proposal n w runs rec existing).ops := by
  refine foldl_reclaims (P := fun _ p => P p.cmps p.ops) hstart ?_
  intro done e rest p p' hsplit hstep h
  cases hstep with
  | keep | defer => exact h
  | plan hov hops hcmps hp =>
    exact hplan _ _ e _ _ _ _ ⟨hsplit ▸ mem_append_right _ mem_cons_self, hov.2⟩ hp hops hcmps h

theorem proposal_cmps_key {x : Cmp Val} (hx : x ∈ (proposal n w runs rec existing).cmps) :
    ∃ chunk, x.key = some (.extent w.ino chunk) := by
  revert x
  refine proposal_induction (P := fun cmps _ => ∀ {x : Cmp Val}, x ∈ cmps →
    ∃ chunk, x.key = some (.extent w.ino chunk)) ?_ ?_
  · intro x hx
    obtain ⟨k, rfl, -⟩ := mem_extentAbsent hx
    exact ⟨k, rfl⟩
  · intro cmps ops e plan stop next next' _ hplan _ _ ih x hx
    rcases mem_append.mp hx with hx | hx
    · exact ih hx
    · rw [mem_singleton.mp hx, (planReclaim_some hplan).2.1]
      exact ⟨_, rfl⟩

end

end EtcFS.Ipc
