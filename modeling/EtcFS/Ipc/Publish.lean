import EtcFS.Ipc.Planning

/-!
# Publishing without a fault

Every comparison holds, every transaction commits, and the result is a sum: the new extents and the
pieces of the old ones.
-/

namespace EtcFS.Ipc

open EtcFS.Core Metadata Arena List Option Core.Store

structure Pass where
  etcd : Etcd
  next : Nat
  freed : List Nat
  failed : Bool

def Pass.reclaimCovered (n : Node) (ino start stop : Nat) (r : Pass) (old : Extent) : Pass :=
  match planReclaim n ino old start stop r.next with
  | (none, next) => { r with next := next }
  | (some p, next) =>
    match r.etcd.txn [p.cmp] p.ops with
    | some etcd => { r with etcd := etcd, next := next, freed := r.freed ++ p.blocks }
    | none => { r with next := next, failed := true }

def reclaimDeferred (n : Node) (w : WriteReq) (p : Proposal) (r : Pass) : Pass :=
  p.deferredReclaim.foldl (Pass.reclaimCovered n w.ino w.offset p.stop) r

def reclaimSelected (n : Node) (ino start stop : Nat) (select : Extent → Bool) (etcd : Etcd) :
    Pass :=
  let extents := getExtents etcd ino
  (extents.filter select).foldl
    (fun r old => if r.failed then r else r.reclaimCovered n ino start stop old)
    ⟨etcd, nextChunk extents, [], false⟩

def maxOffset : Nat := offsetBound - 1

def truncateOnce (n : Node) (ino newSize : Nat) (etcd : Etcd) : Pass :=
  reclaimSelected n ino newSize maxOffset (fun e => decide (e.endOff > newSize)) etcd

def punchOnce (n : Node) (ino start stop : Nat) (etcd : Etcd) : Pass :=
  reclaimSelected n ino start stop
    (fun e => !decide (e.endOff ≤ start ∨ e.logOff ≥ stop)) etcd

def retryPass (pass : Etcd → Pass) : Nat → Etcd → Pass
  | 0, etcd => ⟨etcd, 0, [], true⟩
  | attempts + 1, etcd =>
    let r := pass etcd
    if r.failed then
      let r' := retryPass pass attempts r.etcd
      { r' with freed := r.freed ++ r'.freed }
    else r

def etcdAttempts : Nat := 5

def truncate (n : Node) (ino newSize : Nat) (etcd : Etcd) : Pass :=
  retryPass (truncateOnce n ino newSize) etcdAttempts etcd

def punchHole (n : Node) (ino start stop : Nat) (etcd : Etcd) : Pass :=
  retryPass (punchOnce n ino start stop) etcdAttempts etcd

def publishWrite (n : Node) (w : WriteReq) (runs : List Run) (rec : InodeRecord)
    (existing : List Extent) (etcd : Etcd) : Option Pass :=
  let p := proposal n w runs rec existing
  (etcd.txn p.cmps p.ops).map fun etcd =>
    reclaimDeferred n w p ⟨etcd, p.nextChunk, p.plans.flatMap ReclaimPlan.blocks, false⟩

/-! ## Passes only commit -/

theorem reclaimCovered_later (n : Node) (ino start stop : Nat) (r : Pass) (old : Extent) :
    r.etcd.Later (r.reclaimCovered n ino start stop old).etcd := by
  unfold Pass.reclaimCovered
  split
  · exact Store.Later.refl _
  · split
    · rename_i etcd htxn
      rw [(txn_eq_some_iff.mp htxn).2]
      exact (Store.Later.refl _).commit _
    · exact Store.Later.refl _

theorem foldl_later {pass : Pass → Extent → Pass}
    (h : ∀ (r : Pass) (e : Extent), r.etcd.Later (pass r e).etcd) (xs : List Extent) (r : Pass) :
    r.etcd.Later (xs.foldl pass r).etcd := by
  induction xs generalizing r with
  | nil => exact Store.Later.refl _
  | cons e xs ih => exact (h r e).trans (ih _)

theorem reclaimSelected_later (n : Node) (ino start stop : Nat) (select : Extent → Bool)
    (s : Etcd) : s.Later (reclaimSelected n ino start stop select s).etcd := by
  have hstep : ∀ (r : Pass) (e : Extent),
      r.etcd.Later (if r.failed then r else r.reclaimCovered n ino start stop e).etcd := by
    intro r e
    split
    · exact Store.Later.refl _
    · exact reclaimCovered_later n ino start stop r e
  exact foldl_later hstep _ ⟨s, _, [], false⟩

theorem retryPass_later {pass : Etcd → Pass} (h : ∀ s : Etcd, s.Later (pass s).etcd)
    (attempts : Nat) (s : Etcd) : s.Later (retryPass pass attempts s).etcd := by
  induction attempts generalizing s with
  | zero => exact Store.Later.refl _
  | succ attempts ih =>
    rw [retryPass]
    split
    · exact (h s).trans (ih _)
    · exact h s

theorem punchHole_later (n : Node) (ino start stop : Nat) (s : Etcd) :
    s.Later (punchHole n ino start stop s).etcd :=
  retryPass_later (fun s => reclaimSelected_later n ino start stop _ s) etcdAttempts s

theorem publishWrite_later {n : Node} {w : WriteReq} {runs : List Run} {rec : InodeRecord}
    {existing : List Extent} {s : Etcd} {r : Pass}
    (h : publishWrite n w runs rec existing s = some r) : s.Later r.etcd := by
  obtain ⟨t, ht, rfl⟩ := map_eq_some_iff.mp h
  refine Store.Later.trans ?_ (foldl_later (reclaimCovered_later n w.ino w.offset _) _ _)
  rw [(txn_eq_some_iff.mp ht).2]
  exact (Store.Later.refl s).commit _

/-! ## The record -/

theorem reclaimCovered_getInode (n : Node) (ino start stop : Nat) (r : Pass) (old : Extent)
    (i : Nat) : getInode (r.reclaimCovered n ino start stop old).etcd i = getInode r.etcd i := by
  unfold Pass.reclaimCovered
  split
  · rfl
  · rename_i plan next hplan
    split
    · rename_i etcd htxn
      have hkeys : ∀ op ∈ plan.ops, op.key ≠ .inode i := by
        intro op hop hk
        rcases planReclaim_key hplan hop with h | ⟨h, -⟩ <;> rw [hk] at h <;> cases h
      rw [(txn_eq_some_iff.mp htxn).2]
      exact congrArg (Option.map Versioned.value) (get_commit_of_untouched hkeys)
    · rfl

theorem publishWrite_getInode {n : Node} {w : WriteReq} {runs : List Run} {rec : InodeRecord}
    {existing : List Extent} {s : Etcd} {r : Pass} (hr : RunsFor w.data.length runs)
    (h : publishWrite n w runs rec existing s = some r) : getInode r.etcd w.ino =
      if PutsRecord w rec then some (updatedRecord w rec) else getInode s w.ino := by
  obtain ⟨t, ht, rfl⟩ := map_eq_some_iff.mp h
  have hfold : ∀ (xs : List Extent) (stop : Nat) (r : Pass),
      getInode (xs.foldl (Pass.reclaimCovered n w.ino w.offset stop) r).etcd w.ino =
        getInode r.etcd w.ino := by
    intro xs stop
    induction xs with
    | nil => exact fun _ => rfl
    | cons x xs ih =>
      exact fun r => (ih _).trans (reclaimCovered_getInode n w.ino w.offset stop r x w.ino)
  refine (hfold _ _ _).trans ?_
  have heff : effect (.inode w.ino) (proposal n w runs rec existing).ops = _ :=
    effect_inode_proposal hr
  rw [(txn_eq_some_iff.mp ht).2, getInode, get_commit, heff]
  split <;> rfl

/-! ## One rewrite -/

section

variable {n : Node} {ino start stop : Nat} {r : Pass} {e : Extent}

def givenUpBlocks (start stop : Nat) (e : ExtentValue) : List Nat :=
  rangeBlocks (givenUp e start stop).1 (givenUp e start stop).2

theorem mem_planBlocks {p : ReclaimPlan} {v : ExtentValue} {block : Nat}
    (hg : (p.freeOff, p.freeLen) = givenUp v start stop) :
    block ∈ p.blocks ↔ block ∈ givenUpBlocks start stop v := by
  rw [givenUpBlocks, ← hg, ReclaimPlan.blocks]
  split
  · rfl
  · have hzero : p.freeLen = 0 := by omega
    simp [hzero, rangeBlocks, blocksFor, blockSize]

def ChunksBelow (etcd : Etcd) (ino next : Nat) : Prop :=
  ∀ x ∈ getExtents etcd ino, x.chunk < next

theorem chunksBelow_nextChunk (etcd : Etcd) (ino : Nat) :
    ChunksBelow etcd ino (nextChunk (getExtents etcd ino)) :=
  fun _ hx => lt_onePast Extent.chunk hx

theorem ChunksBelow.commit {etcd : Etcd} {ops : List (Op Val)} {m next : Nat}
    (h : ChunksBelow etcd ino m) (hle : m ≤ next)
    (hops : ∀ op ∈ ops, ∀ c, op.key = .extent ino c → c < next) :
    ChunksBelow (etcd.commit ops) ino next := by
  intro x hx
  by_cases hop : ∃ op ∈ ops, op.key = .extent ino x.chunk
  · obtain ⟨op, hop, hk⟩ := hop
    exact hops op hop x.chunk hk
  · have hsame : (etcd.commit ops).get (.extent ino x.chunk) = etcd.get (.extent ino x.chunk) :=
      get_commit_of_untouched fun op hmem hk => hop ⟨op, hmem, hk⟩
    exact (h x (mem_getExtents.mpr (hsame ▸ mem_getExtents.mp hx))).trans_le hle

theorem planReclaim_holds {etcd : Etcd} {next next' : Nat} {p : ReclaimPlan}
    (h : planReclaim n ino e start stop next = (some p, next')) (he : e ∈ getExtents etcd ino) :
    ∀ c ∈ [p.cmp], etcd.holds c = true := by
  intro c hc
  rw [mem_singleton.mp hc, (planReclaim_some h).2.1, holds_modRevisionEq, Store.modRevision,
    mem_getExtents.mp he]
  rfl

structure Rewritten (n : Node) (ino start stop : Nat) (xs : List Extent) (r r' : Pass) :
    Prop where
  failed : r'.failed = r.failed
  contents : r'.etcd.contents (extentValue ino) + valuesOf xs =
    r.etcd.contents (extentValue ino) + piecesOf n start stop xs
  chunks : ChunksBelow r'.etcd ino r'.next
  others : ∀ k, (∀ e ∈ xs, k ≠ .extent ino e.chunk) → r.etcd.get k ≠ none →
    r'.etcd.get k = r.etcd.get k
  frame : ∀ k, (∀ c, k ≠ .extent ino c) → r'.etcd.get k = r.etcd.get k
  freed : ∀ block ∈ r'.freed, block ∈ r.freed ∨
    ∃ e ∈ xs, n.owns e.diskOff = true ∧ block ∈ givenUpBlocks start stop e.toExtentValue

theorem Rewritten.refl (hnext : ChunksBelow r.etcd ino r.next) :
    Rewritten n ino start stop [] r r :=
  ⟨rfl, rfl, hnext, fun _ _ _ => rfl, fun _ _ => rfl, fun _ hb => .inl hb⟩

theorem Rewritten.trans {xs ys : List Extent} {r' r'' : Pass}
    (h : Rewritten n ino start stop xs r r') (h' : Rewritten n ino start stop ys r' r'') :
    Rewritten n ino start stop (xs ++ ys) r r'' where
  failed := h'.failed.trans h.failed
  contents := by
    rw [valuesOf_append, piecesOf_append, add_comm (valuesOf xs), ← add_assoc, h'.contents,
      add_right_comm, h.contents, add_assoc]
  chunks := h'.chunks
  others := by
    intro k hk hne
    have hsame := h.others k (fun e he => hk e (mem_append_left _ he)) hne
    rw [h'.others k (fun e he => hk e (mem_append_right _ he)) (hsame ▸ hne), hsame]
  frame := fun k hk => (h'.frame k hk).trans (h.frame k hk)
  freed := by
    intro block hb
    rcases h'.freed block hb with hb | ⟨e, he, hg⟩
    · exact (h.freed block hb).imp_right fun ⟨e, he, hg⟩ => ⟨e, mem_append_left _ he, hg⟩
    · exact .inr ⟨e, mem_append_right _ he, hg⟩

theorem reclaimCovered_rewritten (he : e ∈ getExtents r.etcd ino) (hov : e.Overlaps start stop)
    (hnext : ChunksBelow r.etcd ino r.next) :
    Rewritten n ino start stop [e] r (r.reclaimCovered n ino start stop e) := by
  have hd := getExtents_describes r.etcd ino
  rcases hplan : planReclaim n ino e start stop r.next with ⟨p | p, next⟩
  · obtain ⟨rfl, hcut⟩ := planReclaim_none hplan
    have hr' : r.reclaimCovered n ino start stop e = r := by
      simp only [Pass.reclaimCovered, hplan]
    rw [hr']
    refine ⟨rfl, ?_, hnext, fun _ _ _ => rfl, fun _ _ => rfl, fun _ hb => .inl hb⟩
    rw [valuesOf_singleton, piecesOf_singleton, hcut, Multiset.coe_singleton]
  · obtain ⟨howns, -, hfree, hleaves, hkeys⟩ := planReclaim_some hplan
    have hr' : r.reclaimCovered n ino start stop e = { r with
        etcd := r.etcd.commit p.ops, next := next, freed := r.freed ++ p.blocks } := by
      simp only [Pass.reclaimCovered, hplan, txn_of_holds p.ops (planReclaim_holds hplan he)]
    have hfresh : r.etcd.get (.extent ino r.next) = none :=
      hd.get_eq_none fun x hx => (hnext x hx).ne
    have hsum := r.etcd.contents_commit (extentValue ino)
      (planReclaim_keys_nodup hplan (hnext e he))
    rw [planReclaim_held hd hplan he hnext, hleaves] at hsum
    have hcut : cutBy n start stop e.toExtentValue = survivors e.toExtentValue start stop :=
      if_pos ⟨hov, howns⟩
    rw [hr']
    refine ⟨rfl, ?_, ?_, ?_, ?_, ?_⟩
    · rw [valuesOf_singleton, piecesOf_singleton, hcut]
      exact hsum
    · have hle : r.next ≤ next := by
        rcases hkeys with ⟨hn, -⟩ | ⟨hn, -⟩ <;> omega
      refine hnext.commit hle fun op hop c hk => show c < next from ?_
      have hlt := hnext e he
      rcases planReclaim_key hplan hop with h | ⟨h, hn⟩ <;> rw [hk, Key.extent.injEq] at h <;> omega
    · intro k hk hne
      refine get_commit_of_untouched fun op hop hop' => ?_
      rcases planReclaim_key hplan hop with h | ⟨h, -⟩
      · exact hk e (mem_singleton_self _) (hop'.symm.trans h)
      · exact hne (hop'.symm.trans h ▸ hfresh)
    · intro k hk
      refine get_commit_of_untouched fun op hop hop' => ?_
      rcases planReclaim_key hplan hop with h | ⟨h, -⟩
      · exact hk _ (hop'.symm.trans h)
      · exact hk _ (hop'.symm.trans h)
    · intro block hb
      rcases mem_append.mp hb with hb | hb
      · exact .inl hb
      · exact .inr ⟨e, mem_singleton_self _, howns, (mem_planBlocks hfree).mp hb⟩

/-- The records still to be looked at are not the one just rewritten. -/
theorem Rewritten.rest {r' : Pass} {xs : List Extent} (h : Rewritten n ino start stop [e] r r')
    (hfresh : e ∉ xs) (hmem : ∀ x ∈ e :: xs, x ∈ getExtents r.etcd ino) :
    ∀ x ∈ xs, x ∈ getExtents r'.etcd ino := by
  intro x hx
  have hxr := hmem x (mem_cons_of_mem _ hx)
  have hne : x.chunk ≠ e.chunk := by
    intro hc
    rw [(getExtents_distinct r.etcd ino).eq_of_mem hxr (hmem e mem_cons_self) hc] at hx
    exact hfresh hx
  rw [mem_getExtents] at hxr ⊢
  rw [h.others _ ?_ (by simp [hxr]), hxr]
  intro y hy
  rw [mem_singleton.mp hy]
  simpa using hne

theorem foldl_rewritten {pass : Pass → Extent → Pass}
    (hpass : ∀ r e, r.failed = false → pass r e = r.reclaimCovered n ino start stop e)
    {xs : List Extent} (hnodup : xs.Nodup) (hok : r.failed = false)
    (hmem : ∀ e ∈ xs, e ∈ getExtents r.etcd ino) (hov : ∀ e ∈ xs, e.Overlaps start stop)
    (hnext : ChunksBelow r.etcd ino r.next) :
    Rewritten n ino start stop xs r (xs.foldl pass r) := by
  induction xs generalizing r with
  | nil => exact Rewritten.refl hnext
  | cons e xs ih =>
    obtain ⟨hfresh, hnodup⟩ := nodup_cons.mp hnodup
    have hfirst : Rewritten n ino start stop [e] r (pass r e) := by
      rw [hpass r e hok]
      exact reclaimCovered_rewritten (hmem e mem_cons_self) (hov e mem_cons_self) hnext
    refine hfirst.trans (ih hnodup (hfirst.failed.trans hok) ?_ ?_ hfirst.chunks)
    · exact hfirst.rest hfresh hmem
    · exact fun x hx => hov x (mem_cons_of_mem _ hx)

end

/-! ## Whole operations -/

section

variable {n : Node} {w : WriteReq} {runs : List Run} {rec : InodeRecord} {s : Etcd}

theorem holds_proposal (hr : RunsFor w.data.length runs) :
    ∀ c ∈ (proposal n w runs rec (getExtents s w.ino)).cmps, s.holds c = true := by
  have hd := getExtents_describes s w.ino
  have ht : Tracks n w.ino w.offset w.stop (getExtents s w.ino) s _ _
      (proposal n w runs rec (getExtents s w.ino)) := tracks_proposal hd hr
  intro c hc
  rcases ht.cmp_mem c hc with ⟨k, rfl, hk⟩ | ⟨e, he, rfl⟩
  · rw [holds_absent]
    refine hd.get_eq_none fun e he hek => ?_
    have hlt := chunksBelow_nextChunk s w.ino e he
    omega
  · rw [holds_modRevisionEq, Store.modRevision, mem_getExtents.mp he]
    rfl

variable {ino : Nat}

theorem Tracks.get_deferred {start stop : Nat} {existing : List Extent} {news : List ExtentValue}
    {p : Proposal} (ht : Tracks n ino start stop existing s news existing p)
    (hd : DistinctChunks existing) (t : Etcd) {e : Extent} (he : e ∈ p.deferredReclaim) :
    (t.commit p.ops).get (.extent ino e.chunk) = t.get (.extent ino e.chunk) := by
  have hes := (ht.deferred_mem e he).1
  refine get_commit_of_untouched fun op hop hk => ?_
  have hlt : e.chunk < nextChunk existing := lt_onePast Extent.chunk hes
  rcases ht.key_mem op hop with h | ⟨x, hx, h, hxd⟩ | ⟨c, h, hlo, -⟩ <;> rw [hk] at h
  · cases h
  · rw [Key.extent.injEq] at h
    rw [hd.eq_of_mem hx hes h.2.symm] at hxd
    exact hxd he
  · rw [Key.extent.injEq] at h
    omega

structure Published (n : Node) (w : WriteReq) (runs : List Run) (rec : InodeRecord) (s : Etcd)
    (r : Pass) : Prop where
  failed : r.failed = false
  contents : r.etcd.contents (extentValue w.ino) =
    ↑(newExtents n w (nextSeq (getExtents s w.ino)) 0 runs) +
      piecesOf n w.offset w.stop (getExtents s w.ino)
  record : getInode r.etcd w.ino =
    if PutsRecord w rec then some (updatedRecord w rec) else getInode s w.ino
  frame : ∀ k, k ≠ .inode w.ino → (∀ c, k ≠ .extent w.ino c) → r.etcd.get k = s.get k
  freed : ∀ block ∈ r.freed, ∃ e ∈ getExtents s w.ino, e.Overlaps w.offset w.stop ∧
    n.owns e.diskOff = true ∧ block ∈ givenUpBlocks w.offset w.stop e.toExtentValue

theorem publishWrite_published (n : Node) (rec : InodeRecord) (s : Etcd)
    (hr : RunsFor w.data.length runs) :
    ∃ r, publishWrite n w runs rec (getExtents s w.ino) s = some r ∧
      Published n w runs rec s r := by
  have hd := getExtents_describes s w.ino
  have ht : Tracks n w.ino w.offset w.stop (getExtents s w.ino) s _ _
      (proposal n w runs rec (getExtents s w.ino)) := tracks_proposal hd hr
  have hbal : (s.commit (proposal n w runs rec (getExtents s w.ino)).ops).contents _ + _ = _ :=
    contents_proposal hd hr
  have hinode : effect (.inode w.ino) (proposal n w runs rec (getExtents s w.ino)).ops = _ :=
    effect_inode_proposal hr
  have hpub : publishWrite n w runs rec (getExtents s w.ino) s = some (reclaimDeferred n w
      (proposal n w runs rec (getExtents s w.ino))
      ⟨s.commit (proposal n w runs rec (getExtents s w.ino)).ops,
        (proposal n w runs rec (getExtents s w.ino)).nextChunk,
        (proposal n w runs rec (getExtents s w.ino)).plans.flatMap ReclaimPlan.blocks,
        false⟩) := by
    simp only [publishWrite, txn_of_holds _ (holds_proposal hr), map_some]
  revert ht hbal hinode hpub
  generalize proposal n w runs rec (getExtents s w.ino) = p
  intro ht hbal hinode hpub
  refine ⟨_, hpub, ?_⟩
  -- What did not fit the transaction is still there as it was read.
  have hstill : ∀ e ∈ p.deferredReclaim, e ∈ getExtents (s.commit p.ops) w.ino := by
    intro e he
    rw [mem_getExtents, ht.get_deferred hd.distinct s he]
    exact mem_getExtents.mp (ht.deferred_mem e he).1
  have hbelow : ChunksBelow (s.commit p.ops) w.ino p.nextChunk := by
    refine (chunksBelow_nextChunk s w.ino).commit ht.chunk_le fun op hop c hk => ?_
    rcases ht.key_mem op hop with h | ⟨y, hy, h, -⟩ | ⟨c', h, -, hhi⟩ <;> rw [hk] at h
    · cases h
    · rw [Key.extent.injEq] at h
      exact h.2 ▸ (chunksBelow_nextChunk s w.ino y hy).trans_le ht.chunk_le
    · rw [Key.extent.injEq] at h
      exact h.2 ▸ hhi
  have hpass : Rewritten n w.ino w.offset w.stop p.deferredReclaim
      ⟨s.commit p.ops, p.nextChunk, p.plans.flatMap ReclaimPlan.blocks, false⟩
      (reclaimDeferred n w p
        ⟨s.commit p.ops, p.nextChunk, p.plans.flatMap ReclaimPlan.blocks, false⟩) := by
    rw [reclaimDeferred, ht.stop_eq]
    exact foldl_rewritten (fun _ _ _ => rfl) ht.deferred_nodup rfl hstill
      (fun e he => (ht.deferred_mem e he).2) hbelow
  refine ⟨hpass.failed, ?_, ?_, ?_, ?_⟩
  · refine add_right_cancel (b := valuesOf p.deferredReclaim) ?_
    rw [← hbal]
    exact hpass.contents
  · rw [getInode, hpass.frame _ (by simp), get_commit, hinode]
    split <;> rfl
  · intro k hk hk'
    rw [hpass.frame k hk']
    refine get_commit_of_untouched fun op hop hop' => ?_
    rcases ht.key_mem op hop with h | ⟨x, -, h, -⟩ | ⟨c, h, -⟩
    · exact hk (hop'.symm.trans h)
    · exact hk' _ (hop'.symm.trans h)
    · exact hk' _ (hop'.symm.trans h)
  · intro block hb
    rcases hpass.freed block hb with hb | ⟨e, he, howns, hg⟩
    · obtain ⟨plan, hplan, hb⟩ := mem_flatMap.mp hb
      obtain ⟨e, he, hov, howns, -, hfree⟩ := ht.plan_mem plan hplan
      exact ⟨e, he, hov, howns, (mem_planBlocks hfree).mp hb⟩
    · obtain ⟨hes, hov⟩ := ht.deferred_mem e he
      exact ⟨e, hes, hov, howns, hg⟩

theorem published_of_publishWrite (hr : RunsFor w.data.length runs) {r : Pass}
    (h : publishWrite n w runs rec (getExtents s w.ino) s = some r) :
    Published n w runs rec s r := by
  obtain ⟨r', hr', hpub⟩ := publishWrite_published n rec s hr
  rw [h] at hr'
  exact some.inj hr' ▸ hpub

theorem valuesOf_add_piecesOf_filter {start stop : Nat} {select : Extent → Bool}
    {xs : List Extent} (hsel : ∀ e ∈ xs, select e = true ↔ e.Overlaps start stop) :
    valuesOf xs + piecesOf n start stop (xs.filter select) =
      piecesOf n start stop xs + valuesOf (xs.filter select) := by
  induction xs with
  | nil => rfl
  | cons e xs ih =>
    have happ : e :: xs = [e] ++ xs := rfl
    have ih := ih fun x hx => hsel x (mem_cons_of_mem _ hx)
    have he := hsel e mem_cons_self
    rw [happ, filter_append, filter_singleton]
    cases hs : select e with
    | true =>
      simp only [cond_true, valuesOf_append, piecesOf_append]
      rw [add_add_add_comm, ih]
      abel
    | false =>
      have hov : ¬ e.Overlaps start stop := fun h => by simp [hs] at he; exact he h
      simp only [cond_false, nil_append, valuesOf_append, piecesOf_append,
        valuesOf_singleton, piecesOf_singleton, cutBy_of_not_overlaps hov, Multiset.coe_singleton]
      rw [add_assoc, ih, add_assoc]

structure Reclaimed (n : Node) (ino start stop : Nat) (s : Etcd) (r : Pass) : Prop where
  failed : r.failed = false
  contents : r.etcd.contents (extentValue ino) = piecesOf n start stop (getExtents s ino)
  frame : ∀ k, (∀ c, k ≠ .extent ino c) → r.etcd.get k = s.get k
  freed : ∀ block ∈ r.freed, ∃ e ∈ getExtents s ino, e.Overlaps start stop ∧
    n.owns e.diskOff = true ∧ block ∈ givenUpBlocks start stop e.toExtentValue

theorem reclaimSelected_reclaimed {start stop : Nat} {select : Extent → Bool}
    (hsel : ∀ e ∈ getExtents s ino, select e = true ↔ e.Overlaps start stop) :
    Reclaimed n ino start stop s (reclaimSelected n ino start stop select s) := by
  have hd := getExtents_describes s ino
  have hmem : ∀ e ∈ (getExtents s ino).filter select,
      e ∈ getExtents s ino ∧ e.Overlaps start stop := by
    intro e he
    rw [mem_filter] at he
    exact ⟨he.1, (hsel e he.1).mp he.2⟩
  have hpass : Rewritten n ino start stop ((getExtents s ino).filter select)
      ⟨s, nextChunk (getExtents s ino), [], false⟩
      (reclaimSelected n ino start stop select s) :=
    foldl_rewritten (fun r e hr => if_neg (by simp [hr]))
      ((List.Nodup.of_map _ hd.distinct).filter _) rfl (fun e he => (hmem e he).1)
      (fun e he => (hmem e he).2) (chunksBelow_nextChunk s ino)
  refine ⟨hpass.failed, ?_, hpass.frame, ?_⟩
  · apply add_right_cancel (b := valuesOf ((getExtents s ino).filter select))
    rw [← valuesOf_add_piecesOf_filter hsel, hpass.contents, hd.contents_eq]
    rfl
  · intro block hb
    rcases hpass.freed block hb with hb | ⟨e, he, howns, hg⟩
    · cases hb
    · exact ⟨e, (hmem e he).1, (hmem e he).2, howns, hg⟩

theorem retryPass_of_ok {pass : Etcd → Pass} {attempts : Nat} (h : (pass s).failed = false) :
    retryPass pass (attempts + 1) s = pass s := by
  simp [retryPass, h]

theorem punched_iff (e : Extent) : (!decide (e.endOff ≤ start ∨ e.logOff ≥ stop)) = true ↔
    e.Overlaps start stop := by
  simp only [ExtentValue.Overlaps, Bool.not_eq_true', decide_eq_false_iff_not]
  omega

theorem punchOnce_reclaimed (n : Node) (ino start stop : Nat) (s : Etcd) :
    Reclaimed n ino start stop s (punchOnce n ino start stop s) :=
  reclaimSelected_reclaimed fun e _ => punched_iff e

theorem punchHole_eq_punchOnce (n : Node) (ino start stop : Nat) (s : Etcd) :
    punchHole n ino start stop s = punchOnce n ino start stop s := by
  rw [punchHole, etcdAttempts, retryPass_of_ok (punchOnce_reclaimed n ino start stop s).failed]

theorem punchHole_reclaimed (n : Node) (ino start stop : Nat) (s : Etcd) :
    Reclaimed n ino start stop s (punchHole n ino start stop s) := by
  rw [punchHole_eq_punchOnce]
  exact punchOnce_reclaimed n ino start stop s

theorem truncated_iff {newSize : Nat} {e : Extent} (hin : e.logOff < maxOffset) :
    decide (e.endOff > newSize) = true ↔ e.Overlaps newSize maxOffset := by
  simp only [ExtentValue.Overlaps, decide_eq_true_eq]
  omega

theorem truncateOnce_reclaimed (n : Node) (newSize : Nat) {s : Etcd}
    (hin : ∀ e ∈ getExtents s ino, e.logOff < maxOffset) :
    Reclaimed n ino newSize maxOffset s (truncateOnce n ino newSize s) :=
  reclaimSelected_reclaimed fun e he => truncated_iff (hin e he)

theorem truncate_eq_truncateOnce (n : Node) (newSize : Nat) {s : Etcd}
    (hin : ∀ e ∈ getExtents s ino, e.logOff < maxOffset) :
    truncate n ino newSize s = truncateOnce n ino newSize s := by
  rw [truncate, etcdAttempts, retryPass_of_ok (truncateOnce_reclaimed n newSize hin).failed]

theorem truncate_reclaimed (n : Node) (newSize : Nat) {s : Etcd}
    (hin : ∀ e ∈ getExtents s ino, e.logOff < maxOffset) :
    Reclaimed n ino newSize maxOffset s (truncate n ino newSize s) := by
  rw [truncate_eq_truncateOnce n newSize hin]
  exact truncateOnce_reclaimed n newSize hin

end

end EtcFS.Ipc
