import EtcFS.Arena.Reconstruct
import EtcFS.Core.Claims
import EtcFS.Scrub.Reclaiming

/-!
# Blocks are given back once

Scrub passes and truncates race for the same extents, and only the one that is told it got a record
gives the blocks back.
-/

namespace EtcFS.Correctness.Reclaim

open EtcFS.Core Metadata Arena Ipc Scrub List Option Core.Store

/-! ## The account of the blocks -/

def storedExtent (etcd : Etcd) (key : Nat × Nat) : Option ExtentValue :=
  (etcd.get (.extent key.1 key.2)).map Versioned.value

def valueBlocks : Option ExtentValue → Set Nat
  | none => ∅
  | some v => {b | b ∈ rangeBlocks v.diskOff v.length}

structure Balanced (etcd : Etcd) (arenas : List Arena) (ranges : List HeldRange) : Prop where
  tidy : Tidy arenas
  accounted : Accounted {b | Available arenas b} (fun key => valueBlocks (storedExtent etcd key))
    (ranges.map fun r => {b | b ∈ r.blocks})
  ends : ∀ key v, storedExtent etcd key = some v → v.endOff ≤ maxOffset

variable {etcd etcd' : Etcd} {arenas : List Arena} {ranges ranges' : List HeldRange}
  {r : HeldRange} {key : Nat × Nat} {kept : Option ExtentValue}

def putExtent (key : Nat × Nat) : Option ExtentValue → Op Val
  | some v => .put (.extent key.1 key.2) v
  | none => .delete (.extent key.1 key.2)

theorem storedExtent_commit_putExtent (key' : Nat × Nat) :
    storedExtent (etcd.commit [putExtent key kept]) key' =
      if key' = key then kept else storedExtent etcd key' := by
  have hop : (putExtent key kept).key = .extent key.1 key.2 := by cases kept <;> rfl
  split
  · rename_i h
    subst h
    cases kept <;> simp [storedExtent, get_commit, effect, putExtent, Op.effect]
  · rename_i h
    rw [storedExtent, get_commit_of_untouched, storedExtent]
    intro op hmem heq
    rw [mem_singleton.mp hmem, hop, Key.extent.injEq] at heq
    exact h (Prod.ext heq.1.symm heq.2.symm)

namespace Balanced

theorem perm (h : Balanced etcd arenas ranges) (hp : ranges.Perm ranges') :
    Balanced etcd arenas ranges' where
  tidy := h.tidy
  accounted := h.accounted.perm (hp.map _)
  ends := h.ends

theorem forget (h : Balanced etcd arenas (r :: ranges)) : Balanced etcd arenas ranges where
  tidy := h.tidy
  accounted := h.accounted.forget
  ends := h.ends

theorem congr (h : Balanced etcd arenas ranges)
    (hsame : ∀ key, storedExtent etcd' key = storedExtent etcd key) :
    Balanced etcd' arenas ranges := by
  have heq : storedExtent etcd' = storedExtent etcd := funext hsame
  exact ⟨h.tidy, heq ▸ h.accounted, heq ▸ h.ends⟩

theorem free (h : Balanced etcd arenas (r :: ranges)) :
    Balanced etcd (freeLocked r.diskOff r.length arenas) ranges ∧
      doubleFreed r.diskOff r.length arenas = 0 := by
  obtain ⟨havail, -, htidy⟩ := freeLocked_spec r.diskOff r.length h.tidy
  refine ⟨⟨htidy, h.accounted.giveBack fun b hb => ?_, h.ends⟩, doubleFreed_eq_zero fun b hb => ?_⟩
  · have hle := blocksFor64_le r.length
    refine (havail b hb).imp_right fun hb => mem_rangeBlocks.mpr ?_
    omega
  · exact Set.disjoint_left.mp (h.accounted.owed_taken _ mem_cons_self) hb

theorem allocate (h : Balanced etcd arenas ranges) (size : Nat) :
    Balanced etcd (Arena.allocate arenas size).2 ranges := by
  obtain ⟨hsome, hnone, -, htidy⟩ := allocate_spec size h.tidy
  refine ⟨htidy, h.accounted.take fun b hb => ?_, h.ends⟩
  cases hruns : (Arena.allocate arenas size).1 with
  | none => exact hnone hruns b hb
  | some runs => exact (((hsome runs hruns).1.left b).mp hb).1

theorem giveUp (h : Balanced etcd arenas ranges)
    (hkept : valueBlocks kept ⊆ valueBlocks (storedExtent etcd key))
    (hend : ∀ v, kept = some v → v.endOff ≤ maxOffset)
    (hr : {b | b ∈ r.blocks} ⊆ valueBlocks (storedExtent etcd key))
    (hapart : Disjoint {b | b ∈ r.blocks} (valueBlocks kept)) :
    Balanced (etcd.commit [putExtent key kept]) arenas (r :: ranges) where
  tidy := h.tidy
  accounted := by
    refine h.accounted.giveUp (fun key' => ?_) hr ?_
    · rw [storedExtent_commit_putExtent]
      split
      · rename_i heq
        exact heq ▸ hkept
      · exact subset_rfl
    · rwa [storedExtent_commit_putExtent, if_pos rfl]
  ends := by
    intro key' v hv
    rw [storedExtent_commit_putExtent] at hv
    split at hv
    · exact hend v hv
    · exact h.ends key' v hv

end Balanced

/-! ## What a truncate cuts off -/

section

variable {n : Node} {ino newSize stop next next' : Nat} {e : Extent} {p : ReclaimPlan}

theorem planReclaim_past_end (hend : e.endOff ≤ stop)
    (h : planReclaim n ino e newSize stop next = (some p, next')) :
    p.cmp = .modRevisionEq (.extent ino e.chunk) e.modRevision ∧
      p.ops = [putExtent (ino, e.chunk) (splitAround e.toExtentValue newSize stop).1] ∧
      (p.freeOff, p.freeLen) = givenUp e.toExtentValue newSize stop := by
  obtain ⟨-, hcmp, hfree, -, -⟩ := planReclaim_some h
  refine ⟨hcmp, ?_, hfree⟩
  have htail : ¬ stop < e.endOff := not_lt.mpr hend
  rw [planReclaim] at h
  split at h
  · by_cases hhead : e.logOff < newSize
    · simp only [splitAround, gt_iff_lt, hhead, htail, if_true, if_false, Prod.mk.injEq,
        some.injEq] at h ⊢
      rw [← h.1]
      rfl
    · simp only [splitAround, gt_iff_lt, hhead, htail, if_false, Prod.mk.injEq,
        some.injEq] at h ⊢
      rw [← h.1]
      rfl
  · cases h

variable {v : ExtentValue}

theorem mem_cut_blocks (hlt : newSize < v.endOff) (hend : v.endOff ≤ stop) {b : Nat} :
    (b ∈ valueBlocks (splitAround v newSize stop).1 ↔ v.diskOff / blockSize ≤ b ∧
        b < v.diskOff / blockSize + headBlocks v newSize) ∧
      headBlocks v newSize ≤ blocksFor v.length ∧
      (b ∈ rangeBlocks (givenUp v newSize stop).1 (givenUp v newSize stop).2 ↔
        v.diskOff / blockSize + headBlocks v newSize ≤ b ∧
          b < v.diskOff / blockSize + blocksFor v.length) := by
  have htail : tailBlock v stop = blocksFor v.length := if_neg (not_lt.mpr hend)
  rw [mem_givenUp, htail]
  refine ⟨?_, ?_, Iff.rfl⟩
  · by_cases hhead : v.logOff < newSize
    · rw [splitAround, if_pos hhead, headBlocks, if_pos hhead]
      exact mem_rangeBlocks
    · rw [splitAround, if_neg hhead, headBlocks, if_neg hhead]
      refine iff_of_false (Set.notMem_empty b) ?_
      omega
  · simp only [headBlocks, blocksFor, ExtentValue.endOff, blockSize] at *
    split <;> omega

theorem Balanced.truncate (h : Balanced etcd arenas ranges) (hv : storedExtent etcd key = some v)
    (hlt : newSize < v.endOff) (hr : (r.diskOff, r.length) = givenUp v newSize maxOffset) :
    Balanced (etcd.commit [putExtent key (splitAround v newSize maxOffset).1]) arenas
      (r :: ranges) := by
  have hend := h.ends key v hv
  have hblocks : r.blocks =
      rangeBlocks (givenUp v newSize maxOffset).1 (givenUp v newSize maxOffset).2 := by
    rw [← hr, HeldRange.blocks]
  have hold : valueBlocks (storedExtent etcd key) = {b | b ∈ rangeBlocks v.diskOff v.length} := by
    rw [hv, valueBlocks]
  refine h.giveUp (fun b hb => ?_) (fun w hw => ?_) (fun b hb => ?_) ?_
  · obtain ⟨hkept, hle, -⟩ := mem_cut_blocks hlt hend (b := b)
    have hin := hkept.mp hb
    rw [hold]
    exact mem_rangeBlocks.mpr (by omega)
  · obtain ⟨hhead, rfl⟩ := ite_some_none_eq_some.mp hw
    simp only [headOf, ExtentValue.endOff] at *
    omega
  · obtain ⟨-, -, hgiven⟩ := mem_cut_blocks hlt hend (b := b)
    have hin := hgiven.mp (hblocks ▸ hb)
    rw [hold]
    exact mem_rangeBlocks.mpr (by omega)
  · refine Set.disjoint_left.mpr fun b hb hb' => ?_
    obtain ⟨hkept, -, hgiven⟩ := mem_cut_blocks hlt hend (b := b)
    have hin := hgiven.mp (hblocks ▸ hb)
    have hin' := hkept.mp hb'
    omega

theorem Balanced.delete (h : Balanced etcd arenas ranges) (hv : storedExtent etcd key = some v)
    (hr : (r.diskOff, r.length) = (v.diskOff, v.length)) :
    Balanced (etcd.commit [putExtent key none]) arenas (r :: ranges) := by
  have hold : valueBlocks (storedExtent etcd key) = {b | b ∈ r.blocks} := by
    rw [hv, valueBlocks, HeldRange.blocks, (Prod.mk.inj hr).1, (Prod.mk.inj hr).2]
  refine h.giveUp (Set.empty_subset _) (fun w hw => ?_) (fun b hb => ?_) (Set.disjoint_empty _)
  · cases hw
  · rwa [hold]

end

/-! ## What a job has seen -/

def SeenAt (etcd : Etcd) (ino : Nat) (e : Extent) : Prop :=
  ∃ earlier : Etcd, earlier.Later etcd ∧
    earlier.get (.extent ino e.chunk) = some ⟨e.toExtentValue, e.modRevision⟩

def FoundAt (etcd : Etcd) (f : Result) : Prop :=
  ∃ ino e, SeenAt etcd ino e ∧ f.key = extentKey ino e.chunk ∧ f.modRev = e.modRevision ∧
    (f.diskOff, f.length) = (e.diskOff, e.length)

def JobSeen (etcd : Etcd) : Job → Prop
  | .scanned extents => ∀ x ∈ extents, SeenAt etcd x.1 x.2
  | .fix findings | .freeing _ findings => ∀ f ∈ findings, FoundAt etcd f
  | .truncate ino _ _ todo | .giving _ ino _ _ todo => ∀ e ∈ todo, SeenAt etcd ino e
  | .release _ _ | .scan | .done => True

section

variable {ino : Nat} {e : Extent} {job : Job}

theorem SeenAt.later (h : SeenAt etcd ino e) (hl : etcd.Later etcd') : SeenAt etcd' ino e := by
  obtain ⟨earlier, hearlier, hget⟩ := h
  exact ⟨earlier, hearlier.trans hl, hget⟩

theorem FoundAt.later {f : Result} (h : FoundAt etcd f) (hl : etcd.Later etcd') :
    FoundAt etcd' f := by
  obtain ⟨ino, e, hseen, hf⟩ := h
  exact ⟨ino, e, hseen.later hl, hf⟩

theorem JobSeen.later (h : JobSeen etcd job) (hl : etcd.Later etcd') : JobSeen etcd' job := by
  cases job with
  | scanned extents => exact fun x hx => (h x hx).later hl
  | fix findings => exact fun f hf => (h f hf).later hl
  | freeing r findings => exact fun f hf => (h f hf).later hl
  | truncate ino newSize chunk todo => exact fun e he => (h e he).later hl
  | giving r ino newSize chunk todo => exact fun e he => (h e he).later hl
  | release | scan | done => trivial

theorem SeenAt.stored (h : SeenAt etcd ino e)
    (hrev : etcd.holds (.modRevisionEq (.extent ino e.chunk) e.modRevision) = true) :
    storedExtent etcd (ino, e.chunk) = some e.toExtentValue := by
  obtain ⟨earlier, hearlier, hget⟩ := h
  have hsame := hearlier.get_of_modRevision_eq hget (holds_modRevisionEq.mp hrev)
  rw [storedExtent, hsame, map_some]

theorem seenAt_list {x : Nat × Extent} (h : x ∈ etcd.list decodeAnyExtent) : SeenAt etcd x.1 x.2 :=
  ⟨etcd, Store.Later.refl _, mem_scan_extents (t := etcd) h⟩

theorem seenAt_getExtents (h : e ∈ getExtents etcd ino) : SeenAt etcd ino e :=
  ⟨etcd, Store.Later.refl _, mem_getExtents.mp h⟩

theorem foundAt_findings {s : Reclaiming} {extents : List (Nat × Extent)}
    (h : ∀ x ∈ extents, SeenAt s.etcd x.1 x.2) : ∀ f ∈ s.findings extents, FoundAt s.etcd f := by
  intro f hf
  rcases mem_append.mp hf with hf | hf
  · obtain ⟨x, hx, hfx⟩ := mem_filterMap.mp hf
    obtain ⟨-, hfx⟩ := ite_none_left_eq_some.mp hfx
    cases hfx
    exact ⟨x.1, x.2, h x hx, rfl, rfl, rfl⟩
  · obtain ⟨x, hx, hfx⟩ := mem_filterMap.mp hf
    split at hfx
    · cases hfx
    · obtain ⟨-, hfx⟩ := ite_none_left_eq_some.mp hfx
      cases hfx
      exact ⟨x.1, x.2, h x hx, rfl, rfl, rfl⟩

end

/-! ## The steps -/

structure Good (s : Reclaiming) : Prop where
  balanced : Balanced s.etcd s.arenas s.ranges
  seen : ∀ job ∈ s.jobs, JobSeen s.etcd job
  once : s.doubleFrees = 0

namespace Good

variable {s t : Reclaiming} {i : Nat} {job job' : Job}

theorem replace (h : Good s) (hi : s.jobs[i]? = some job) (hjobs : t.jobs = s.jobs.set i job')
    (hlater : s.etcd.Later t.etcd) (hseen : JobSeen t.etcd job')
    (hbal : ∀ rest, Balanced s.etcd s.arenas (s.held ++ (job.owed ++ rest)) →
      Balanced t.etcd t.arenas (t.held ++ (job'.owed ++ rest)) ∧
        t.doubleFrees = s.doubleFrees) : Good t := by
  obtain ⟨rest, hperm, hset⟩ := flatMap_set_perm Job.owed hi
  obtain ⟨hbal, honce⟩ := hbal rest (h.balanced.perm (hperm.append_left _))
  refine ⟨?_, fun x hx => ?_, honce.trans h.once⟩
  · rw [Reclaiming.ranges, hjobs]
    exact hbal.perm ((hset job').symm.append_left _)
  · rw [hjobs] at hx
    rcases mem_or_eq_of_mem_set hx with hx | rfl
    · exact (h.seen x hx).later hlater
    · exact hseen

theorem setJob (h : Good s) (hi : s.jobs[i]? = some job) (hseen : JobSeen s.etcd job')
    (howed : job'.owed.Perm job.owed) : Good (s.setJob i job') :=
  h.replace hi rfl (Store.Later.refl _) hseen fun rest hbal =>
    ⟨hbal.perm ((howed.symm.append_right rest).append_left _), rfl⟩

theorem spawn (h : Good s) {held : List HeldRange} (hseen : JobSeen s.etcd job)
    (howed : (held ++ job.owed).Perm s.held) :
    Good { s with held := held, jobs := s.jobs ++ [job] } := by
  refine ⟨h.balanced.perm ?_, fun x hx => ?_, h.once⟩
  · rw [Reclaiming.ranges, Reclaiming.ranges, flatMap_append, flatMap_singleton]
    refine ((howed.symm.append_right _).trans ?_)
    rw [append_assoc]
    exact perm_append_comm.append_left _
  · rcases mem_append.mp hx with hx | hx
    · exact h.seen x hx
    · exact mem_singleton.mp hx ▸ hseen

theorem free (h : Good s) (hi : s.jobs[i]? = some job) {r : HeldRange}
    (howed : job.owed = r :: job'.owed) (hseen : JobSeen s.etcd job') :
    Good ((s.free r).setJob i job') := by
  refine h.replace hi rfl (Store.Later.refl _) hseen fun rest hbal => ?_
  rw [howed, cons_append] at hbal
  obtain ⟨hbal, hzero⟩ := (hbal.perm perm_middle).free
  exact ⟨hbal, by rw [Reclaiming.setJob, Reclaiming.free, hzero, Nat.add_zero]⟩

theorem request (h : Good s) (hi : s.jobs[i]? = some job) (howed : job.owed = [])
    (r : HeldRange) {change : Option Etcd} (next : Outcome → Job) (reply : Reply)
    (hchange : ∀ etcd, change = some etcd → s.etcd.Later etcd ∧
      ∀ ranges, Balanced s.etcd s.arenas ranges → Balanced etcd s.arenas (r :: ranges))
    (hseen : ∀ o etcd, s.etcd.Later etcd → JobSeen etcd (next o))
    (hnext : ∀ o, (next o).owed = [] ∨ o = .committed ∧ (next o).owed = [r]) :
    Good ({ s with etcd := (reply.deliver change s.etcd).2 }.setJob i
      (next (reply.deliver change s.etcd).1)) := by
  rcases reply.deliver_cases change s.etcd with ⟨hsame, hno⟩ | ⟨etcd, hsome, hnew, -⟩
  · have hnone := (hnext (reply.deliver change s.etcd).1).resolve_right fun ho => hno ho.1
    rw [hsame]
    refine h.replace hi rfl (Store.Later.refl _) (hseen _ _ (Store.Later.refl _)) ?_
    intro rest hbal
    rw [howed] at hbal
    rw [hnone]
    exact ⟨hbal, rfl⟩
  · obtain ⟨hlater, hgive⟩ := hchange etcd hsome
    rw [hnew]
    refine h.replace hi rfl hlater (hseen _ _ hlater) fun rest hbal => ?_
    rw [howed] at hbal
    have hbal := hgive _ hbal
    rcases hnext (reply.deliver change s.etcd).1 with hnone | ⟨-, hone⟩
    · rw [hnone]
      exact ⟨hbal.forget, rfl⟩
    · rw [hone]
      exact ⟨hbal.perm perm_middle.symm, rfl⟩

theorem extentNamed_eq {ino chunk : Nat} {k : Key}
    (h : extentNamed (extentKey ino chunk) = some k) : k = .extent ino chunk := by
  obtain ⟨⟨i, c⟩, hparse, rfl⟩ := map_eq_some_iff.mp h
  obtain ⟨hi, hc⟩ := parseExtentKey_eq_some hparse
  rw [hi, hc]

theorem fixFinding (h : Good s) {findings rest : List Result} {f : Result} (locked : Bool)
    (reply : Reply) (hi : s.jobs[i]? = some (.fix findings)) (hf : f ∈ findings)
    (hrest : ∀ x ∈ rest, x ∈ findings) : Good (s.fixFinding i f rest locked reply) := by
  have hfound : ∀ x ∈ findings, FoundAt s.etcd x := h.seen _ (mem_of_getElem? hi)
  have hleft : ∀ x ∈ rest, FoundAt s.etcd x := fun x hx => hfound x (hrest x hx)
  have hskip : Good (s.setJob i (.fix rest)) := h.setJob hi hleft (List.Perm.refl _)
  rw [Reclaiming.fixFinding]
  split
  · split
    · exact hskip
    · rename_i k hk
      obtain ⟨ino, e, hseen, hkey, hrev, hrange⟩ := hfound f hf
      rw [hkey] at hk
      obtain rfl := extentNamed_eq hk
      refine h.request hi rfl ⟨f.ino, f.diskOff, f.length⟩ (fun o =>
        if o = .committed ∧ 0 < f.length then .freeing ⟨f.ino, f.diskOff, f.length⟩ rest
        else .fix rest) reply (fun etcd hetcd => ?_) (fun o etcd hlater => ?_) fun o => ?_
      · obtain ⟨hholds, rfl⟩ := txn_eq_some_iff.mp hetcd
        have hstored := hseen.stored (hrev ▸ hholds _ (mem_singleton_self _))
        exact ⟨(Store.Later.refl _).commit _, fun ranges hbal => hbal.delete hstored hrange⟩
      · have hlate : ∀ x ∈ rest, FoundAt etcd x := fun x hx => (hleft x hx).later hlater
        split <;> exact hlate
      · split
        · rename_i ho
          exact .inr ⟨ho.1, rfl⟩
        · exact .inl rfl
  · exact hskip

theorem truncateExtent (h : Good s) (node : NodeID) (gen : Nat) {ino newSize chunk : Nat}
    {e : Extent} {todo : List Extent} (reply : Reply)
    (hi : s.jobs[i]? = some (.truncate ino newSize chunk (e :: todo))) :
    Good (s.truncateExtent node gen i ino newSize chunk e todo reply) := by
  have hseen : ∀ x ∈ e :: todo, SeenAt s.etcd ino x := h.seen _ (mem_of_getElem? hi)
  obtain ⟨hfirst, htodo⟩ := forall_mem_cons.mp hseen
  have hskip : ∀ chunk, Good (s.setJob i (.truncate ino newSize chunk todo)) :=
    fun _ => h.setJob hi htodo (List.Perm.refl _)
  rw [Reclaiming.truncateExtent]
  split
  · rename_i hlt
    split
    · exact hskip _
    · rename_i p chunk' hplan
      refine h.request hi rfl ⟨ino, p.freeOff, p.freeLen⟩ (fun o =>
        if o = .committed then
          if 0 < p.freeLen then .giving ⟨ino, p.freeOff, p.freeLen⟩ ino newSize chunk' todo
          else .truncate ino newSize chunk' todo
        else .done) reply (fun etcd hetcd => ?_) (fun o etcd hlater => ?_) fun o => ?_
      · obtain ⟨hholds, rfl⟩ := txn_eq_some_iff.mp hetcd
        obtain ⟨-, hcmp, -⟩ := planReclaim_some hplan
        have hstored := hfirst.stored (hcmp ▸ hholds _ (mem_singleton_self _))
        obtain ⟨-, hops, hfree⟩ :=
          planReclaim_past_end (h.balanced.ends _ _ hstored) hplan
        refine ⟨(Store.Later.refl _).commit _, fun ranges hbal => ?_⟩
        rw [hops]
        exact hbal.truncate hstored hlt hfree
      · have hlate : ∀ x ∈ todo, SeenAt etcd ino x := fun x hx => (htodo x hx).later hlater
        split
        · split <;> exact hlate
        · trivial
      · split
        · rename_i ho
          split
          · exact .inr ⟨ho, rfl⟩
          · exact .inl rfl
        · exact .inl rfl
  · exact hskip _

theorem step (h : Good s) {node : NodeID} {gen : Nat} {a : Reclaiming.Act}
    (hstep : (Reclaiming.machine node gen).step s a = some t) : Good t := by
  cases a with
  | startPass =>
    cases hstep
    exact h.spawn trivial (by rw [Job.owed, append_nil]; exact List.Perm.refl _)
  | releaseNext i locked =>
    dsimp only [Reclaiming.machine] at hstep
    split at hstep
    · rename_i r todo still hi
      split at hstep
      · cases hstep
        refine h.setJob hi trivial ?_
        rw [Job.owed, ← append_assoc]
        exact perm_append_comm
      · cases hstep
        exact h.free hi rfl trivial
    · cases hstep
  | endRelease i =>
    dsimp only [Reclaiming.machine] at hstep
    split at hstep
    · rename_i still hi
      cases hstep
      refine h.replace hi rfl (Store.Later.refl _) trivial fun rest hbal => ⟨hbal.perm ?_, rfl⟩
      show (s.held ++ (still ++ rest)).Perm (still ++ s.held ++ rest)
      rw [← append_assoc]
      exact perm_append_comm.append_right _
    · cases hstep
  | scanExtents i =>
    dsimp only [Reclaiming.machine] at hstep
    split at hstep
    · rename_i hi
      cases hstep
      exact h.setJob hi (fun x hx => seenAt_list hx) (List.Perm.refl _)
    · cases hstep
  | scanInodes i =>
    dsimp only [Reclaiming.machine] at hstep
    split at hstep
    · rename_i extents hi
      cases hstep
      have hseen : ∀ x ∈ extents, SeenAt s.etcd x.1 x.2 := h.seen _ (mem_of_getElem? hi)
      exact h.setJob hi (foundAt_findings hseen) (List.Perm.refl _)
    · cases hstep
  | scanFails i =>
    dsimp only [Reclaiming.machine] at hstep
    split at hstep
    · rename_i hi
      cases hstep
      exact h.setJob hi trivial (List.Perm.refl _)
    · rename_i hi
      cases hstep
      exact h.setJob hi trivial (List.Perm.refl _)
    · cases hstep
  | fixNext i k locked reply =>
    dsimp only [Reclaiming.machine] at hstep
    split at hstep
    · rename_i findings hi
      obtain ⟨f, hf, rfl⟩ := map_eq_some_iff.mp hstep
      exact h.fixFinding locked reply hi (mem_of_getElem? hf) fun x hx =>
        mem_of_mem_eraseIdx hx
    · cases hstep
  | freeOrHold i locked =>
    dsimp only [Reclaiming.machine] at hstep
    split at hstep
    · rename_i r rest hi
      have hseen := h.seen _ (mem_of_getElem? hi)
      split at hstep
      · cases hstep
        refine h.replace hi rfl (Store.Later.refl _) hseen fun rest' hbal => ⟨?_, rfl⟩
        show Balanced s.etcd s.arenas (s.held ++ [r] ++ rest')
        rwa [append_assoc]
      · cases hstep
        exact h.free hi rfl hseen
    · cases hstep
  | startTruncate ino newSize =>
    cases hstep
    exact h.spawn (fun e he => seenAt_getExtents he) (by rw [Job.owed, append_nil])
  | truncateNext i reply =>
    dsimp only [Reclaiming.machine] at hstep
    split at hstep
    · rename_i ino newSize chunk e todo hi
      cases hstep
      exact h.truncateExtent node gen reply hi
    · cases hstep
  | freeReclaimed i =>
    dsimp only [Reclaiming.machine] at hstep
    split at hstep
    · rename_i r ino newSize chunk todo hi
      have hseen := h.seen _ (mem_of_getElem? hi)
      cases hstep
      exact h.free hi rfl hseen
    · cases hstep
  | setInode ino record =>
    cases hstep
    have hlater : s.etcd.Later (s.etcd.commit [putRecord ino record]) :=
      (Store.Later.refl _).commit _
    refine ⟨h.balanced.congr fun key => ?_, fun x hx => (h.seen x hx).later hlater, h.once⟩
    rw [storedExtent, get_commit_of_untouched, storedExtent]
    intro op hop
    rw [mem_singleton.mp hop]
    cases record <;> exact Key.noConfusion
  | allocate size =>
    cases hstep
    exact ⟨h.balanced.allocate size, h.seen, h.once⟩

theorem not_available (h : Good s) {key : Nat × Nat} {v : ExtentValue}
    (hv : storedExtent s.etcd key = some v) (ha : blockSize ∣ v.diskOff) {b : Nat}
    (hb : v.Touches b) : ¬ Available s.arenas b := by
  have hmem : b ∈ valueBlocks (storedExtent s.etcd key) := by
    rw [hv]
    exact mem_rangeBlocks.mpr ((touches_iff ha).mp hb)
  exact Set.disjoint_left.mp (h.balanced.accounted.held_taken key) hmem

end Good

/-! ## Whole runs -/

structure Settled (s : Reclaiming) : Prop where
  idle : s.jobs = [] ∧ s.held = [] ∧ s.doubleFrees = 0
  tidy : Tidy s.arenas
  apart : ∀ key key' v v', key ≠ key' → storedExtent s.etcd key = some v →
    storedExtent s.etcd key' = some v' → ∀ b, v.Touches b → ¬ v'.Touches b
  marked : ∀ key v, storedExtent s.etcd key = some v → ∀ b, v.Touches b →
    ¬ Available s.arenas b
  ends : ∀ key v, storedExtent s.etcd key = some v → v.endOff ≤ maxOffset

theorem exists_of_mem_valueBlocks {b : Nat} (h : b ∈ valueBlocks kept) :
    ∃ v, kept = some v ∧ v.Touches b := by
  cases kept with
  | none => exact absurd h (Set.notMem_empty b)
  | some v => exact ⟨v, rfl, touches_of_mem_rangeBlocks h⟩

theorem Settled.good {s : Reclaiming} (h : Settled s) : Good s := by
  obtain ⟨hjobs, hheld, honce⟩ := h.idle
  have hranges : s.ranges = [] := by
    rw [Reclaiming.ranges, hjobs, hheld]
    rfl
  refine ⟨⟨h.tidy, ?_, h.ends⟩, fun job hjob => ?_, honce⟩
  · rw [hranges]
    refine ⟨fun key key' hne => Set.disjoint_left.mpr fun b hb hb' => ?_,
      fun key => Set.disjoint_left.mpr fun b hb hfree => ?_, List.Pairwise.nil,
      forall_mem_nil _, forall_mem_nil _⟩
    · obtain ⟨v, hv, ht⟩ := exists_of_mem_valueBlocks hb
      obtain ⟨v', hv', ht'⟩ := exists_of_mem_valueBlocks hb'
      exact h.apart key key' v v' hne hv hv' b ht ht'
    · obtain ⟨v, hv, ht⟩ := exists_of_mem_valueBlocks hb
      exact h.marked key v hv b ht hfree
  · rw [hjobs] at hjob
    cases hjob

/-- Scrub passes, releases of held ranges and truncates in any order, with any answers of
the lock cache and any replies lost: no block is freed while it is free, and at any time
no free block is in an extent that starts at a block boundary. -/
theorem reclaimed_once {s : Reclaiming} (hs : Settled s) (node : NodeID) (gen : Nat)
    (acts : List Reclaiming.Act) :
    (Reclaiming.machine node gen).Along (fun _ _ t => t.doubleFrees = 0 ∧
      ∀ key v, storedExtent t.etcd key = some v → blockSize ∣ v.diskOff →
        ∀ b, v.Touches b → ¬ Available t.arenas b) s acts := by
  refine Machine.Along.of_invariant (I := Good) (fun u a t hu _ hstep => ?_) hs.good
    (Machine.along_true s acts)
  have ht := hu.step hstep
  exact ⟨ht, ht.once, fun key v hv ha b hb => ht.not_available hv ha hb⟩

/-! ## Two runs -/

def storing : List ((Nat × Nat) × ExtentValue) → Etcd
  | [] => Store.empty
  | x :: extents => (storing extents).commit [putExtent x.1 (some x.2)]

theorem mem_of_storing {extents : List ((Nat × Nat) × ExtentValue)} {v : ExtentValue}
    (h : storedExtent (storing extents) key = some v) : (key, v) ∈ extents := by
  induction extents with
  | nil =>
    rw [storing, storedExtent, get_empty] at h
    cases h
  | cons x extents ih =>
    rw [storing, storedExtent_commit_putExtent] at h
    split at h
    · rename_i heq
      cases h
      exact heq ▸ mem_cons_self
    · exact mem_cons_of_mem _ (ih h)

def atRest (extents : List ((Nat × Nat) × ExtentValue)) (blocks : Nat) : Reclaiming where
  etcd := storing extents
  arenas := [(fresh 0).markRun 0 blocks]

theorem settled_atRest {extents : List ((Nat × Nat) × ExtentValue)} {blocks : Nat}
    (hapart : ∀ x ∈ extents, ∀ y ∈ extents, x.1 ≠ y.1 →
      ∀ b ∈ x.2.deviceBlocks, b ∉ y.2.deviceBlocks)
    (hmarked : ∀ x ∈ extents, ∀ b ∈ x.2.deviceBlocks, ¬ Available [(fresh 0).markRun 0 blocks] b)
    (hends : ∀ x ∈ extents, x.2.endOff ≤ maxOffset) : Settled (atRest extents blocks) where
  idle := ⟨rfl, rfl, rfl⟩
  tidy := ⟨(by decide : Separate [0]),
    fun ar har => mem_singleton.mp har ▸ fresh_hint_fits 0⟩
  apart := by
    intro key key' v v' hne hv hv' b hb hb'
    exact hapart _ (mem_of_storing hv) _ (mem_of_storing hv') hne b
      (ExtentValue.mem_deviceBlocks.mpr hb) (ExtentValue.mem_deviceBlocks.mpr hb')
  marked := by
    intro key v hv b hb
    exact hmarked _ (mem_of_storing hv) b (ExtentValue.mem_deviceBlocks.mpr hb)
  ends := fun key v hv => hends _ (mem_of_storing hv)

def twoFiles : List ((Nat × Nat) × ExtentValue) :=
  [((1, 0), ⟨0, 0, 8192, 1, 1, "n"⟩), ((2, 0), ⟨0, 8192, 4096, 1, 2, "n"⟩)]

def racingPass : List Reclaiming.Act :=
  [.setInode 1 (some (regularFile 1)), .startPass, .endRelease 0, .scanExtents 0,
    .startTruncate 1 4096, .scanInodes 0, .truncateNext 1 .answered,
    .fixNext 0 1 false .answered, .fixNext 0 0 false .answered, .freeOrHold 0 true,
    .freeReclaimed 1, .startPass, .releaseNext 2 false, .endRelease 2]

theorem settled_twoFiles : Settled (atRest twoFiles 3) :=
  settled_atRest (by decide +kernel) (by decide +kernel) (by decide +kernel)

theorem reclaimed_once_racingPass :
    (((Reclaiming.machine "n" 1).exec (atRest twoFiles 3) racingPass).map fun t =>
      (range 4).filter fun b => Available t.arenas b) = some [1, 2, 3] ∧
    (Reclaiming.machine "n" 1).Along (fun _ _ t => t.doubleFrees = 0 ∧
      ∀ key v, storedExtent t.etcd key = some v → blockSize ∣ v.diskOff →
        ∀ b, v.Touches b → ¬ Available t.arenas b) (atRest twoFiles 3) racingPass :=
  ⟨by decide +kernel, reclaimed_once settled_twoFiles "n" 1 racingPass⟩

def shifted : ExtentValue := ⟨0, 100, 8192, 1, 1, "n"⟩

/-- The part that a truncate keeps ends in the block it frees. -/
theorem head_block_freed : Settled (atRest [((1, 0), shifted)] 3) ∧
    ∃ t v, (Reclaiming.machine "n" 1).exec (atRest [((1, 0), shifted)] 3)
        [.startTruncate 1 4096, .truncateNext 0 .answered, .freeReclaimed 0] = some t ∧
      storedExtent t.etcd (1, 0) = some v ∧ v.Touches 1 ∧ Available t.arenas 1 := by
  have hrun : ((Reclaiming.machine "n" 1).exec (atRest [((1, 0), shifted)] 3)
      [.startTruncate 1 4096, .truncateNext 0 .answered, .freeReclaimed 0]).map (fun t =>
        (storedExtent t.etcd (1, 0), decide (Available t.arenas 1))) =
      some (some ⟨0, 100, 4096, 1, 1, "n"⟩, true) := by decide +kernel
  obtain ⟨t, ht, heq⟩ := map_eq_some_iff.mp hrun
  obtain ⟨hv, havail⟩ := Prod.mk.inj heq
  refine ⟨settled_atRest (by decide +kernel) (by decide +kernel) (by decide +kernel), t, _, ht,
    hv, ?_, of_decide_eq_true havail⟩
  exact ⟨4100, by decide, by decide, by decide⟩

end EtcFS.Correctness.Reclaim
