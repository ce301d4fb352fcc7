import EtcFS.Ipc.Overlay

/-!
# What a reclaim leaves under each number

A cut leaves its head under the extent's number and a second piece under a new one. New numbers are
given in the order of the extents.
-/

namespace EtcFS.Ipc

open EtcFS.Core Metadata List Option

/-- The cut leaves a head, which keeps the number, and a tail, which gets a new one. -/
def CutInTwo (n : Node) (start stop : Nat) (e : ExtentValue) : Prop :=
  IsCut n start stop e ∧ e.logOff < start ∧ stop < e.endOff
  deriving Decidable

def valueAt (s : Etcd) (ino chunk : Nat) : Option ExtentValue :=
  (s.get (.extent ino chunk)).map Versioned.value

theorem valueAt_of_mem {s : Etcd} {ino : Nat} {e : Extent} (he : e ∈ getExtents s ino) :
    valueAt s ino e.chunk = some e.toExtentValue := by
  rw [valueAt, mem_getExtents.mp he]
  rfl

theorem exists_of_valueAt {s : Etcd} {ino chunk : Nat} {v : ExtentValue}
    (h : valueAt s ino chunk = some v) :
    ∃ e ∈ getExtents s ino, e.chunk = chunk ∧ e.toExtentValue = v :=
  ((getExtents_describes s ino).get_iff chunk v).mp h

section

variable {n : Node} {ino start stop : Nat}

theorem mem_cutBy_iff {e v : ExtentValue} : v ∈ cutBy n start stop e ↔
    (cutBy n start stop e).head? = some v ∨ CutInTwo n start stop e ∧ v = tailOf e stop := by
  by_cases hc : IsCut n start stop e
  · have hcut : cutBy n start stop e = survivors e start stop := if_pos hc
    by_cases hh : e.logOff < start <;> by_cases ht : stop < e.endOff <;>
      simp [CutInTwo, hcut, hc, hh, ht, survivors, splitAround, eq_comm]
  · have hcut : cutBy n start stop e = [e] := if_neg hc
    simp [CutInTwo, hcut, hc, eq_comm]

theorem planReclaim_effect {e : Extent} {next next' : Nat} {p : ReclaimPlan}
    (h : planReclaim n ino e start stop next = (some p, next')) (hov : e.Overlaps start stop)
    (hlt : e.chunk < next) :
    next' = (if CutInTwo n start stop e.toExtentValue then next + 1 else next) ∧
      ∀ k, effect (.extent ino k) p.ops =
        if k = e.chunk then some (cutBy n start stop e.toExtentValue).head?
        else if CutInTwo n start stop e.toExtentValue ∧ k = next then
          some (some (tailOf e.toExtentValue stop))
        else none := by
  have howns := (planReclaim_some h).1
  have hc : IsCut n start stop e.toExtentValue := ⟨hov, howns⟩
  have hcut : cutBy n start stop e.toExtentValue = survivors e.toExtentValue start stop :=
    if_pos hc
  have hput : ∀ c k (v : ExtentValue), (Op.put (.extent ino c) v : Op Val).effect (.extent ino k) =
      if k = c then some (some v) else none := by
    intro c k v
    by_cases hk : k = c
    · subst hk
      simp
    · simp [Op.effect, hk, Ne.symm hk]
  unfold planReclaim at h
  rw [if_pos howns] at h
  by_cases hh : e.logOff < start <;> by_cases ht : stop < e.endOff <;>
    simp only [splitAround, gt_iff_lt, hh, ht, if_true, if_false, Prod.mk.injEq,
      some.injEq] at h
  · obtain ⟨rfl, rfl⟩ := h
    have htwo : CutInTwo n start stop e.toExtentValue := ⟨hc, hh, ht⟩
    refine ⟨by simp [htwo], fun k => ?_⟩
    by_cases hk : k = e.chunk
    · simp [effect, hput, hk, hlt.ne, hcut, survivors, splitAround, hh]
    · by_cases hn : k = next <;> simp [effect, hput, hk, hn, htwo, hlt.ne']
  · obtain ⟨rfl, rfl⟩ := h
    have htwo : ¬CutInTwo n start stop e.toExtentValue := fun h => ht h.2.2
    refine ⟨by simp [htwo], fun k => ?_⟩
    by_cases hk : k = e.chunk <;>
      simp [effect, hput, hk, htwo, hcut, survivors, splitAround, hh]
  · split at h
    · simp at h
    · simp only [Prod.mk.injEq, some.injEq] at h
      obtain ⟨rfl, rfl⟩ := h
      have htwo : ¬CutInTwo n start stop e.toExtentValue := fun h => hh h.2.1
      refine ⟨by simp [htwo], fun k => ?_⟩
      by_cases hk : k = e.chunk <;>
        simp [effect, hput, hk, htwo, hcut, survivors, splitAround, hh, ht]
  · obtain ⟨rfl, rfl⟩ := h
    have htwo : ¬CutInTwo n start stop e.toExtentValue := fun h => hh h.2.1
    refine ⟨by simp [htwo], fun k => ?_⟩
    by_cases hk : k = e.chunk
    · subst hk
      simp [effect, hcut, survivors, splitAround, hh, ht]
    · simp [effect, Op.effect, hk, Ne.symm hk, htwo]

theorem reclaimCovered_valueAt {r : Pass} {e : Extent} (he : e ∈ getExtents r.etcd ino)
    (hov : e.Overlaps start stop) (hnext : ChunksBelow r.etcd ino r.next) :
    (r.reclaimCovered n ino start stop e).next =
        (if CutInTwo n start stop e.toExtentValue then r.next + 1 else r.next) ∧
      ∀ k, valueAt (r.reclaimCovered n ino start stop e).etcd ino k =
        if k = e.chunk then (cutBy n start stop e.toExtentValue).head?
        else if CutInTwo n start stop e.toExtentValue ∧ k = r.next then
          some (tailOf e.toExtentValue stop)
        else valueAt r.etcd ino k := by
  have hget := mem_getExtents.mp he
  rcases hplan : planReclaim n ino e start stop r.next with ⟨p | p, next⟩
  · obtain ⟨rfl, hcut⟩ := planReclaim_none hplan
    have htwo : ¬CutInTwo n start stop e.toExtentValue := by
      rintro ⟨hc, hh, ht⟩
      rw [show cutBy n start stop e.toExtentValue = survivors e.toExtentValue start stop from
        if_pos hc] at hcut
      simp [survivors, splitAround, hh, ht] at hcut
    simp only [Pass.reclaimCovered, hplan, htwo, if_false, false_and, true_and]
    intro k
    split
    · rename_i hk
      rw [hk, hcut, valueAt, hget]
      rfl
    · rfl
  · obtain ⟨hnext', heff⟩ := planReclaim_effect hplan hov (hnext e he)
    simp only [Pass.reclaimCovered, hplan, Store.txn_of_holds p.ops (planReclaim_holds hplan he),
      hnext', true_and]
    intro k
    refine (Store.commit_value r.etcd p.ops (.extent ino k)).trans ?_
    rw [heff]
    split
    · rfl
    · split <;> rfl

/-- The piece of an extent that the punch leaves under a number. -/
def LeavesAt (n : Node) (start stop : Nat) (label : Extent → Nat) (k : Nat) (v : ExtentValue)
    (e : Extent) : Prop :=
  k = e.chunk ∧ (cutBy n start stop e.toExtentValue).head? = some v ∨
    CutInTwo n start stop e.toExtentValue ∧ k = label e ∧ v = tailOf e.toExtentValue stop

structure Numbered (n : Node) (ino start stop : Nat) (xs : List Extent) (label : Extent → Nat)
    (r r' : Pass) : Prop where
  above : ∀ e ∈ xs, CutInTwo n start stop e.toExtentValue → r.next ≤ label e
  grows : xs.Pairwise fun e f => CutInTwo n start stop e.toExtentValue →
    CutInTwo n start stop f.toExtentValue → label e < label f
  value : ∀ k v, valueAt r'.etcd ino k = some v ↔ (∃ e ∈ xs, LeavesAt n start stop label k v e) ∨
    (∀ e ∈ xs, k ≠ e.chunk) ∧ valueAt r.etcd ino k = some v

theorem foldl_numbered {r : Pass} {pass : Pass → Extent → Pass}
    (hpass : ∀ r e, r.failed = false → pass r e = r.reclaimCovered n ino start stop e)
    {xs : List Extent} (hnodup : xs.Nodup) (hok : r.failed = false)
    (hmem : ∀ e ∈ xs, e ∈ getExtents r.etcd ino) (hov : ∀ e ∈ xs, e.Overlaps start stop)
    (hnext : ChunksBelow r.etcd ino r.next) :
    ∃ label, Numbered n ino start stop xs label r (xs.foldl pass r) := by
  induction xs generalizing r with
  | nil => exact ⟨Extent.chunk, by simp, by simp, by simp⟩
  | cons e xs ih =>
    obtain ⟨hfresh, hnodup⟩ := nodup_cons.mp hnodup
    have he := hmem e mem_cons_self
    have hfirst : Rewritten n ino start stop [e] r (pass r e) := by
      rw [hpass r e hok]
      exact reclaimCovered_rewritten he (hov e mem_cons_self) hnext
    obtain ⟨hnext', hvalue⟩ := reclaimCovered_valueAt (n := n) he (hov e mem_cons_self) hnext
    rw [← hpass r e hok] at hnext' hvalue
    obtain ⟨label, h⟩ := ih hnodup (hfirst.failed.trans hok) (hfirst.rest hfresh hmem)
      (fun x hx => hov x (mem_cons_of_mem _ hx)) hfirst.chunks
    have hne : ∀ x ∈ xs, x ≠ e := fun x hx hxe => hfresh (hxe ▸ hx)
    have hlabel : ∀ x ∈ xs, Function.update label e r.next x = label x := fun x hx =>
      Function.update_of_ne (hne x hx) _ _
    have hchunk : ∀ x ∈ xs, e.chunk ≠ x.chunk ∧ r.next ≠ x.chunk := by
      intro x hx
      have hxr := hmem x (mem_cons_of_mem _ hx)
      refine ⟨fun hc => hne x hx ?_, (hnext x hxr).ne'⟩
      exact ((getExtents_distinct r.etcd ino).eq_of_mem he hxr hc).symm
    refine ⟨Function.update label e r.next, ?_, ?_, ?_⟩
    · intro f hf htwo
      rcases mem_cons.mp hf with rfl | hf
      · rw [Function.update_self]
      · rw [hlabel f hf]
        have hle := h.above f hf htwo
        split at hnext' <;> omega
    · refine pairwise_cons.mpr ⟨fun f hf htwo htwo' => ?_, ?_⟩
      · rw [Function.update_self, hlabel f hf]
        have hle := h.above f hf htwo'
        rw [if_pos htwo] at hnext'
        omega
      · refine h.grows.imp_of_mem fun {f g} hf hg hfg => ?_
        rwa [hlabel f hf, hlabel g hg]
    · intro k v
      have hleaves : ∀ f ∈ xs, LeavesAt n start stop (Function.update label e r.next) k v f ↔
          LeavesAt n start stop label k v f := by
        intro f hf
        rw [LeavesAt, LeavesAt, hlabel f hf]
      rw [foldl_cons, h.value, hvalue]
      constructor
      · rintro (⟨f, hf, hleft⟩ | ⟨hothers, hv⟩)
        · exact .inl ⟨f, mem_cons_of_mem _ hf, (hleaves f hf).mpr hleft⟩
        · split_ifs at hv with hk hn
          · exact .inl ⟨e, mem_cons_self, .inl ⟨hk, hv⟩⟩
          · refine .inl ⟨e, mem_cons_self, .inr ⟨hn.1, ?_, (some.inj hv).symm⟩⟩
            rw [Function.update_self, hn.2]
          · exact .inr ⟨forall_mem_cons.mpr ⟨hk, hothers⟩, hv⟩
      · rintro (⟨f, hf, hleft⟩ | ⟨hothers, hv⟩)
        · rcases mem_cons.mp hf with rfl | hf
          · right
            rcases hleft with ⟨rfl, hv⟩ | ⟨htwo, hk, rfl⟩
            · exact ⟨fun x hx => (hchunk x hx).1, (if_pos rfl).trans hv⟩
            · rw [Function.update_self] at hk
              subst hk
              refine ⟨fun x hx => (hchunk x hx).2, ?_⟩
              rw [if_neg (hnext f he).ne', if_pos ⟨htwo, rfl⟩]
          · exact .inl ⟨f, hf, (hleaves f hf).mp hleft⟩
        · obtain ⟨hk, hothers⟩ := forall_mem_cons.mp hothers
          refine .inr ⟨hothers, ?_⟩
          rw [if_neg hk, if_neg, hv]
          rintro ⟨-, rfl⟩
          rw [valueAt, (getExtents_describes r.etcd ino).get_eq_none fun x hx => (hnext x hx).ne]
            at hv
          cases hv

/-- What a punch leaves: each extent's pieces, under its own number and the given one. -/
structure LeavesPieces (n : Node) (ino start stop : Nat) (label : Extent → Nat) (s t : Etcd) :
    Prop where
  above : ∀ e ∈ getExtents s ino, ∀ f ∈ getExtents s ino,
    CutInTwo n start stop f.toExtentValue → e.chunk < label f
  grows : ∀ e ∈ getExtents s ino, ∀ f ∈ getExtents s ino, CutInTwo n start stop e.toExtentValue →
    CutInTwo n start stop f.toExtentValue → e.Before f → label e < label f
  value : ∀ k v, valueAt t ino k = some v ↔
    ∃ e ∈ getExtents s ino, LeavesAt n start stop label k v e

theorem reclaimSelected_leavesPieces {s : Etcd} {select : Extent → Bool}
    (hselect : ∀ e ∈ getExtents s ino, select e = true ↔ e.Overlaps start stop) : ∃ label,
      LeavesPieces n ino start stop label s (reclaimSelected n ino start stop select s).etcd := by
  have hd := getExtents_describes s ino
  have ho := getExtents_ordered s ino
  have hmem : ∀ e, e ∈ (getExtents s ino).filter select ↔
      e ∈ getExtents s ino ∧ e.Overlaps start stop := by
    intro e
    rw [mem_filter]
    exact and_congr_right fun he => hselect e he
  have hpick : ∀ e ∈ getExtents s ino, CutInTwo n start stop e.toExtentValue →
      e ∈ (getExtents s ino).filter select := fun e he htwo =>
    (hmem e).mpr ⟨he, htwo.1.1⟩
  obtain ⟨label, h⟩ : ∃ label, Numbered n ino start stop ((getExtents s ino).filter select) label
      ⟨s, nextChunk (getExtents s ino), [], false⟩ (reclaimSelected n ino start stop select s) :=
    foldl_numbered (fun r e hr => if_neg (by simp [hr]))
      ((List.Nodup.of_map _ hd.distinct).filter select) rfl (fun e he => ((hmem e).mp he).1)
      (fun e he => ((hmem e).mp he).2) (chunksBelow_nextChunk s ino)
  refine ⟨label, fun e he f hf htwo => ?_, fun e he f hf htwo htwo' => ?_, fun k v => ?_⟩
  · exact (chunksBelow_nextChunk s ino e he).trans_le (h.above f (hpick f hf htwo) htwo)
  · refine Pairwise.forall_of_forall_of_flip
      (R := fun x y : Extent => CutInTwo n start stop x.toExtentValue →
        CutInTwo n start stop y.toExtentValue → x.Before y → label x < label y)
      (fun x _ _ _ hxx => absurd hxx (asymm hxx)) (h.grows.imp fun hlt hx hy _ => hlt hx hy)
      ((ho.filter select).imp fun hxy _ _ hyx => absurd hyx (asymm hxy))
      (hpick e he htwo) (hpick f hf htwo') htwo htwo'
  · rw [h.value]
    constructor
    · rintro (⟨e, he, hleft⟩ | ⟨hothers, hv⟩)
      · exact ⟨e, ((hmem e).mp he).1, hleft⟩
      · obtain ⟨e, he, rfl, rfl⟩ := (hd.get_iff k v).mp hv
        refine ⟨e, he, .inl ⟨rfl, ?_⟩⟩
        have hout : ¬e.Overlaps start stop := fun hov =>
          hothers e ((hmem e).mpr ⟨he, hov⟩) rfl
        rw [cutBy, if_neg fun hc => hout hc.1]
        rfl
    · rintro ⟨e, he, hleft⟩
      by_cases hov : e.Overlaps start stop
      · exact .inl ⟨e, (hmem e).mpr ⟨he, hov⟩, hleft⟩
      · rcases hleft with ⟨rfl, hv⟩ | ⟨htwo, -⟩
        · rw [cutBy, if_neg fun hc => hov hc.1] at hv
          obtain rfl : e.toExtentValue = v := some.inj hv
          refine .inr ⟨fun f hf hc => hov ?_, (hd.get_iff e.chunk _).mpr ⟨e, he, rfl, rfl⟩⟩
          obtain rfl := hd.distinct.eq_of_mem he ((hmem f).mp hf).1 hc
          exact ((hmem e).mp hf).2
        · exact absurd htwo.1.1 hov

end

end EtcFS.Ipc
