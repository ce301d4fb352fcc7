import EtcFS.Core.Submission
import EtcFS.Metadata.Schema

/-!
# Fencing generations

A process reads its node's counter once and adds a comparison on that value to each mutation, so a
later bump shuts it out.
-/

namespace EtcFS.Metadata

open EtcFS.Core List Core.Store Option

def getGeneration (s : Etcd) (node : NodeID) : Nat :=
  ((s.get (.gen node)).map Versioned.value).getD 0

def withGenerationGuard (node : NodeID) (expectedGen : Nat) : Cmp Val :=
  .valueEq (.gen node) expectedGen

def ensureGenerationKey (node : NodeID) (reply : Reply) (s : Etcd) : Outcome × Etcd :=
  Store.submit [.absent (.gen node)] [.put (.gen node) (0 : Nat)] [reply] s

def bumpOp (node : NodeID) (expectedOld : UInt64) : Op Val :=
  .put (.gen node) (expectedOld + 1).toNat

def bumpGeneration (node : NodeID) (expectedOld : UInt64) (reply : Reply) (s : Etcd) :
    Outcome × Etcd :=
  Store.submit [withGenerationGuard node expectedOld.toNat] [bumpOp node expectedOld] [reply] s

def bumpMissing (node : NodeID) (reply : Reply) (s : Etcd) : Outcome × Etcd :=
  Store.submit [.absent (.gen node)] [bumpOp node 0] [reply] s

def Key.isGen : Key → Bool
  | .gen _ => true
  | .inode _ | .extent _ _ | .lock _ _ _ => false

def sparesGenerations (ops : List (Op Val)) : Bool := ops.all fun op => !op.key.isGen

inductive Mutation where
  | put (k : Key) (v : Val k)
  | delete (k : Key)
  | deletePrefix (inPrefix : Key → Bool)

def Mutation.ops (s : Etcd) : Mutation → List (Op Val)
  | .put k v => [.put k v]
  | .delete k => [.delete k]
  | .deletePrefix inPrefix => (s.kvs.keys.filter inPrefix).map .delete

inductive GuardedCall where
  /-- The operations for the case that a comparison fails are left out: no caller passes any. -/
  | txn (cmps : List (Cmp Val)) (ops : List (Op Val))
  | write (m : Mutation)

def GuardedCall.cmps : GuardedCall → List (Cmp Val)
  | .txn cmps _ => cmps
  | .write _ => []

def GuardedCall.ops (s : Etcd) : GuardedCall → List (Op Val)
  | .txn _ ops => ops
  | .write m => m.ops s

def GuardedCall.submit (node : NodeID) (startGen : Nat) (c : GuardedCall) (reply : Reply)
    (s : Etcd) : Outcome × Etcd :=
  Store.submit (withGenerationGuard node startGen :: c.cmps) (c.ops s) [reply] s

def maxRevision : Nat := 2 ^ 63 - 1

def Counted (s : Etcd) : Prop := ∀ node, getGeneration s node ≤ s.revision

structure Advances (s t : Etcd) : Prop where
  revision_le : s.revision ≤ t.revision
  kept : ∀ node v, s.get (.gen node) = some v →
    ∃ w, t.get (.gen node) = some w ∧ v.value ≤ w.value
  counted : Counted s → Counted t

variable {node : NodeID}

theorem getGeneration_of_get {s : Etcd} {v : Versioned (Val (.gen node))}
    (h : s.get (.gen node) = some v) : getGeneration s node = v.value := by
  simp [getGeneration, h]

theorem holds_withGenerationGuard {s : Etcd} {gen : Nat} :
    s.holds (withGenerationGuard node gen) = true ↔
      ∃ v, s.get (.gen node) = some v ∧ v.value = gen := by
  simp [withGenerationGuard, Store.holds]

theorem GuardedCall.submit_of_moved {s : Etcd} {startGen : Nat} {c : GuardedCall}
    (h : getGeneration s node ≠ startGen) (reply : Reply) :
    (c.submit node startGen reply s).2 = s := by
  have hrefused : s.txn (withGenerationGuard node startGen :: c.cmps) (c.ops s) = none := by
    rw [eq_none_iff_forall_ne_some]
    intro t ht
    have hguard := (txn_eq_some_iff.mp ht).1 _ mem_cons_self
    obtain ⟨v, hv, hval⟩ := holds_withGenerationGuard.mp hguard
    exact h (by rw [getGeneration_of_get hv, hval])
  rw [GuardedCall.submit, submit_of_refused hrefused]

theorem GuardedCall.moved_of_rejected {s : Etcd} {startGen : Nat} {m : Mutation}
    {reply : Reply} {v : Versioned (Val (.gen node))} (hv : s.get (.gen node) = some v)
    (h : ((GuardedCall.write m).submit node startGen reply s).1 = .rejected) :
    v.value ≠ startGen := by
  intro hval
  have hholds : ∀ c ∈ [withGenerationGuard node startGen], s.holds c = true := by
    intro c hc
    rw [mem_singleton.mp hc]
    exact holds_withGenerationGuard.mpr ⟨v, hv, hval⟩
  have htxn := txn_of_holds (m.ops s) hholds
  cases reply with
  | unsent => cases h
  | lost => cases h
  | answered =>
    simp only [GuardedCall.submit, GuardedCall.cmps, GuardedCall.ops, Store.submit, htxn] at h
    cases h

theorem exists_of_ensureGenerationKey {s : Etcd} {reply : Reply}
    (h : (ensureGenerationKey node reply s).1 ≠ .failed) :
    ∃ v, (ensureGenerationKey node reply s).2.get (.gen node) = some v := by
  cases reply with
  | unsent => exact absurd rfl h
  | lost => exact absurd rfl h
  | answered =>
    cases hg : s.get (.gen node) with
    | none =>
      have hholds : ∀ c ∈ [Cmp.absent (.gen node)], s.holds c = true := by
        simp [holds_absent, hg]
      have htxn := txn_of_holds [.put (.gen node) (0 : Nat)] hholds
      simp [ensureGenerationKey, Store.submit, htxn, get_commit, effect]
    | some v =>
      have htxn : s.txn [.absent (.gen node)] [.put (.gen node) (0 : Nat)] = none := by
        simp [Store.txn, Store.holds, hg]
      simp [ensureGenerationKey, Store.submit, htxn, hg]

namespace Advances

variable {s t : Etcd}

theorem refl (s : Etcd) : Advances s s where
  revision_le := Nat.le_refl _
  kept _ v h := ⟨v, h, Nat.le_refl _⟩
  counted h := h

theorem getGeneration_le (h : Advances s t) (node : NodeID) :
    getGeneration s node ≤ getGeneration t node := by
  cases hg : s.get (.gen node) with
  | none => simp [getGeneration, hg]
  | some v =>
    obtain ⟨w, hw, hle⟩ := h.kept node v hg
    rw [getGeneration_of_get hg, getGeneration_of_get hw]
    exact hle

theorem of_spares {ops : List (Op Val)} (h : sparesGenerations ops = true) :
    Advances s (s.commit ops) := by
  have hget : ∀ node, (s.commit ops).get (.gen node) = s.get (.gen node) := by
    intro node
    refine get_commit_of_untouched fun op hop he => ?_
    have hspared := all_eq_true.mp h op hop
    simp [he, Key.isGen] at hspared
  refine ⟨Nat.le_succ _, fun node v hv => ⟨v, (hget node).trans hv, Nat.le_refl _⟩, ?_⟩
  intro hc node
  rw [getGeneration, hget]
  exact Nat.le_succ_of_le (hc node)

variable {node : NodeID} {reply : Reply}

theorem of_put {gen : Nat} (hle : getGeneration s node ≤ gen)
    (hnew : Counted s → gen ≤ s.revision + 1) :
    Advances s (s.commit [.put (.gen node) gen]) := by
  have hself : (s.commit [.put (.gen node) gen]).get (.gen node) = some ⟨gen, s.revision + 1⟩ := by
    simp [get_commit, effect]
  have hother : ∀ node', node' ≠ node →
      (s.commit [.put (.gen node) gen]).get (.gen node') = s.get (.gen node') := by
    intro node' hne
    refine get_commit_of_untouched fun op hop he => ?_
    rw [mem_singleton.mp hop] at he
    exact hne (Key.gen.inj he).symm
  refine ⟨Nat.le_succ _, fun node' v hv => ?_, fun hc node' => ?_⟩
  · by_cases hn : node' = node
    · subst hn
      refine ⟨_, hself, ?_⟩
      rwa [getGeneration_of_get hv] at hle
    · exact ⟨v, (hother node' hn).trans hv, Nat.le_refl _⟩
  · by_cases hn : node' = node
    · subst hn
      rw [getGeneration_of_get hself]
      exact hnew hc
    · rw [getGeneration, hother node' hn]
      exact Nat.le_succ_of_le (hc node')

theorem of_submit {cmps : List (Cmp Val)} {ops : List (Op Val)}
    (hr : (Store.submit cmps ops [reply] s).2.revision ≤ maxRevision)
    (h : (∀ c ∈ cmps, s.holds c = true) → s.revision < maxRevision → Advances s (s.commit ops)) :
    Advances s (Store.submit cmps ops [reply] s).2 := by
  cases htxn : s.txn cmps ops with
  | none =>
    rw [submit_of_refused htxn]
    exact refl s
  | some t =>
    obtain ⟨hcmps, rfl⟩ := txn_eq_some_iff.mp htxn
    cases reply with
    | unsent => exact refl s
    | lost =>
      simp only [Store.submit, htxn, getD_some] at hr ⊢
      exact h hcmps hr
    | answered =>
      simp only [Store.submit, htxn] at hr ⊢
      exact h hcmps hr

theorem guardedCall {startGen : Nat} {c : GuardedCall}
    (hr : (c.submit node startGen reply s).2.revision ≤ maxRevision)
    (hspares : sparesGenerations (c.ops s) = true) :
    Advances s (c.submit node startGen reply s).2 :=
  of_submit hr fun _ _ => of_spares hspares

theorem ensureGenerationKey (hr : (ensureGenerationKey node reply s).2.revision ≤ maxRevision) :
    Advances s (ensureGenerationKey node reply s).2 := by
  refine of_submit hr fun hcmps _ => of_put ?_ fun _ => Nat.zero_le _
  have habsent : s.get (.gen node) = none := holds_absent.mp (hcmps _ (by simp))
  simp [getGeneration, habsent]

theorem bump_of_value {old : UInt64}
    (hold : getGeneration s node = old.toNat) (hs : Counted s) (hr : s.revision < maxRevision) :
    Advances s (s.commit [bumpOp node old]) := by
  have hle := hs node
  have hadd : (old + 1).toNat = old.toNat + 1 := by
    rw [UInt64.toNat_add]
    refine Nat.mod_eq_of_lt ?_
    simp only [UInt64.toNat_one]
    rw [maxRevision] at hr
    omega
  refine of_put ?_ fun _ => ?_
  · rw [hadd]
    omega
  · rw [hadd]
    omega

theorem bumpGeneration {old : UInt64} (hs : Counted s)
    (hr : (bumpGeneration node old reply s).2.revision ≤ maxRevision) :
    Advances s (bumpGeneration node old reply s).2 := by
  refine of_submit hr fun hcmps hlt => bump_of_value ?_ hs hlt
  obtain ⟨v, hv, hval⟩ := holds_withGenerationGuard.mp (hcmps _ mem_cons_self)
  rw [getGeneration_of_get hv, hval]

theorem bumpMissing (hs : Counted s) (hr : (bumpMissing node reply s).2.revision ≤ maxRevision) :
    Advances s (bumpMissing node reply s).2 := by
  refine of_submit hr fun hcmps hlt => bump_of_value ?_ hs hlt
  have habsent : s.get (.gen node) = none := holds_absent.mp (hcmps _ (by simp))
  simp [getGeneration, habsent]

end Advances

end EtcFS.Metadata
