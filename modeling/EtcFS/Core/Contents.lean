import EtcFS.Core.Revisioned
import Mathlib.Algebra.BigOperators.Group.List.Basic
import Mathlib.Algebra.Order.Group.Multiset

/-!
# What a store contains

A transaction on distinct keys exchanges what its keys held for what its operations put there, so a
sequence of rewrites is a sum.
-/

namespace EtcFS.Core

open List Option

variable {κ γ : Type*} {β : κ → Type*} [DecidableEq κ] (decode : (k : κ) → β k → Option γ)

def contribution (k : κ) (v : Option (β k)) : Multiset γ := ↑(v.bind (decode k)).toList

def Op.leaves : Op β → Multiset γ
  | .put k v => contribution decode k (some v)
  | .delete _ => 0

namespace Store

def contents (s : Store β) : Multiset γ := ↑(s.list fun k v => decode k v.value)

def held (s : Store β) (k : κ) : Multiset γ :=
  contribution decode k ((s.get k).map Versioned.value)

private theorem filterMap_kerase (kvs : AList fun k => Versioned (β k)) (k : κ) :
    (↑(kvs.entries.filterMap fun e => decode e.1 e.2.value) : Multiset γ) =
      contribution decode k ((kvs.lookup k).map Versioned.value) +
        ↑((kvs.entries.kerase k).filterMap fun e => decode e.1 e.2.value) := by
  cases hk : kvs.lookup k with
  | none =>
    have hmem : k ∉ kvs.entries.keys := fun h => AList.lookup_eq_none.mp hk h
    rw [kerase_of_notMem_keys hmem]
    simp [contribution]
  | some v =>
    have hmem : k ∈ kvs.entries.keys :=
      AList.mem_keys.mp (AList.lookup_isSome.mp (isSome_iff_exists.mpr ⟨v, hk⟩))
    obtain ⟨v', l₁, l₂, -, hl, he⟩ := exists_of_kerase hmem
    have hv : v' = v := by
      have hin : (⟨k, v'⟩ : Sigma fun k => Versioned (β k)) ∈ kvs.entries := by
        rw [hl]
        exact mem_append_right _ mem_cons_self
      exact some.inj ((AList.mem_lookup_iff.mpr hin).symm.trans hk)
    subst hv
    rw [he, hl]
    cases hd : decode k v'.value <;>
      simp [contribution, hd, filterMap_append, ← Multiset.coe_add, ← Multiset.cons_coe]

private theorem filterMap_applyOp (revision : Nat) (kvs : AList fun k => Versioned (β k))
    (op : Op β) :
    (↑((applyOp revision kvs op).entries.filterMap fun e => decode e.1 e.2.value) : Multiset γ) +
        contribution decode op.key ((kvs.lookup op.key).map Versioned.value) =
      ↑(kvs.entries.filterMap fun e => decode e.1 e.2.value) + op.leaves decode := by
  rw [filterMap_kerase decode kvs op.key]
  cases op with
  | delete k =>
    simp only [applyOp, Op.leaves, Op.key, add_zero]
    exact add_comm _ _
  | put k v =>
    simp only [applyOp, Op.leaves, Op.key, AList.entries_insert, filterMap_cons]
    cases hd : decode k v <;> simp [contribution, hd, ← Multiset.cons_coe, add_comm]

theorem contents_commit (s : Store β) {ops : List (Op β)} (hn : (ops.map Op.key).Nodup) :
    (s.commit ops).contents decode + (ops.map fun op => s.held decode op.key).sum =
      s.contents decode + (ops.map (Op.leaves decode)).sum := by
  have hfold : ∀ (ops : List (Op β)) (kvs : AList fun k => Versioned (β k)),
      (ops.map Op.key).Nodup →
      (↑((ops.foldl (applyOp (s.revision + 1)) kvs).entries.filterMap
          fun e => decode e.1 e.2.value) : Multiset γ) +
        (ops.map fun op => contribution decode op.key
          ((kvs.lookup op.key).map Versioned.value)).sum =
      ↑(kvs.entries.filterMap fun e => decode e.1 e.2.value) +
        (ops.map (Op.leaves decode)).sum := by
    intro ops
    induction ops with
    | nil => simp
    | cons op ops ih =>
      intro kvs hn
      rw [map_cons, nodup_cons] at hn
      -- The later operations find their keys as the first one did.
      have hsame : (ops.map fun op' => contribution decode op'.key
            (((applyOp (s.revision + 1) kvs op).lookup op'.key).map Versioned.value)) =
          ops.map fun op' => contribution decode op'.key
            ((kvs.lookup op'.key).map Versioned.value) := by
        refine map_congr_left ?_
        intro op' hop'
        have hne : op.key ≠ op'.key := fun he => hn.1 (he ▸ mem_map_of_mem hop')
        rw [lookup_applyOp, Op.effect_of_ne hne, elim_none]
      have hrest := ih (applyOp (s.revision + 1) kvs op) hn.2
      have hfirst := filterMap_applyOp decode (s.revision + 1) kvs op
      rw [hsame] at hrest
      rw [foldl_cons, map_cons, map_cons, sum_cons, sum_cons,
        add_left_comm, ← add_assoc, add_comm (contribution _ _ _), add_assoc,
        add_comm (contribution _ _ _), ← add_assoc, hrest, add_right_comm, hfirst, add_assoc]
  exact hfold ops s.kvs hn

end Store

end EtcFS.Core
