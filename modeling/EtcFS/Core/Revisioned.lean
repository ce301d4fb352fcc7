import Mathlib.Data.List.AList
import Mathlib.Logic.Relation

/-!
# A revisioned key-value store with guarded transactions

A transaction compares keys in one state and, when every comparison holds, applies its operations at
one new revision.
-/

namespace EtcFS.Core

open List Option

structure Versioned (ν : Type*) where
  value : ν
  modRevision : Nat
  deriving DecidableEq, Repr

@[ext] structure Store {κ : Type*} (β : κ → Type*) [DecidableEq κ] where
  revision : Nat
  kvs : AList fun k => Versioned (β k)
  bounded : ∀ k v, kvs.lookup k = some v → 0 < v.modRevision ∧ v.modRevision ≤ revision

inductive Op {κ : Type*} (β : κ → Type*) where
  | put (k : κ) (v : β k)
  | delete (k : κ)

inductive Cmp {κ : Type*} (β : κ → Type*) where
  | absent (k : κ)
  | present (k : κ)
  | modRevisionEq (k : κ) (revision : Nat)
  | valueEq (k : κ) (v : β k)
  | rangeAbsent (range : κ → Bool)

variable {κ : Type*} {β : κ → Type*}

def Op.key : Op β → κ
  | .put k _ => k
  | .delete k => k

def Op.isDelete : Op β → Bool
  | .put _ _ => false
  | .delete _ => true

def Cmp.key : Cmp β → Option κ
  | .absent k | .present k | .modRevisionEq k _ | .valueEq k _ => some k
  | .rangeAbsent _ => none

variable [DecidableEq κ]

def Op.effect (k : κ) : Op β → Option (Option (β k))
  | .put k' v => if h : k' = k then some (some (h ▸ v)) else none
  | .delete k' => if k' = k then some none else none

def effect (k : κ) : List (Op β) → Option (Option (β k))
  | [] => none
  | op :: ops => (effect k ops).or (op.effect k)

@[simp] theorem Op.effect_put_self (k : κ) (v : β k) : (Op.put k v).effect k = some (some v) := by
  simp [Op.effect]

@[simp] theorem Op.effect_delete_self (k : κ) : (Op.delete (β := β) k).effect k = some none := by
  simp [Op.effect]

theorem Op.effect_of_ne {op : Op β} {k : κ} (h : op.key ≠ k) : op.effect k = none := by
  cases op with
  | put k' v => exact dif_neg h
  | delete k' => exact if_neg h

theorem effect_append (k : κ) (ops ops' : List (Op β)) :
    effect k (ops ++ ops') = (effect k ops').or (effect k ops) := by
  induction ops with
  | nil => simp [effect]
  | cons op ops ih => simp only [cons_append, effect, ih, Option.or_assoc]

theorem effect_eq_none_iff {k : κ} {ops : List (Op β)} :
    effect k ops = none ↔ ∀ op ∈ ops, op.key ≠ k := by
  induction ops with
  | nil => simp [effect]
  | cons op ops ih =>
    have hop : op.effect k = none ↔ op.key ≠ k := by
      refine ⟨?_, Op.effect_of_ne⟩
      rintro h rfl
      cases op <;> simp [Op.key] at h
    simp only [effect, or_eq_none_iff, ih, hop, mem_cons, forall_eq_or_imp]
    exact and_comm

theorem mem_of_effect_eq_put {k : κ} {v : β k} {ops : List (Op β)}
    (h : effect k ops = some (some v)) : Op.put k v ∈ ops := by
  induction ops with
  | nil => cases h
  | cons op ops ih =>
    rcases or_eq_some_iff.mp h with h | ⟨-, h⟩
    · exact mem_cons_of_mem _ (ih h)
    · by_cases hk : op.key = k
      · subst hk
        cases op with
        | put k v' =>
          have hv : some (some v') = some (some v) := (Op.effect_put_self k v').symm.trans h
          rw [← some.inj (some.inj hv)]
          exact mem_cons_self
        | delete k => simp [Op.key] at h
      · rw [Op.effect_of_ne hk] at h
        cases h

theorem mem_of_effect_eq_delete {k : κ} {ops : List (Op β)} (h : effect k ops = some none) :
    Op.delete k ∈ ops := by
  induction ops with
  | nil => cases h
  | cons op ops ih =>
    rcases or_eq_some_iff.mp h with h | ⟨-, h⟩
    · exact mem_cons_of_mem _ (ih h)
    · by_cases hk : op.key = k
      · subst hk
        cases op with
        | put k v => simp [Op.key] at h
        | delete k => exact mem_cons_self
      · rw [Op.effect_of_ne hk] at h
        cases h

theorem effect_of_mem {ops : List (Op β)} (hn : (ops.map Op.key).Nodup) {op : Op β}
    (hm : op ∈ ops) : effect op.key ops = op.effect op.key := by
  induction ops with
  | nil => cases hm
  | cons x ops ih =>
    rw [map_cons, nodup_cons] at hn
    rcases mem_cons.mp hm with rfl | hm
    · have hnone : effect op.key ops = none := by
        rw [effect_eq_none_iff]
        intro y hy he
        exact hn.1 (mem_map.mpr ⟨y, hy, he⟩)
      simp only [effect, hnone, none_or]
    · have hx : x.key ≠ op.key := fun he => hn.1 (mem_map.mpr ⟨op, hm, he.symm⟩)
      simp only [effect, ih hn.2 hm, Op.effect_of_ne hx, or_none]

namespace Store

def get (s : Store β) (k : κ) : Option (Versioned (β k)) := s.kvs.lookup k

def modRevision (s : Store β) (k : κ) : Nat := ((s.get k).map Versioned.modRevision).getD 0

def empty : Store β := ⟨0, ∅, by simp⟩

@[simp] theorem get_empty (k : κ) : (empty : Store β).get k = none := AList.lookup_empty k

theorem modRevision_le {s : Store β} {k : κ} {v : Versioned (β k)} (h : s.get k = some v) :
    v.modRevision ≤ s.revision := (s.bounded k v h).2

def applyOp (revision : Nat) (kvs : AList fun k => Versioned (β k)) :
    Op β → AList fun k => Versioned (β k)
  | .put k v => kvs.insert k ⟨v, revision⟩
  | .delete k => kvs.erase k

theorem lookup_applyOp (revision : Nat) (kvs : AList fun k => Versioned (β k)) (op : Op β)
    (k : κ) : (applyOp revision kvs op).lookup k =
      (op.effect k).elim (kvs.lookup k) (Option.map (⟨·, revision⟩)) := by
  by_cases h : op.key = k
  · subst h
    cases op <;> simp [applyOp, Op.key]
  · rw [Op.effect_of_ne h]
    cases op <;> simp only [applyOp, elim_none]
    · exact AList.lookup_insert_ne fun he => h he.symm
    · exact AList.lookup_erase_ne fun he => h he.symm

theorem lookup_foldl_applyOp (revision : Nat) (ops : List (Op β))
    (kvs : AList fun k => Versioned (β k)) (k : κ) :
    (ops.foldl (applyOp revision) kvs).lookup k =
      (effect k ops).elim (kvs.lookup k) (Option.map (⟨·, revision⟩)) := by
  induction ops generalizing kvs with
  | nil => rfl
  | cons op ops ih =>
    rw [foldl_cons, ih, effect]
    cases effect k ops with
    | none => simp only [none_or, elim_none, lookup_applyOp]
    | some v => rfl

def commit (s : Store β) (ops : List (Op β)) : Store β where
  revision := s.revision + 1
  kvs := ops.foldl (applyOp (s.revision + 1)) s.kvs
  bounded := by
    intro k v h
    rw [lookup_foldl_applyOp] at h
    cases he : effect k ops with
    | none =>
      rw [he, elim_none] at h
      exact ⟨(s.bounded k v h).1, Nat.le_succ_of_le (s.bounded k v h).2⟩
    | some o =>
      rw [he, elim_some, map_eq_some_iff] at h
      obtain ⟨x, _, rfl⟩ := h
      exact ⟨Nat.succ_pos _, Nat.le_refl _⟩

theorem get_commit (s : Store β) (ops : List (Op β)) (k : κ) : (s.commit ops).get k =
      (effect k ops).elim (s.get k) (Option.map (⟨·, s.revision + 1⟩)) :=
  lookup_foldl_applyOp _ _ _ _

theorem commit_value (s : Store β) (ops : List (Op β)) (k : κ) :
    ((s.commit ops).get k).map Versioned.value =
      (effect k ops).elim ((s.get k).map Versioned.value) id := by
  rw [get_commit]
  cases effect k ops with
  | none => rfl
  | some o => cases o <;> rfl

theorem get_commit_of_untouched {s : Store β} {ops : List (Op β)} {k : κ}
    (h : ∀ op ∈ ops, op.key ≠ k) : (s.commit ops).get k = s.get k := by
  rw [get_commit, effect_eq_none_iff.mpr h, elim_none]

theorem get_commit_cases {s : Store β} {ops : List (Op β)} {k : κ} {v : Versioned (β k)}
    (h : (s.commit ops).get k = some v) :
    (s.get k = some v ∧ ∀ op ∈ ops, op.key ≠ k) ∨
      (Op.put k v.value ∈ ops ∧ v.modRevision = s.revision + 1) := by
  rw [get_commit] at h
  cases he : effect k ops with
  | none =>
    rw [he, elim_none] at h
    exact Or.inl ⟨h, effect_eq_none_iff.mp he⟩
  | some o =>
    rw [he, elim_some, map_eq_some_iff] at h
    obtain ⟨x, rfl, rfl⟩ := h
    exact Or.inr ⟨mem_of_effect_eq_put he, rfl⟩

theorem exists_get_of_modRevision_eq {s : Store β} {k : κ} {r : Nat} (hr : 0 < r)
    (h : s.modRevision k = r) : ∃ v, s.get k = some v ∧ v.modRevision = r := by
  cases hg : s.get k with
  | none =>
    simp only [modRevision, hg, map_none, getD_none] at h
    omega
  | some v =>
    simp only [modRevision, hg, map_some, getD_some] at h
    exact ⟨v, rfl, h⟩

section

variable [∀ k, DecidableEq (β k)]

def holds (s : Store β) : Cmp β → Bool
  | .absent k => (s.get k).isNone
  | .present k => (s.get k).isSome
  | .modRevisionEq k revision => s.modRevision k == revision
  | .valueEq k v => (s.get k).map Versioned.value == some v
  | .rangeAbsent range => s.kvs.keys.all fun k => !range k

def txn (s : Store β) (cmps : List (Cmp β)) (ops : List (Op β)) : Option (Store β) :=
  if cmps.all s.holds then some (s.commit ops) else none

theorem txn_eq_some_iff {s t : Store β} {cmps : List (Cmp β)} {ops : List (Op β)} :
    s.txn cmps ops = some t ↔ (∀ c ∈ cmps, s.holds c = true) ∧ t = s.commit ops := by
  simp only [txn, ite_none_right_eq_some, List.all_eq_true, Option.some.injEq]
  exact and_congr_right fun _ => eq_comm

theorem txn_of_holds {s : Store β} {cmps : List (Cmp β)} (ops : List (Op β))
    (h : ∀ c ∈ cmps, s.holds c = true) : s.txn cmps ops = some (s.commit ops) :=
  txn_eq_some_iff.mpr ⟨h, rfl⟩

theorem txn_isSome_iff {s : Store β} {cmps : List (Cmp β)} {ops : List (Op β)} :
    (s.txn cmps ops).isSome = true ↔ ∀ c ∈ cmps, s.holds c = true := by
  rw [isSome_iff_exists]
  exact ⟨fun ⟨_, h⟩ => (txn_eq_some_iff.mp h).1, fun h => ⟨_, txn_of_holds ops h⟩⟩

theorem holds_absent {s : Store β} {k : κ} : s.holds (.absent k) = true ↔ s.get k = none := by
  simp [holds]

theorem holds_modRevisionEq {s : Store β} {k : κ} {r : Nat} :
    s.holds (.modRevisionEq k r) = true ↔ s.modRevision k = r := by
  simp [holds]

theorem holds_congr {s t : Store β} {k : κ} {c : Cmp β} (hc : c.key = some k)
    (h : t.get k = s.get k) : t.holds c = s.holds c := by
  cases c with
  | rangeAbsent range => cases hc
  | absent k' | present k' | modRevisionEq k' r | valueEq k' v =>
    cases hc
    simp only [holds, modRevision, h]

theorem holds_rangeAbsent {s : Store β} {range : κ → Bool} :
    s.holds (.rangeAbsent range) = true ↔ ∀ k, range k = true → s.get k = none := by
  simp only [holds, List.all_eq_true, Bool.not_eq_true']
  constructor
  · intro h k hk
    by_contra hne
    have hmem : k ∈ s.kvs.keys :=
      AList.mem_keys.mp (AList.lookup_isSome.mp (isSome_iff_ne_none.mpr hne))
    rw [h k hmem] at hk
    cases hk
  · intro h k hk
    by_contra hr
    have hsome := AList.lookup_isSome.mpr (AList.mem_keys.mpr hk)
    have hnone : s.kvs.lookup k = none := h k (by simpa using hr)
    rw [hnone] at hsome
    cases hsome

end

def deleteRange (s : Store β) (range : κ → Bool) : List (Op β) :=
  (s.kvs.keys.filter range).map Op.delete

theorem get_commit_deleteRange (s : Store β) (range : κ → Bool) (k : κ) :
    (s.commit (s.deleteRange range)).get k = if range k then none else s.get k := by
  have hkey : ∀ op ∈ s.deleteRange range, ∃ k', k' ∈ s.kvs.keys ∧ range k' = true ∧
      op = .delete k' := by
    intro op hop
    obtain ⟨k', hk', rfl⟩ := mem_map.mp hop
    exact ⟨k', (mem_filter.mp hk').1, (mem_filter.mp hk').2, rfl⟩
  split
  · next hr =>
    -- either the key is among those deleted, or it had no record to begin with
    cases heff : effect k (s.deleteRange range) with
    | none =>
      rw [get_commit, heff, elim_none]
      by_contra hne
      have hmem : k ∈ s.kvs.keys :=
        AList.mem_keys.mp (AList.lookup_isSome.mp (isSome_iff_ne_none.mpr hne))
      refine effect_eq_none_iff.mp heff (.delete k) ?_ rfl
      exact mem_map.mpr ⟨k, mem_filter.mpr ⟨hmem, hr⟩, rfl⟩
    | some v =>
      cases v with
      | none => rw [get_commit, heff, elim_some, map_none]
      | some v =>
        obtain ⟨k', -, -, h⟩ := hkey _ (mem_of_effect_eq_put heff)
        cases h
  · next hr =>
    refine get_commit_of_untouched fun op hop he => ?_
    obtain ⟨k', -, hr', rfl⟩ := hkey op hop
    exact hr (he ▸ hr')

def Later (s t : Store β) : Prop :=
  Relation.ReflTransGen (fun a b => ∃ ops, b = a.commit ops) s t

theorem Later.refl (s : Store β) : s.Later s := Relation.ReflTransGen.refl

theorem Later.commit {s t : Store β} (h : s.Later t) (ops : List (Op β)) :
    s.Later (t.commit ops) := h.tail ⟨ops, rfl⟩

theorem Later.trans {s t u : Store β} (h : s.Later t) (h' : t.Later u) : s.Later u :=
  Relation.ReflTransGen.trans h h'

theorem Later.revision_le {s t : Store β} (h : s.Later t) : s.revision ≤ t.revision := by
  induction h with
  | refl => exact Nat.le_refl _
  | tail _ hc ih =>
    obtain ⟨ops, rfl⟩ := hc
    exact Nat.le_succ_of_le ih

theorem Later.get_of_modRevision_le {s t : Store β} (h : s.Later t) {k : κ}
    {v : Versioned (β k)} (hv : t.get k = some v) (hr : v.modRevision ≤ s.revision) :
    s.get k = some v := by
  induction h with
  | refl => exact hv
  | @tail t u hst hc ih =>
    obtain ⟨ops, rfl⟩ := hc
    rw [get_commit] at hv
    cases he : effect k ops with
    | none =>
      rw [he, elim_none] at hv
      exact ih hv
    | some o =>
      rw [he, elim_some, map_eq_some_iff] at hv
      obtain ⟨x, _, rfl⟩ := hv
      have hle := Later.revision_le hst
      simp only at hr
      omega

theorem Later.get_of_modRevision_eq {s t : Store β} (h : s.Later t) {k : κ}
    {v : Versioned (β k)} (hv : s.get k = some v) (hr : t.modRevision k = v.modRevision) :
    t.get k = some v := by
  obtain ⟨v', hv', hrev⟩ := exists_get_of_modRevision_eq (s.bounded k v hv).1 hr
  have hold := h.get_of_modRevision_le hv' (hrev ▸ modRevision_le hv)
  rw [hv', ← hold, hv]

theorem Later.modRevision_eq_iff {s t : Store β} (h : s.Later t) {k : κ} :
    t.modRevision k = s.modRevision k ↔ t.get k = s.get k := by
  constructor
  · intro hr
    cases hs : s.get k with
    | some v =>
      have hv : s.modRevision k = v.modRevision := by rw [modRevision, hs]; rfl
      exact h.get_of_modRevision_eq hs (hr.trans hv)
    | none =>
      by_contra hne
      obtain ⟨v, hv⟩ := ne_none_iff_exists'.mp hne
      have hpos := (t.bounded k v hv).1
      rw [modRevision, modRevision, hs, hv] at hr
      exact Nat.ne_of_gt hpos hr
  · intro hg
    rw [modRevision, modRevision, hg]

def list {γ : Type*} (s : Store β) (decode : (k : κ) → Versioned (β k) → Option γ) : List γ :=
  s.kvs.entries.filterMap fun e => decode e.1 e.2

theorem mem_list {γ : Type*} {s : Store β} {decode : (k : κ) → Versioned (β k) → Option γ}
    {x : γ} : x ∈ s.list decode ↔ ∃ k v, s.get k = some v ∧ decode k v = some x := by
  simp only [list, mem_filterMap]
  constructor
  · rintro ⟨⟨k, v⟩, hm, hd⟩
    exact ⟨k, v, AList.mem_lookup_iff.mpr hm, hd⟩
  · rintro ⟨k, v, hg, hd⟩
    exact ⟨⟨k, v⟩, AList.mem_lookup_iff.mp hg, hd⟩

theorem list_map_nodup {γ δ : Type*} (s : Store β)
    {decode : (k : κ) → Versioned (β k) → Option γ} {name : γ → δ}
    (hname : ∀ k v k' v' x x', decode k v = some x → decode k' v' = some x' →
      name x = name x' → k = k') : ((s.list decode).map name).Nodup := by
  have hkeys : s.kvs.entries.Pairwise fun a b => a.1 ≠ b.1 := by
    simpa only [AList.keys, keys, List.Nodup, pairwise_map] using s.kvs.keys_nodup
  rw [List.Nodup, pairwise_map, list, pairwise_filterMap]
  refine hkeys.imp ?_
  intro a b hne x hx y hy he
  exact hne (hname _ _ _ _ x y hx hy he)

end Store

end EtcFS.Core
