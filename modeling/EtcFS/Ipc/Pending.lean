import EtcFS.Ipc.Read
import EtcFS.Ipc.Replay
import Mathlib.Data.List.GetD

/-!
# The write buffer of an inode

A key's comparison is the one taken when the buffer first touched it, its operation the last one.
-/

namespace EtcFS.Ipc

open EtcFS.Core Metadata Arena List

structure Pending where
  cmps : List (Cmp Val)
  ops : List (Op Val)
  plans : List ReclaimPlan
  data : List BufferedRun
  runs : List Run
  bytes : Nat

def Pending.none : Pending := ⟨[], [], [], [], [], 0⟩

def Pending.isEmpty (p : Pending) : Bool := p.ops.isEmpty

def Owned (ops : List (Op Val)) (k : Option Key) : Prop := ∃ op ∈ ops, some op.key = k
  deriving Decidable

def setCmp (cmps : List (Cmp Val)) (c : Cmp Val) : List (Cmp Val) :=
  cmps.filter (fun c' => decide (c'.key ≠ c.key)) ++ [c]

def setOp (ops : List (Op Val)) (op : Op Val) : List (Op Val) :=
  if Owned ops (some op.key) then ops.map fun o => if o.key = op.key then op else o
  else ops ++ [op]

def Pending.add (p : Pending) (cmps : List (Cmp Val)) (ops : List (Op Val))
    (plans : List ReclaimPlan) (bytes : Nat) : Pending :=
  { p with
    cmps := cmps.foldl (fun m c => if Owned p.ops c.key then m else setCmp m c) p.cmps
    ops := ops.foldl setOp p.ops
    plans := p.plans ++ plans
    bytes := p.bytes + bytes }

def Pending.txn (p : Pending) : List (Cmp Val) × List (Op Val) :=
  (p.ops.filterMap fun op => p.cmps.find? fun c => decide (c.key = some op.key), p.ops)

def coalesce : List BufferedRun → List BufferedRun
  | [] => []
  | r :: runs =>
    match coalesce runs with
    | [] => [r]
    | g :: groups =>
      if g.diskOff = r.endOff then ⟨r.diskOff, r.buf ++ g.buf⟩ :: groups else r :: g :: groups

def Bytes.writeRun (dev : Bytes) (r : BufferedRun) : Bytes := dev.blit r.diskOff r.buf

def flushData (data : List BufferedRun) (dev : Bytes) : Bytes :=
  (coalesce (data.insertionSort fun a b => a.diskOff ≤ b.diskOff)).foldl Bytes.writeRun dev

/-! ## Coalescing by key -/

section

variable {ops : List (Op Val)} {op : Op Val}

theorem not_owned_iff {k : Key} : ¬ Owned ops (some k) ↔ effect k ops = none := by
  rw [effect_eq_none_iff]
  simp [Owned]

theorem setOp_keys_nodup (hn : (ops.map Op.key).Nodup) : ((setOp ops op).map Op.key).Nodup := by
  unfold setOp
  split
  · have hsame : (ops.map fun o => if o.key = op.key then op else o).map Op.key =
        ops.map Op.key := by
      rw [map_map]
      refine map_congr_left fun o _ => ?_
      simp only [Function.comp]
      split
      · rename_i h
        exact h.symm
      · rfl
    rwa [hsame]
  · rename_i hown
    rw [map_append, nodup_append]
    refine ⟨hn, nodup_singleton _, ?_⟩
    rintro k hk k' hk' rfl
    obtain ⟨o, ho, rfl⟩ := mem_map.mp hk
    rw [map_singleton, mem_singleton] at hk'
    exact hown ⟨o, ho, congrArg some hk'⟩

theorem effect_setOp (hn : (ops.map Op.key).Nodup) (k : Key) :
    effect k (setOp ops op) = effect k (ops ++ [op]) := by
  by_cases hk : op.key = k
  · subst hk
    have hmem : op ∈ setOp ops op := by
      unfold setOp
      split
      · rename_i hown
        obtain ⟨o, ho, hok⟩ := hown
        exact mem_map.mpr ⟨o, ho, if_pos (Option.some.inj hok)⟩
      · exact mem_concat_self
    have hsome : ∃ x, op.effect op.key = some x := by
      cases op with
      | put k v => exact ⟨_, Op.effect_put_self k v⟩
      | delete k => exact ⟨_, Op.effect_delete_self k⟩
    obtain ⟨x, hx⟩ := hsome
    rw [effect_of_mem (setOp_keys_nodup hn) hmem, effect_snoc, hx, Option.some_or]
  · rw [effect_snoc_of_ne ops hk]
    unfold setOp
    split
    · -- What is replaced is on another key before and after.
      clear hn
      rename_i hown
      clear hown
      induction ops with
      | nil => rfl
      | cons o ops ih =>
        rw [map_cons, effect, effect, ih]
        split
        · rename_i ho
          rw [Op.effect_of_ne hk, Op.effect_of_ne (ho ▸ hk)]
        · rfl
    · exact effect_snoc_of_ne ops hk

theorem foldl_setOp (hn : (ops.map Op.key).Nodup) (new : List (Op Val)) :
    ((new.foldl setOp ops).map Op.key).Nodup ∧
      ∀ k, effect k (new.foldl setOp ops) = effect k (ops ++ new) := by
  induction new generalizing ops with
  | nil => simpa using hn
  | cons op new ih =>
    have hstep : ((setOp ops op).map Op.key).Nodup := setOp_keys_nodup hn
    obtain ⟨hnodup, heff⟩ := ih hstep
    refine ⟨hnodup, fun k => ?_⟩
    rw [foldl_cons, heff, effect_append, effect_setOp hn, ← effect_append,
      append_assoc, singleton_append]

variable {cmps : List (Cmp Val)}

theorem mem_add_cmps {p : Pending} {plans : List ReclaimPlan}
    {bytes : Nat} {c : Cmp Val} (h : c ∈ (p.add cmps ops plans bytes).cmps) :
    c ∈ p.cmps ∨ (c ∈ cmps ∧ ¬ Owned p.ops c.key) := by
  suffices hfold : ∀ m : List (Cmp Val),
      c ∈ cmps.foldl (fun m c => if Owned p.ops c.key then m else setCmp m c) m →
        c ∈ m ∨ (c ∈ cmps ∧ ¬ Owned p.ops c.key) from hfold p.cmps h
  clear h
  induction cmps with
  | nil => exact fun m hm => .inl hm
  | cons x xs ih =>
    intro m hm
    rw [foldl_cons] at hm
    rcases ih _ hm with hm | ⟨hx, hown⟩
    · split at hm
      · exact .inl hm
      · rename_i hown
        rcases mem_append.mp hm with hm | hm
        · exact .inl (mem_of_mem_filter hm)
        · rw [mem_singleton.mp hm]
          exact .inr ⟨mem_cons_self, hown⟩
    · exact .inr ⟨mem_cons_of_mem _ hx, hown⟩

theorem exists_key_setCmp (c : Cmp Val) {k : Option Key} :
    (∃ x ∈ setCmp cmps c, x.key = k) ↔ (∃ x ∈ cmps, x.key = k) ∨ c.key = k := by
  simp only [setCmp, mem_append, mem_filter, decide_eq_true_eq, mem_singleton]
  constructor
  · rintro ⟨x, ⟨hx, -⟩ | rfl, hk⟩
    · exact .inl ⟨x, hx, hk⟩
    · exact .inr hk
  · rintro (⟨x, hx, hk⟩ | hk)
    · by_cases hne : x.key = c.key
      · exact ⟨c, .inr rfl, hne.symm.trans hk⟩
      · exact ⟨x, .inl ⟨hx, hne⟩, hk⟩
    · exact ⟨c, .inr rfl, hk⟩

theorem exists_key_add_cmps {p : Pending} {plans : List ReclaimPlan}
    {bytes : Nat} {k : Option Key} : (∃ x ∈ (p.add cmps ops plans bytes).cmps, x.key = k) ↔
      (∃ x ∈ p.cmps, x.key = k) ∨ (∃ x ∈ cmps, x.key = k) ∧ ¬ Owned p.ops k := by
  suffices hfold : ∀ m : List (Cmp Val), (∃ x ∈ cmps.foldl
      (fun m c => if Owned p.ops c.key then m else setCmp m c) m, x.key = k) ↔
        (∃ x ∈ m, x.key = k) ∨ (∃ x ∈ cmps, x.key = k) ∧ ¬ Owned p.ops k from hfold p.cmps
  induction cmps with
  | nil => simp
  | cons c cmps ih =>
    intro m
    rw [foldl_cons, ih, exists_mem_cons_iff]
    split
    · rename_i hown
      refine or_congr_right (and_congr_left fun hnot => ?_)
      exact ⟨.inr, fun h => h.resolve_left fun hk => hnot (hk ▸ hown)⟩
    · rename_i hown
      rw [exists_key_setCmp, or_assoc]
      refine or_congr_right ⟨?_, ?_⟩
      · rintro (hk | ⟨hx, hnot⟩)
        · exact ⟨.inl hk, hk ▸ hown⟩
        · exact ⟨.inr hx, hnot⟩
      · rintro ⟨hk | hx, hnot⟩
        · exact .inl hk
        · exact .inr ⟨hx, hnot⟩

theorem mem_txn_cmps {p : Pending} {c : Cmp Val} (h : c ∈ p.txn.1) : c ∈ p.cmps := by
  obtain ⟨o, -, hf⟩ := mem_filterMap.mp h
  exact mem_of_find?_eq_some hf

theorem exists_key_txn_cmps {p : Pending} {k : Key} (hown : Owned p.ops (some k))
    (h : ∃ x ∈ p.cmps, x.key = some k) : ∃ x ∈ p.txn.1, x.key = some k := by
  obtain ⟨op, hop, hk⟩ := hown
  obtain ⟨x, hx, hxk⟩ := h
  have hsome : (p.cmps.find? fun c => decide (c.key = some op.key)).isSome = true :=
    find?_isSome.mpr ⟨x, hx, by rw [decide_eq_true_eq, hxk, hk]⟩
  obtain ⟨y, hy⟩ := Option.isSome_iff_exists.mp hsome
  have hyk := find?_some hy
  rw [decide_eq_true_eq, hk] at hyk
  exact ⟨y, mem_filterMap.mpr ⟨op, hop, hy⟩, hyk⟩

end

/-! ## The payload -/

section

def BufferedRun.Apart (r r' : BufferedRun) : Prop :=
  r.endOff ≤ r'.diskOff ∨ r'.endOff ≤ r.diskOff

def BufferedRun.Holds (r : BufferedRun) (pos : Nat) : Prop := r.diskOff ≤ pos ∧ pos < r.endOff
  deriving Decidable

def bufferContent (data : List BufferedRun) (dev : Bytes) : Bytes := fun pos =>
  match data.find? fun r => decide (r.Holds pos) with
  | some r => r.buf.getD (pos - r.diskOff) 0
  | none => dev pos

theorem blit_append (dev : Bytes) (pos : Nat) (a b : List Byte) :
    dev.blit pos (a ++ b) = (dev.blit pos a).blit (pos + a.length) b := by
  funext i
  simp only [blit_apply, length_append]
  by_cases hb : pos + a.length ≤ i ∧ i < pos + a.length + b.length
  · rw [if_pos hb, if_pos (by omega), getD_append_right _ _ _ _ (by omega)]
    congr 1
    omega
  · rw [if_neg hb]
    by_cases ha : pos ≤ i ∧ i < pos + a.length
    · rw [if_pos ha, if_pos (by omega), getD_append _ _ _ _ (by omega)]
    · rw [if_neg ha, if_neg (by omega)]

theorem foldl_coalesce (data : List BufferedRun) (dev : Bytes) :
    (coalesce data).foldl Bytes.writeRun dev = data.foldl Bytes.writeRun dev := by
  induction data generalizing dev with
  | nil => rfl
  | cons r data ih =>
    rw [foldl_cons, ← ih (dev.writeRun r), coalesce]
    cases coalesce data with
    | nil => rfl
    | cons g groups =>
      simp only
      split
      · rename_i hadj
        rw [foldl_cons, foldl_cons]
        congr 1
        rw [Bytes.writeRun, blit_append, Bytes.writeRun, Bytes.writeRun, hadj]
        rfl
      · rfl

variable {data : List BufferedRun}

theorem foldl_writeRun (hp : data.Pairwise BufferedRun.Apart)
    (dev : Bytes) : data.foldl Bytes.writeRun dev = bufferContent data dev := by
  induction data generalizing dev with
  | nil => rfl
  | cons r data ih =>
    obtain ⟨hr, hp⟩ := pairwise_cons.mp hp
    rw [foldl_cons, ih hp]
    funext pos
    unfold bufferContent
    by_cases hh : r.Holds pos
    · have hnone : data.find? (fun r => decide (r.Holds pos)) = none := by
        rw [find?_eq_none]
        intro r' hr' hh'
        have ha := hr r' hr'
        rw [decide_eq_true_eq] at hh'
        simp only [BufferedRun.Apart, BufferedRun.Holds] at ha hh hh'
        omega
      rw [hnone, find?_cons_of_pos (by simpa using hh)]
      exact if_pos hh
    · rw [find?_cons_of_neg (by simpa using hh)]
      cases data.find? (fun r => decide (r.Holds pos)) with
      | some r' => rfl
      | none => exact if_neg hh

theorem find?_holds_iff (hp : data.Pairwise BufferedRun.Apart) {pos : Nat} {r : BufferedRun} :
    data.find? (fun r => decide (r.Holds pos)) = some r ↔ r ∈ data ∧ r.Holds pos := by
  constructor
  · intro h
    exact ⟨mem_of_find?_eq_some h, by simpa using find?_some h⟩
  · rintro ⟨hr, hh⟩
    induction data with
    | nil => cases hr
    | cons x data ih =>
      obtain ⟨hx, hp⟩ := pairwise_cons.mp hp
      rcases mem_cons.mp hr with rfl | hr
      · exact find?_cons_of_pos (by simpa using hh)
      · rw [find?_cons_of_neg, ih hp hr]
        have ha := hx r hr
        rw [decide_eq_true_eq]
        simp only [BufferedRun.Apart, BufferedRun.Holds] at *
        omega

theorem bufferContent_perm {data' : List BufferedRun}
    (hp : data.Pairwise BufferedRun.Apart) (h : data.Perm data') (dev : Bytes) :
    bufferContent data dev = bufferContent data' dev := by
  have hp' : data'.Pairwise BufferedRun.Apart := h.pairwise hp Or.symm
  have hfind : ∀ pos, data.find? (fun r => decide (r.Holds pos)) =
      data'.find? fun r => decide (r.Holds pos) := by
    intro pos
    apply Option.ext
    intro r
    rw [find?_holds_iff hp, find?_holds_iff hp', h.mem_iff]
  funext pos
  simp only [bufferContent, hfind]

theorem flushData_eq (hp : data.Pairwise BufferedRun.Apart)
    (dev : Bytes) : flushData data dev = bufferContent data dev := by
  have hperm := perm_insertionSort (fun a b : BufferedRun => a.diskOff ≤ b.diskOff) data
  rw [flushData, foldl_coalesce, foldl_writeRun (hperm.symm.pairwise hp Or.symm)]
  exact (bufferContent_perm hp hperm.symm dev).symm

def RangeSettled (data : List BufferedRun) (pos n : Nat) : Prop :=
  ∀ r ∈ data, (r.diskOff ≤ pos ∧ pos + n ≤ r.endOff) ∨ pos + n ≤ r.diskOff ∨ r.endOff ≤ pos

theorem fetch_eq (hp : data.Pairwise BufferedRun.Apart) {dev : Bytes}
    {f : Fill} (hs : RangeSettled data f.diskOff f.n) :
    f.fetch data dev = (bufferContent data dev).readAt f.diskOff f.n := by
  unfold Fill.fetch bufferedReadAt
  cases hfind : data.find? (fun r => decide (r.diskOff ≤ f.diskOff ∧ f.diskOff + f.n ≤ r.endOff))
    with
  | some r =>
    have hr := mem_of_find?_eq_some hfind
    have hin := find?_some hfind
    rw [decide_eq_true_eq] at hin
    rw [Option.map_some, Option.getD_some]
    apply ext_getElem
    · simp only [length_take, length_drop, length_readAt, BufferedRun.endOff] at *
      omega
    · intro i h1 h2
      rw [length_readAt] at h2
      have hh : r.Holds (f.diskOff + i) := by
        simp only [BufferedRun.Holds]
        omega
      have hlt : f.diskOff - r.diskOff + i < r.buf.length := by
        simp only [BufferedRun.endOff] at hin
        omega
      have hsub : f.diskOff + i - r.diskOff = f.diskOff - r.diskOff + i := by omega
      simp only [Bytes.readAt, getElem_take, getElem_drop, getElem_map,
        getElem_range, bufferContent, (find?_holds_iff hp).mpr ⟨hr, hh⟩, hsub]
      exact (getD_eq_getElem _ _ hlt).symm
  | none =>
    rw [Option.map_none, Option.getD_none]
    refine map_congr_left fun i hi => ?_
    rw [mem_range] at hi
    have hnone : data.find? (fun r => decide (r.Holds (f.diskOff + i))) = none := by
      rw [find?_eq_none] at hfind ⊢
      intro r hr hh
      have h1 := hfind r hr
      have h2 := hs r hr
      rw [decide_eq_true_eq] at h1 hh
      simp only [BufferedRun.Holds] at hh
      omega
    rw [bufferContent, hnone]

end

end EtcFS.Ipc

