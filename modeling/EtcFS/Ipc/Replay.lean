import EtcFS.Ipc.Planning

/-!
# Replaying a transaction into the cached metadata

The snapshot is kept current by reading the transaction back. It then shows exactly what the
operations do to each chunk.
-/

namespace EtcFS.Ipc

open EtcFS.Core Metadata Arena List Option

structure InodeMeta where
  record : InodeRecord
  extents : List Extent
  deriving DecidableEq

structure TxnReplay where
  record : InodeRecord
  puts : List (Nat × ExtentValue)
  dels : List Nat

def TxnReplay.decode (ino : Nat) (r : TxnReplay) : Op Val → Option TxnReplay
  | .put (.inode i) v => if i = ino then some { r with record := v } else none
  | .put (.extent i chunk) v =>
    if i = ino then some { r with puts := r.puts ++ [(chunk, v)] } else none
  | .delete (.extent i chunk) =>
    if i = ino then some { r with dels := r.dels ++ [chunk] } else none
  | _ => none

def replayTxn (ino : Nat) (rec : InodeRecord) (ops : List (Op Val)) : Option TxnReplay :=
  ops.foldlM (TxnReplay.decode ino) ⟨rec, [], []⟩

def removeChunk (extents : List Extent) (chunk : Nat) : List Extent :=
  extents.eraseP fun e => e.chunk == chunk

def replacePut (rev : Nat) (extents : List Extent) (put : Nat × ExtentValue) : List Extent :=
  insertExtent (removeChunk extents put.1) ⟨put.2, put.1, rev⟩

def TxnReplay.apply (r : TxnReplay) (m : InodeMeta) (rev : Nat) : InodeMeta :=
  ⟨r.record, r.puts.foldl (replacePut rev) (r.dels.foldl removeChunk m.extents)⟩

/-! ## Decoding -/

structure Accounts (ino : Nat) (rec : InodeRecord) (ops : List (Op Val)) (r : TxnReplay) :
    Prop where
  record_eq : (effect (.inode ino) ops = none ∧ r.record = rec) ∨
    effect (.inode ino) ops = some (some r.record)
  put_iff : ∀ c v, (c, v) ∈ r.puts ↔ effect (.extent ino c) ops = some (some v)
  del_iff : ∀ c, c ∈ r.dels ↔ effect (.extent ino c) ops = some none
  puts_nodup : (r.puts.map Prod.fst).Nodup

theorem effect_snoc (k : Key) (ops : List (Op Val)) (op : Op Val) :
    effect k (ops ++ [op]) = (op.effect k).or (effect k ops) := by
  rw [effect_append]
  rfl

theorem effect_snoc_of_ne {k : Key} (ops : List (Op Val)) {op : Op Val} (h : op.key ≠ k) :
    effect k (ops ++ [op]) = effect k ops := by
  rw [effect_snoc, Op.effect_of_ne h, none_or]

section

variable {ino : Nat} {rec : InodeRecord} {ops : List (Op Val)} {r : TxnReplay}

theorem replayTxn_record (h : replayTxn ino rec ops = some r) :
    (effect (.inode ino) ops = none ∧ r.record = rec) ∨
      effect (.inode ino) ops = some (some r.record) := by
  induction ops using reverseRecOn generalizing r with
  | nil =>
    cases h
    exact .inl ⟨rfl, rfl⟩
  | append_singleton ops op ih =>
    simp only [replayTxn, foldlM_append, foldlM_cons, foldlM_nil] at h
    obtain ⟨r₀, hr₀, hstep⟩ := bind_eq_some_iff.mp h
    have hold := ih hr₀
    have hstep : r₀.decode ino op = some r := by simpa using hstep
    unfold TxnReplay.decode at hstep
    split at hstep
    · obtain ⟨rfl, rfl⟩ := ite_some_none_eq_some.mp hstep
      rw [effect_snoc, Op.effect_put_self, some_or]
      exact .inr rfl
    · obtain ⟨rfl, rfl⟩ := ite_some_none_eq_some.mp hstep
      rw [effect_snoc_of_ne ops (by simp [Op.key])]
      exact hold
    · obtain ⟨rfl, rfl⟩ := ite_some_none_eq_some.mp hstep
      rw [effect_snoc_of_ne ops (by simp [Op.key])]
      exact hold
    · cases hstep

theorem Accounts.snoc_inode (h : Accounts ino rec ops r) (v : InodeRecord) :
    Accounts ino rec (ops ++ [.put (.inode ino) v]) { r with record := v } where
  record_eq := by
    rw [effect_snoc, Op.effect_put_self, some_or]
    exact .inr rfl
  put_iff := by
    intro c x
    rw [effect_snoc_of_ne ops (by simp [Op.key])]
    exact h.put_iff c x
  del_iff := by
    intro c
    rw [effect_snoc_of_ne ops (by simp [Op.key])]
    exact h.del_iff c
  puts_nodup := h.puts_nodup

theorem Accounts.snoc_put (h : Accounts ino rec ops r) {chunk : Nat}
    (hfresh : effect (Key.extent ino chunk) ops = none) (v : ExtentValue) :
    Accounts ino rec (ops ++ [.put (.extent ino chunk) v])
      { r with puts := r.puts ++ [(chunk, v)] } := by
  have hother : ∀ k, k ≠ .extent ino chunk →
      effect k (ops ++ [.put (.extent ino chunk) v]) = effect k ops :=
    fun k hk => effect_snoc_of_ne ops fun h => hk h.symm
  have hself : effect (.extent ino chunk) (ops ++ [.put (.extent ino chunk) v]) =
      some (some v) := by
    rw [effect_snoc, Op.effect_put_self, some_or]
  have hnot : ∀ x, (chunk, x) ∉ r.puts := by
    intro x hx
    rw [h.put_iff, hfresh] at hx
    cases hx
  refine ⟨?_, ?_, ?_, ?_⟩
  · rw [hother _ (by simp)]
    exact h.record_eq
  · intro c x
    rw [mem_append, mem_singleton, Prod.mk.injEq]
    by_cases hc : c = chunk
    · subst hc
      simp [hself, hnot, eq_comm]
    · rw [hother _ (by simp [hc]), ← h.put_iff]
      simp [hc]
  · intro c
    by_cases hc : c = chunk
    · subst hc
      rw [hself, h.del_iff, hfresh]
      simp
    · rw [hother _ (by simp [hc])]
      exact h.del_iff c
  · rw [map_append, nodup_append]
    refine ⟨h.puts_nodup, nodup_singleton _, ?_⟩
    rintro c hc c' hc' rfl
    obtain ⟨⟨c, x⟩, hx, rfl⟩ := mem_map.mp hc
    rw [map_singleton, mem_singleton] at hc'
    obtain rfl : c = chunk := hc'
    exact hnot x hx

theorem Accounts.snoc_delete (h : Accounts ino rec ops r) {chunk : Nat}
    (hfresh : effect (Key.extent ino chunk) ops = none) :
    Accounts ino rec (ops ++ [.delete (.extent ino chunk)])
      { r with dels := r.dels ++ [chunk] } := by
  have hother : ∀ k, k ≠ .extent ino chunk →
      effect k (ops ++ [.delete (.extent ino chunk)]) = effect k ops :=
    fun k hk => effect_snoc_of_ne ops fun h => hk h.symm
  have hself : effect (.extent ino chunk) (ops ++ [.delete (.extent ino chunk)]) = some none := by
    rw [effect_snoc, Op.effect_delete_self, some_or]
  refine ⟨?_, ?_, ?_, h.puts_nodup⟩
  · rw [hother _ (by simp)]
    exact h.record_eq
  · intro c x
    by_cases hc : c = chunk
    · subst hc
      rw [hself, h.put_iff, hfresh]
      simp
    · rw [hother _ (by simp [hc])]
      exact h.put_iff c x
  · intro c
    rw [mem_append, mem_singleton]
    by_cases hc : c = chunk
    · subst hc
      simp [hself]
    · rw [hother _ (by simp [hc]), ← h.del_iff]
      simp [hc]

theorem Accounts.decode (h : Accounts ino rec ops r) {op : Op Val} {r' : TxnReplay}
    (hfresh : effect op.key ops = none) (hstep : r.decode ino op = some r') :
    Accounts ino rec (ops ++ [op]) r' := by
  unfold TxnReplay.decode at hstep
  split at hstep
  · obtain ⟨rfl, rfl⟩ := ite_some_none_eq_some.mp hstep
    exact h.snoc_inode _
  · obtain ⟨rfl, rfl⟩ := ite_some_none_eq_some.mp hstep
    exact h.snoc_put hfresh _
  · obtain ⟨rfl, rfl⟩ := ite_some_none_eq_some.mp hstep
    exact h.snoc_delete hfresh
  · cases hstep

theorem replayTxn_accounts (hn : (ops.map Op.key).Nodup) (h : replayTxn ino rec ops = some r) :
    Accounts ino rec ops r := by
  induction ops using reverseRecOn generalizing r with
  | nil =>
    cases h
    exact ⟨.inl ⟨rfl, rfl⟩, by simp [effect], by simp [effect], nodup_nil⟩
  | append_singleton ops op ih =>
    rw [map_append, nodup_append] at hn
    simp only [replayTxn, foldlM_append, foldlM_cons, foldlM_nil] at h
    obtain ⟨r₀, hr₀, hstep⟩ := bind_eq_some_iff.mp h
    have hfresh : effect op.key ops = none := by
      rw [effect_eq_none_iff]
      intro op' hop' hk
      exact hn.2.2 _ (mem_map_of_mem hop') _ (mem_map_of_mem (mem_singleton_self op)) hk
    exact (ih hn.1 hr₀).decode hfresh (by simpa using hstep)

end

theorem exists_replayTxn {ino : Nat} (rec : InodeRecord) {ops : List (Op Val)}
    (h : ∀ op ∈ ops, (∃ v, op = .put (.inode ino) v) ∨ ∃ c, op.key = .extent ino c) :
    ∃ r, replayTxn ino rec ops = some r := by
  suffices hfold : ∀ r : TxnReplay, ∃ r', ops.foldlM (TxnReplay.decode ino) r = some r' from
    hfold ⟨rec, [], []⟩
  induction ops with
  | nil => exact fun r => ⟨r, rfl⟩
  | cons op ops ih =>
    intro r
    have hop : ∃ r', r.decode ino op = some r' := by
      rcases h op mem_cons_self with ⟨v, rfl⟩ | ⟨c, hk⟩
      · exact ⟨_, if_pos rfl⟩
      · cases op with
        | put k v =>
          obtain rfl : k = .extent ino c := hk
          exact ⟨_, if_pos rfl⟩
        | delete k =>
          obtain rfl : k = .extent ino c := hk
          exact ⟨_, if_pos rfl⟩
    obtain ⟨r', hr'⟩ := hop
    obtain ⟨r'', hr''⟩ := ih (fun op hop => h op (mem_cons_of_mem _ hop)) r'
    exact ⟨r'', by rw [foldlM_cons, hr']; exact hr''⟩

/-! ## Applying -/

variable {extents : List Extent}

theorem mem_removeChunk (hd : DistinctChunks extents) {chunk : Nat}
    {e : Extent} : e ∈ removeChunk extents chunk ↔ e ∈ extents ∧ e.chunk ≠ chunk := by
  induction extents with
  | nil => simp [removeChunk]
  | cons x xs ih =>
    rw [DistinctChunks, map_cons, nodup_cons] at hd
    by_cases hx : x.chunk = chunk
    · have hstep : removeChunk (x :: xs) chunk = xs := by
        simp [removeChunk, hx]
      rw [hstep, mem_cons]
      constructor
      · intro he
        refine ⟨.inr he, fun hc => hd.1 ?_⟩
        rw [hx, ← hc]
        exact mem_map_of_mem he
      · rintro ⟨rfl | he, hne⟩
        · exact absurd hx hne
        · exact he
    · have hstep : removeChunk (x :: xs) chunk = x :: removeChunk xs chunk := by
        simp [removeChunk, hx]
      rw [hstep, mem_cons, mem_cons, ih hd.2]
      constructor
      · rintro (rfl | ⟨he, hne⟩)
        · exact ⟨.inl rfl, hx⟩
        · exact ⟨.inr he, hne⟩
      · rintro ⟨rfl | he, hne⟩
        · exact .inl rfl
        · exact .inr ⟨he, hne⟩

def Kept (extents : List Extent) : Prop := Ordered extents ∧ DistinctChunks extents

theorem Kept.removeChunk (h : Kept extents) (chunk : Nat) : Kept (removeChunk extents chunk) :=
  ⟨h.1.sublist eraseP_sublist, h.2.sublist (eraseP_sublist.map _)⟩

theorem Kept.replacePut (h : Kept extents) (rev : Nat)
    (put : Nat × ExtentValue) : Kept (replacePut rev extents put) ∧
      ∀ e, e ∈ replacePut rev extents put ↔
        e = ⟨put.2, put.1, rev⟩ ∨ (e ∈ extents ∧ e.chunk ≠ put.1) := by
  have hr := h.removeChunk put.1
  have hfresh : ∀ x ∈ Ipc.removeChunk extents put.1,
      x.chunk ≠ (⟨put.2, put.1, rev⟩ : Extent).chunk :=
    fun x hx => ((mem_removeChunk h.2).mp hx).2
  refine ⟨⟨insertExtent_ordered hr.1 hfresh, ?_⟩, ?_⟩
  · refine DistinctChunks.perm ?_ (insertExtent_perm _ _).symm
    rw [DistinctChunks, map_cons, nodup_cons]
    refine ⟨fun hmem => ?_, hr.2⟩
    obtain ⟨x, hx, hc⟩ := mem_map.mp hmem
    exact hfresh x hx hc
  · intro e
    rw [Ipc.replacePut, mem_insertExtent, mem_removeChunk h.2]

theorem Kept.foldl_removeChunk (h : Kept extents) (dels : List Nat) :
    Kept (dels.foldl Ipc.removeChunk extents) ∧
      ∀ e, e ∈ dels.foldl Ipc.removeChunk extents ↔ e ∈ extents ∧ e.chunk ∉ dels := by
  induction dels generalizing extents with
  | nil => simpa using h
  | cons c dels ih =>
    obtain ⟨hk, hmem⟩ := ih (h.removeChunk c)
    refine ⟨hk, fun e => ?_⟩
    rw [foldl_cons, hmem, mem_removeChunk h.2, mem_cons, not_or, and_assoc]

theorem Kept.foldl_replacePut (h : Kept extents) (rev : Nat)
    {puts : List (Nat × ExtentValue)} (hn : (puts.map Prod.fst).Nodup) :
    Kept (puts.foldl (Ipc.replacePut rev) extents) ∧
      ∀ e, e ∈ puts.foldl (Ipc.replacePut rev) extents ↔
        ((e.chunk, e.toExtentValue) ∈ puts ∧ e.modRevision = rev) ∨
          (e ∈ extents ∧ e.chunk ∉ puts.map Prod.fst) := by
  induction puts generalizing extents with
  | nil => simpa using h
  | cons put puts ih =>
    rw [map_cons, nodup_cons] at hn
    obtain ⟨hput, hpmem⟩ := h.replacePut rev put
    obtain ⟨hk, hmem⟩ := ih hput hn.2
    refine ⟨hk, fun e => ?_⟩
    obtain ⟨c, v⟩ := put
    rw [foldl_cons, hmem, hpmem, map_cons, mem_cons, mem_cons, not_or]
    constructor
    · rintro (⟨hp, hr⟩ | ⟨rfl | ⟨he, hc⟩, hnot⟩)
      · exact .inl ⟨.inr hp, hr⟩
      · exact .inl ⟨.inl rfl, rfl⟩
      · exact .inr ⟨he, hc, hnot⟩
    · rintro (⟨hp | hp, hr⟩ | ⟨he, hc, hnot⟩)
      · obtain ⟨h1, h2⟩ := Prod.mk.inj hp
        refine .inr ⟨.inl ?_, h1 ▸ hn.1⟩
        cases e
        simp_all
      · exact .inl ⟨hp, hr⟩
      · exact .inr ⟨.inr ⟨he, hc⟩, hnot⟩

theorem Accounts.apply {ino : Nat} {rec : InodeRecord} {ops : List (Op Val)} {r : TxnReplay}
    (h : Accounts ino rec ops r) {m : InodeMeta} (hm : Kept m.extents) (rev : Nat) :
    Kept (r.apply m rev).extents ∧ ∀ e, e ∈ (r.apply m rev).extents ↔
      (effect (.extent ino e.chunk) ops = some (some e.toExtentValue) ∧ e.modRevision = rev) ∨
        (effect (.extent ino e.chunk) ops = none ∧ e ∈ m.extents) := by
  obtain ⟨hd, hdmem⟩ := hm.foldl_removeChunk r.dels
  obtain ⟨hp, hpmem⟩ := hd.foldl_replacePut rev h.puts_nodup
  refine ⟨hp, fun e => ?_⟩
  have hnone : effect (.extent ino e.chunk) ops = none ↔
      e.chunk ∉ r.dels ∧ e.chunk ∉ r.puts.map Prod.fst := by
    rw [h.del_iff, List.mem_map]
    constructor
    · intro he
      refine ⟨by simp [he], ?_⟩
      rintro ⟨⟨c, v⟩, hcv, hc⟩
      rw [h.put_iff, show c = e.chunk from hc, he] at hcv
      cases hcv
    · rintro ⟨hdel, hput⟩
      cases he : effect (Key.extent ino e.chunk) ops with
      | none => rfl
      | some o =>
        cases o with
        | none => exact absurd he hdel
        | some v => exact absurd ⟨(e.chunk, v), (h.put_iff _ _).mpr he, rfl⟩ hput
  rw [TxnReplay.apply, hpmem, hdmem, h.put_iff, hnone]
  refine or_congr_right ?_
  constructor
  · rintro ⟨⟨he, hdel⟩, hput⟩
    exact ⟨⟨hdel, hput⟩, he⟩
  · rintro ⟨⟨hdel, hput⟩, he⟩
    exact ⟨⟨he, hdel⟩, hput⟩

end EtcFS.Ipc
