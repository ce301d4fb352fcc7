import EtcFS.Arena.NodeRecords

/-!
# Scans of a node's own records

A node finds its records by a textual prefix. Another's lies under it exactly when the other's id
begins with this node's and a `/`.
-/

namespace EtcFS.Correctness

open EtcFS.Core Metadata Arena List Option Core.Store

def HasRecord (node : NodeID) (s : RawStore) : Prop :=
  (∃ arena : UInt64, s.get (arenaOwnerKey node arena.toNat) ≠ none) ∨
    ∃ ino : UInt64, s.get (orphanKey node ino.toNat) ≠ none

structure ScansOwn (node : NodeID) (s : RawStore) : Prop where
  arenas : ∀ kv ∈ getPrefix (arenaNodePrefix node) s,
    ∃ arena : UInt64, kv.1 = arenaOwnerKey node arena.toNat
  orphans : ∀ kv ∈ getPrefix (orphanPrefix node) s,
    ∃ ino : UInt64, kv.1 = orphanKey node ino.toNat
  adopts : ∀ arena ∈ adoptedArenas node s, s.get (arenaOwnerKey node arena) ≠ none
  owns : ownsArenas node s = true → ∃ arena, s.get (arenaOwnerKey node arena) ≠ none
  releases : ∀ limit other arena, other ≠ node →
    (releaseArena node limit s).2.get (arenaOwnerKey other arena) =
      s.get (arenaOwnerKey other arena)
  lists : ∀ ino ∈ listOrphans node s, s.get (orphanKey node ino.toNat) ≠ none
  reclaims : ∀ other ino, other ≠ node →
    (reclaimOrphans node s).get (orphanKey other ino) = s.get (orphanKey other ino)

/-! ## What the keys tell apart -/

section

variable {node : NodeID} {n : Nat} {k : Text}

theorem mem_getPrefix {range : Text} {s : RawStore} {kv : Text × List UInt8} :
    kv ∈ getPrefix range s ↔ range <+: kv.1 ∧ (s.get kv.1).map Versioned.value = some kv.2 := by
  rw [getPrefix, mem_list]
  constructor
  · rintro ⟨k, v, hv, hkv⟩
    obtain ⟨hr, rfl⟩ := ite_some_none_eq_some.mp hkv
    exact ⟨hr, by rw [hv]; rfl⟩
  · rintro ⟨hr, hv⟩
    obtain ⟨v, hv, hval⟩ := map_eq_some_iff.mp hv
    exact ⟨kv.1, v, hv, (if_pos hr).trans (by rw [hval])⟩

theorem not_arena_orphanKey : ¬ prefixArena <+: orphanKey node n := by
  intro h
  have h' := prefix_of_prefix_length_le h (prefix_append _ _) (by decide)
  exact absurd h' (by decide)

theorem not_orphan_arenaOwnerKey : ¬ prefixOrphan <+: arenaOwnerKey node n := by
  intro h
  have hlen : prefixArena.length ≤ prefixOrphan.length := by decide
  have h' := prefix_of_prefix_length_le (prefix_append _ _) h hlen
  exact absurd h' (by decide)

theorem elsewhere_freeArenaKey (n : Nat) : Elsewhere (freeArenaKey n) := by
  constructor <;> intro h <;>
    exact absurd (prefix_of_prefix_length_le h (prefix_append _ _) (by decide)) (by decide)

theorem arenaOwnerKey_ne_orphanKey {node' : NodeID} {n' : Nat} :
    arenaOwnerKey node n ≠ orphanKey node' n' := by
  intro h
  have harena : prefixArena <+: arenaOwnerKey node n := prefix_append _ _
  exact not_arena_orphanKey (h ▸ harena)

theorem ne_arenaOwnerKey (h : Elsewhere k) : k ≠ arenaOwnerKey node n := by
  rintro rfl
  exact h.1 (prefix_append _ _)

end

/-! ## The records of a run -/

def WellKept (k : Text) (value : List UInt8) : Prop :=
  (∃ (node : NodeID) (arena : UInt64),
      k = arenaOwnerKey node arena.toNat ∧ value = putUint64 arena) ∨
    (∃ (node : NodeID) (ino : UInt64), k = orphanKey node ino.toNat) ∨ Elsewhere k

def WrittenByNodes (s : RawStore) : Prop := ∀ k v, s.get k = some v → WellKept k v.value

theorem written_empty : WrittenByNodes Store.empty := by
  intro k v hv
  rw [get_empty] at hv
  cases hv

theorem WrittenByNodes.commit {s : RawStore} (h : WrittenByNodes s)
    {ops : List (Op fun _ : Text => List UInt8)}
    (hops : ∀ k value, Op.put k value ∈ ops → WellKept k value) :
    WrittenByNodes (s.commit ops) := by
  intro k v hv
  rcases get_commit_cases hv with ⟨hv, -⟩ | ⟨hput, -⟩
  · exact h k v hv
  · exact hops k v.value hput

theorem releaseNext_keeps {node : NodeID} {acc : List UInt64 × RawStore} (h : WrittenByNodes acc.2)
    (kv : Text × List UInt8) : WrittenByNodes (releaseNext node acc kv).2 ∧
      ∀ other arena, other ≠ node → (releaseNext node acc kv).2.get (arenaOwnerKey other arena) =
        acc.2.get (arenaOwnerKey other arena) := by
  unfold releaseNext
  split
  · exact ⟨h, fun _ _ _ => rfl⟩
  · rename_i arena _
    cases hrel : releaseOwned node arena acc.2 with
    | none => exact ⟨h, fun _ _ _ => rfl⟩
    | some t =>
      obtain ⟨-, rfl⟩ := txn_eq_some_iff.mp hrel
      refine ⟨h.commit fun k value hput => ?_, fun other n hne => ?_⟩
      · rcases mem_pair.mp hput with heq | heq
        · cases heq
        · obtain ⟨rfl, -⟩ := Op.put.inj heq
          exact .inr (.inr (elsewhere_freeArenaKey _))
      · refine get_commit_of_untouched fun op hop => ?_
        rcases mem_pair.mp hop with rfl | rfl
        · exact fun heq => hne (nodeKey_inj.mp heq).1.symm
        · exact ne_arenaOwnerKey (elsewhere_freeArenaKey _)

theorem releaseArena_keeps {node : NodeID} {limit : Nat} {s : RawStore} (h : WrittenByNodes s) :
    WrittenByNodes (releaseArena node limit s).2 ∧ ∀ other arena, other ≠ node →
      (releaseArena node limit s).2.get (arenaOwnerKey other arena) =
        s.get (arenaOwnerKey other arena) := by
  unfold releaseArena
  generalize (getPrefix (arenaNodePrefix node) s).take limit = kvs
  -- The loop goes over the listing it read first, whatever it releases meanwhile.
  suffices hloop : ∀ acc : List UInt64 × RawStore, WrittenByNodes acc.2 →
      WrittenByNodes (kvs.foldl (releaseNext node) acc).2 ∧ ∀ other arena, other ≠ node →
        (kvs.foldl (releaseNext node) acc).2.get (arenaOwnerKey other arena) =
          acc.2.get (arenaOwnerKey other arena) from hloop ([], s) h
  induction kvs with
  | nil => exact fun acc hacc => ⟨hacc, fun _ _ _ => rfl⟩
  | cons kv kvs ih =>
    intro acc hacc
    obtain ⟨hw, hkeep⟩ := releaseNext_keeps hacc kv
    obtain ⟨hw', hkeep'⟩ := ih _ hw
    exact ⟨hw', fun other arena hne => (hkeep' other arena hne).trans (hkeep other arena hne)⟩

theorem reclaimOrphans_ops {node : NodeID} {s : RawStore} {op : Op fun _ : Text => List UInt8}
    (h : op ∈ (listOrphans node s).map fun ino => .delete (orphanKey node ino.toNat)) :
    ∃ ino : UInt64, op = .delete (orphanKey node ino.toNat) := by
  obtain ⟨ino, -, rfl⟩ := mem_map.mp h
  exact ⟨ino, rfl⟩

theorem written_step {s t : RawStore} {a : OwnerStep} (h : WrittenByNodes s)
    (hs : nodeRecords.step s a = some t) : WrittenByNodes t := by
  cases a with
  | own node arena =>
    obtain ⟨-, rfl⟩ := txn_eq_some_iff.mp hs
    refine h.commit fun k value hput => .inl ?_
    obtain ⟨rfl, rfl⟩ := Op.put.inj (mem_singleton.mp hput)
    exact ⟨node, arena, rfl, rfl⟩
  | release node limit =>
    cases hs
    exact (releaseArena_keeps h).1
  | orphan node ino =>
    cases hs
    refine h.commit fun k value hput => .inr (.inl ?_)
    obtain ⟨rfl, rfl⟩ := Op.put.inj (mem_singleton.mp hput)
    exact ⟨node, ino, rfl⟩
  | deleteOrphan node ino =>
    cases hs
    refine h.commit fun k value hput => ?_
    cases mem_singleton.mp hput
  | reclaim node =>
    cases hs
    refine h.commit fun k value hput => ?_
    obtain ⟨ino, heq⟩ := reclaimOrphans_ops hput
    cases heq
  | other ops =>
    obtain ⟨hops, rfl⟩ := ite_some_none_eq_some.mp hs
    exact h.commit fun k value hput => .inr (.inr (hops _ hput))

/-! ## The scans -/

section

variable {node : NodeID} {s : RawStore}

variable {kv : Text × List UInt8}

theorem arenaScan_cases (h : WrittenByNodes s)
    (hkv : kv ∈ getPrefix (arenaNodePrefix node) s) : ∃ (other : NodeID) (arena : UInt64),
      kv.1 = arenaOwnerKey other arena.toNat ∧ kv.2 = putUint64 arena ∧
      (node = other ∨ node.toList ++ ['/'] <+: other.toList) := by
  obtain ⟨hr, hv⟩ := mem_getPrefix.mp hkv
  obtain ⟨v, hv, hval⟩ := map_eq_some_iff.mp hv
  have hword : prefixArena <+: kv.1 := (prefix_append _ _).trans hr
  rcases h kv.1 v hv with ⟨other, arena, hk, hvalue⟩ | ⟨other, ino, hk⟩ | helse
  · rw [hk] at hr
    exact ⟨other, arena, hk, hval.symm.trans hvalue, nodePrefix_iff.mp hr⟩
  · rw [hk] at hword
    exact absurd hword not_arena_orphanKey
  · exact absurd hword helse.1

theorem orphanScan_cases (h : WrittenByNodes s)
    (hkv : kv ∈ getPrefix (orphanPrefix node) s) : ∃ (other : NodeID) (ino : UInt64),
      kv.1 = orphanKey other ino.toNat ∧
      (node = other ∨ node.toList ++ ['/'] <+: other.toList) := by
  obtain ⟨hr, hv⟩ := mem_getPrefix.mp hkv
  obtain ⟨v, hv, hval⟩ := map_eq_some_iff.mp hv
  have hword : prefixOrphan <+: kv.1 := (prefix_append _ _).trans hr
  rcases h kv.1 v hv with ⟨other, arena, hk, -⟩ | ⟨other, ino, hk⟩ | helse
  · rw [hk] at hword
    exact absurd hword not_orphan_arenaOwnerKey
  · rw [hk] at hr
    exact ⟨other, ino, hk, nodePrefix_iff.mp hr⟩
  · exact absurd hword helse.2

theorem get_ne_none_of_scan {range : Text} (h : kv ∈ getPrefix range s) : s.get kv.1 ≠ none := by
  obtain ⟨v, hv, -⟩ := map_eq_some_iff.mp (mem_getPrefix.mp h).2
  rw [hv]
  exact some_ne_none v

theorem orphanKey_of_listOrphans (h : WrittenByNodes s) {ino : UInt64}
    (hino : ino ∈ listOrphans node s) : s.get (orphanKey node ino.toNat) ≠ none := by
  obtain ⟨kv, hkv, hparse⟩ := mem_filterMap.mp hino
  obtain ⟨other, ino', hk, rfl | ⟨rest, hrest⟩⟩ := orphanScan_cases h hkv
  · have hkey : kv.1 = orphanPrefix node ++ decimal ino'.toNat := by
      rw [hk]
      simp [orphanPrefix, orphanKey, nodePrefix, nodeKey]
    rw [hkey, cutPrefix_append, getD_some, parseUint_decimal, some.injEq] at hparse
    rw [← hparse, ← hk]
    exact get_ne_none_of_scan hkv
  · -- What is left after the prefix still has the separator before the number.
    have hkey : kv.1 = orphanPrefix node ++ (rest ++ '/' :: decimal ino'.toNat) := by
      rw [hk, orphanKey, nodeKey, ← hrest]
      simp [orphanPrefix, nodePrefix]
    have hslash : '/' ∈ rest ++ '/' :: decimal ino'.toNat :=
      mem_append_right _ mem_cons_self
    rw [hkey, cutPrefix_append, getD_some, parseUint_eq_none hslash (by decide)] at hparse
    cases hparse

theorem decodeUint64_putUint64 (arena : UInt64) : decodeUint64 (putUint64 arena) = arena.toNat :=
  Bytes.be_beBytes arena.toNat_lt

theorem scansOwn_of_apart (h : WrittenByNodes s)
    (hapart : ∀ other, HasRecord other s → ¬ node.toList ++ ['/'] <+: other.toList) :
    ScansOwn node s := by
  have harenas : ∀ kv ∈ getPrefix (arenaNodePrefix node) s, ∃ arena : UInt64,
      kv.1 = arenaOwnerKey node arena.toNat ∧ kv.2 = putUint64 arena := by
    intro kv hkv
    obtain ⟨other, arena, hk, hvalue, rfl | hbegins⟩ := arenaScan_cases h hkv
    · exact ⟨arena, hk, hvalue⟩
    · exact absurd hbegins (hapart other (.inl ⟨arena, hk ▸ get_ne_none_of_scan hkv⟩))
  refine ⟨fun kv hkv => ?_, fun kv hkv => ?_, fun arena ha => ?_, fun howns => ?_,
    fun limit => (releaseArena_keeps h).2, fun ino => orphanKey_of_listOrphans h,
    fun other ino hne => ?_⟩
  · obtain ⟨arena, hk, -⟩ := harenas kv hkv
    exact ⟨arena, hk⟩
  · obtain ⟨other, ino, hk, rfl | hbegins⟩ := orphanScan_cases h hkv
    · exact ⟨ino, hk⟩
    · exact absurd hbegins (hapart other (.inr ⟨ino, hk ▸ get_ne_none_of_scan hkv⟩))
  · obtain ⟨value, hvalue, hdec⟩ := mem_filterMap.mp ha
    obtain ⟨kv, hkv, rfl⟩ := mem_map.mp hvalue
    obtain ⟨-, hdec⟩ := ite_none_right_eq_some.mp hdec
    obtain ⟨id, hk, hput⟩ := harenas kv hkv
    rw [hput, decodeUint64_putUint64, some.injEq] at hdec
    rw [← hdec, ← hk]
    exact get_ne_none_of_scan hkv
  · cases hscan : getPrefix (arenaNodePrefix node) s with
    | nil =>
      rw [ownsArenas, hscan] at howns
      cases howns
    | cons kv kvs =>
      have hkv : kv ∈ getPrefix (arenaNodePrefix node) s := hscan ▸ mem_cons_self
      obtain ⟨id, hk, -⟩ := harenas kv hkv
      exact ⟨id.toNat, hk ▸ get_ne_none_of_scan hkv⟩
  · refine get_commit_of_untouched fun op hop => ?_
    obtain ⟨ino', rfl⟩ := reclaimOrphans_ops hop
    exact fun heq => hne (nodeKey_inj.mp heq).1.symm

theorem mem_scan {range k : Text} (hr : range <+: k) (hget : s.get k ≠ none) :
    ∃ kv ∈ getPrefix range s, kv.1 = k := by
  obtain ⟨v, hv⟩ := ne_none_iff_exists'.mp hget
  exact ⟨(k, v.value), mem_getPrefix.mpr ⟨hr, by rw [hv]; rfl⟩, rfl⟩

theorem not_begins_self (node : NodeID) : ¬ node.toList ++ ['/'] <+: node.toList := by
  intro h
  have hlen := h.length_le
  rw [length_append] at hlen
  exact absurd hlen (Nat.not_succ_le_self _)

theorem apart_of_scansOwn (h : ScansOwn node s) {other : NodeID} (hrec : HasRecord other s) :
    ¬ node.toList ++ ['/'] <+: other.toList := by
  intro hbegins
  have hsame : node = other := by
    rcases hrec with ⟨arena, hget⟩ | ⟨ino, hget⟩
    · obtain ⟨kv, hkv, hk⟩ := mem_scan (nodePrefix_iff.mpr (.inr hbegins)) hget
      obtain ⟨arena', hk'⟩ := h.arenas kv hkv
      exact (nodeKey_inj.mp (hk'.symm.trans hk)).1
    · obtain ⟨kv, hkv, hk⟩ := mem_scan (nodePrefix_iff.mpr (.inr hbegins)) hget
      obtain ⟨ino', hk'⟩ := h.orphans kv hkv
      exact (nodeKey_inj.mp (hk'.symm.trans hk)).1
  exact not_begins_self node (hsame ▸ hbegins)

theorem written_exec {acts : List OwnerStep} (hrun : nodeRecords.exec Store.empty acts = some s) :
    WrittenByNodes s :=
  Machine.Along.invariant (C := fun _ _ _ => True) (fun _ _ _ h _ hs => written_step h hs)
    written_empty (Machine.along_true _ _) hrun

end

/-- In every run of the nodes' records, the scans of a node see its own records
only exactly if no node that has a record has an id that goes on after this
node's with a `/`. -/
theorem scansOwn_iff {acts : List OwnerStep} {s : RawStore}
    (hrun : nodeRecords.exec Store.empty acts = some s) (node : NodeID) :
    ScansOwn node s ↔
      ∀ other, HasRecord other s → ¬ node.toList ++ ['/'] <+: other.toList :=
  ⟨fun h _ hrec => apart_of_scansOwn h hrec, scansOwn_of_apart (written_exec hrun)⟩

def twoOwners : RawStore :=
  (Store.empty.commit [.put (arenaOwnerKey "a" 1) (putUint64 1)]).commit
    [.put (arenaOwnerKey "b" 2) (putUint64 2)]

theorem twoOwners_keys {k : Text} (h : twoOwners.get k ≠ none) :
    k = arenaOwnerKey "a" 1 ∨ k = arenaOwnerKey "b" 2 := by
  obtain ⟨v, hv⟩ := ne_none_iff_exists'.mp h
  rcases get_commit_cases hv with ⟨hv, -⟩ | ⟨hput, -⟩
  · rcases get_commit_cases hv with ⟨hv, -⟩ | ⟨hput, -⟩
    · rw [get_empty] at hv
      cases hv
    · exact .inl (Op.put.inj (mem_singleton.mp hput)).1
  · exact .inr (Op.put.inj (mem_singleton.mp hput)).1

/-- Each of two nodes finds its own arena. -/
theorem scansOwn_twoOwners :
    nodeRecords.exec Store.empty [.own "a" 1, .own "b" 2] = some twoOwners ∧
      ScansOwn "a" twoOwners := by
  have hrun : nodeRecords.exec Store.empty [.own "a" 1, .own "b" 2] = some twoOwners := rfl
  refine ⟨hrun, (scansOwn_iff hrun "a").mpr ?_⟩
  have hnames : ∀ other ∈ ["a", "b"], ¬ "a".toList ++ ['/'] <+: other.toList := by decide
  rintro other (⟨arena, hget⟩ | ⟨ino, hget⟩)
  · rcases twoOwners_keys hget with hk | hk
    · rw [(nodeKey_inj.mp hk).1]
      exact hnames "a" (by decide)
    · rw [(nodeKey_inj.mp hk).1]
      exact hnames "b" (by decide)
  · rcases twoOwners_keys hget with hk | hk <;> exact absurd hk.symm arenaOwnerKey_ne_orphanKey

def slashedOwner : RawStore := Store.empty.commit [.put (arenaOwnerKey "a/b" 5) (putUint64 5)]

/-- A node `a` that starts beside a node `a/b` adopts the other's arena, and is
taken for an owner of arenas though it has no record. -/
theorem slashedOwner_adopted :
    nodeRecords.exec Store.empty [.own "a/b" 5] = some slashedOwner ∧
    adoptedArenas "a" slashedOwner = [5] ∧ ownsArenas "a" slashedOwner = true ∧
    slashedOwner.get (arenaOwnerKey "a" 5) = none ∧ ¬ ScansOwn "a" slashedOwner := by
  have hadopt : adoptedArenas "a" slashedOwner = [5] := by decide +kernel
  have hnone : slashedOwner.get (arenaOwnerKey "a" 5) = none := by decide +kernel
  refine ⟨rfl, hadopt, by decide +kernel, hnone, fun h => ?_⟩
  exact h.adopts 5 (hadopt ▸ mem_singleton_self 5) hnone

end EtcFS.Correctness
