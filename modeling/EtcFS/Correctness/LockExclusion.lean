import EtcFS.Metadata.LockKeys

/-!
# An exclusive lock key is alone

The comparison and the write of an acquisition are one transaction, and its range covers the keys of
its own inode and no others.
-/

namespace EtcFS.Correctness

open EtcFS.Core Metadata Option List

def Exclusive (s : TextStore) : Prop :=
  ∀ ino k k', (s.get k).isSome → (s.get k').isSome → lockModePrefix ino .exclusive <+: k →
    lockPrefix ino <+: k' → k' = k

section

variable {s : TextStore} {ops : List (Op fun _ : Text => Leased)}

theorem mem_commit {k : Text} (h : ((s.commit ops).get k).isSome) :
    (s.get k).isSome ∨ ∃ v, Op.put k v ∈ ops := by
  obtain ⟨v, hv⟩ := isSome_iff_exists.mp h
  rcases Store.get_commit_cases hv with ⟨hold, -⟩ | ⟨hput, -⟩
  · exact .inl (isSome_iff_exists.mpr ⟨v, hold⟩)
  · exact .inr ⟨v.value, hput⟩

theorem Exclusive.commit (h : Exclusive s)
    (hput : ∀ k v, Op.put k v ∈ ops → ¬ prefixLock <+: k) : Exclusive (s.commit ops) := by
  have hold : ∀ {ino k}, ((s.commit ops).get k).isSome → lockPrefix ino <+: k →
      (s.get k).isSome := by
    intro ino k hk hpre
    rcases mem_commit hk with hk | ⟨v, hv⟩
    · exact hk
    · exact absurd ((prefixLock_begins ino).trans hpre) (hput k v hv)
  intro ino k k' hk hk' hex hpre
  exact h ino k k' (hold hk ((lockPrefix_begins ino _).trans hex)) (hold hk' hpre) hex hpre

theorem Exclusive.acquire (h : Exclusive s) {ino : Nat} {mode : LockMode} (holder : Holder)
    (hfree : s.holds (lockFree ino mode) = true)
    (hput : ∀ k v, Op.put k v ∈ ops → k = lockKey ino mode holder ∨ ¬ prefixLock <+: k) :
    Exclusive (s.commit ops) := by
  have hnone := holds_lockFree.mp hfree
  -- a key of an inode's range was there, or it is the one that is put
  have hcases : ∀ {i k}, ((s.commit ops).get k).isSome → lockPrefix i <+: k →
      (s.get k).isSome ∨ (k = lockKey ino mode holder ∧ i = ino) := by
    intro i k hk hpre
    rcases mem_commit hk with hk | ⟨v, hv⟩
    · exact .inl hk
    · rcases hput k v hv with rfl | hout
      · exact .inr ⟨rfl, ino_eq_of_lockPrefix hpre⟩
      · exact absurd ((prefixLock_begins i).trans hpre) hout
  -- no exclusive key was there beside the new one, and no key at all beside a new exclusive one
  have hblocked : ∀ {k}, (s.get k).isSome → ¬ blocked ino mode <+: k := by
    intro k hk hb
    rw [hnone k hb] at hk
    cases hk
  intro i k k' hk hk' hex hpre
  rcases hcases hk ((lockPrefix_begins i _).trans hex) with hold | ⟨rfl, rfl⟩
  · rcases hcases hk' hpre with hold' | ⟨rfl, rfl⟩
    · exact h i k k' hold hold' hex hpre
    · refine absurd ?_ (hblocked hold)
      cases mode with
      | exclusive => exact (lockPrefix_begins _ _).trans hex
      | shared => exact hex
  · obtain rfl : LockMode.exclusive = mode := mode_eq_of_lockModePrefix hex
    rcases hcases hk' hpre with hold' | ⟨rfl, -⟩
    · exact absurd hpre (hblocked hold')
    · rfl

theorem Exclusive.txn (h : Exclusive s) {request : LockRequest} {t : TextStore}
    (ht : s.txn request.cmps request.ops = some t) : Exclusive t := by
  obtain ⟨hcmps, rfl⟩ := Store.txn_eq_some_iff.mp ht
  cases request with
  | acquire ino mode holder node =>
    refine h.acquire holder (hcmps _ (mem_singleton_self _)) ?_
    intro k v hv
    obtain ⟨rfl, -⟩ : k = lockKey ino mode holder ∧ _ := by
      simpa [LockRequest.ops, putLock] using hv
    exact .inl rfl
  | create parent name ino dirent record holder node =>
    refine h.acquire holder (hcmps (lockFree ino .exclusive) (by simp [LockRequest.cmps])) ?_
    intro k v hv
    simp only [LockRequest.ops, putLock, mem_cons, Op.put.injEq, not_mem_nil,
      or_false] at hv
    rcases hv with ⟨rfl, -⟩ | ⟨rfl, -⟩ | ⟨rfl, -⟩
    · exact .inr (not_prefixLock_direntKey parent name)
    · exact .inr (not_prefixLock_inodeKey ino)
    · exact .inl rfl
  | release batch =>
    refine h.commit fun k v hv => ?_
    simp [LockRequest.ops] at hv
  | want ino node lease =>
    refine h.commit fun k v hv => ?_
    obtain ⟨rfl, -⟩ : k = lockWantKey ino node ∧ _ := by
      simpa [LockRequest.ops] using hv
    exact not_prefixLock_lockWantKey ino node
  | clearWant ino node =>
    refine h.commit fun k v hv => ?_
    simp [LockRequest.ops] at hv

end

theorem exclusive_step {s t : LockState} {step : LockStep} (h : Exclusive s.store)
    (hstep : lockTraffic.step s step = some t) : Exclusive t.store := by
  cases step with
  | grant node lease =>
    obtain ⟨-, rfl⟩ := ite_some_none_eq_some.mp hstep
    exact h
  | acquire | create | want =>
    obtain ⟨lease, -, ht⟩ := bind_eq_some_iff.mp hstep
    cases ht
    exact h
  | release | clearWant | lose =>
    cases hstep
    exact h
  | deliver i =>
    obtain ⟨request, -, ht⟩ := bind_eq_some_iff.mp hstep
    cases ht
    simp only [LockState.evaluate]
    split
    · cases htxn : s.store.txn request.cmps request.ops with
      | none => exact h
      | some t => exact h.txn htxn
    · exact h
  | expire lease =>
    cases hstep
    refine h.commit fun k v hv => ?_
    simp at hv

/-- In every state of every run, from any store in which exclusive keys are alone and
with any requests under way, an exclusive lock key of an inode is its only lock key. -/
theorem along_exclusive {s : LockState} (h : Exclusive s.store) (steps : List LockStep) :
    lockTraffic.Along (fun _ _ t => Exclusive t.store) s steps := by
  refine Machine.Along.of_invariant (I := fun s => Exclusive s.store) ?_ h
    (Machine.along_true s steps)
  intro s step t hs _ hstep
  have ht := exclusive_step hs hstep
  exact ⟨ht, ht⟩

def quiet : LockState where
  store := Store.empty
  live := []
  granted := []
  session := fun _ => none
  lockSeq := fun _ => 0
  flight := []

/-- Two nodes take the locks of inodes 1 and 12, and each other's, with a request in
between. -/
theorem along_exclusive_two_nodes :
    lockTraffic.Along (fun _ _ t => Exclusive t.store) quiet
      [.grant "a" 10, .grant "b" 11, .acquire "a" 1 .exclusive, .acquire "b" 12 .shared,
        .deliver 0, .deliver 0, .acquire "b" 1 .exclusive, .want "b" 1, .deliver 0, .deliver 0,
        .release [⟨1, .exclusive, ⟨10, 1⟩⟩], .deliver 0, .acquire "b" 1 .shared, .deliver 0,
        .expire 11] := by
  refine along_exclusive ?_ _
  intro ino k k' hk
  simp [quiet] at hk

end EtcFS.Correctness
