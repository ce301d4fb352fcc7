import EtcFS.Metadata.Counter

/-!
# No number is handed out twice

What has been handed out, and what the daemons still hold, stays below the counter and apart,
whatever replies are lost.
-/

namespace EtcFS.Correctness

open EtcFS.Core Metadata List Option Function

def storedCounter (store : CounterStore) (key : String) : Nat :=
  ((store key).elim 0 counterValue).toNat

def InBlock (b : InodeBlocks) (x : Nat) : Prop := b.next.toNat ≤ x ∧ x < b.stop.toNat

def EndsBelow (x : ReserveTxn) : Prop :=
  x.reserved.toNat < 2 ^ 64 - x.reservation.count.toNat

def StaysBelow {ι : Type} (s : Counters ι) (a : CounterStep ι) : Prop :=
  ∀ x ∈ a.evaluated s, s.store x.reservation.key = x.seen → EndsBelow x

instance {ι : Type} (s : Counters ι) (a : CounterStep ι) : Decidable (StaysBelow s a) :=
  inferInstanceAs (Decidable (∀ x ∈ a.evaluated s,
    s.store x.reservation.key = x.seen →
      x.reserved.toNat < 2 ^ 64 - x.reservation.count.toNat))

/-! ## One transaction -/

section

variable {x : ReserveTxn} {store store' : CounterStore}

theorem counterValue_putUint64 (v : UInt64) : counterValue (putUint64 v) = v := by
  have hlen : ¬ (putUint64 v).length < 8 := by
    rw [length_putUint64]
    exact lt_irrefl 8
  have hat : uint64At (putUint64 v ++ []) 0 = v := uint64At_putUint64 v []
  rw [counterValue, if_neg hlen]
  rwa [append_nil] at hat

theorem le_reserved (x : ReserveTxn) :
    x.stored.toNat ≤ x.reserved.toNat ∧ x.reservation.floor.toNat ≤ x.reserved.toNat := by
  unfold ReserveTxn.reserved
  split
  · rename_i h
    exact ⟨Nat.le_of_lt (UInt64.lt_iff_toNat_lt.mp h), le_rfl⟩
  · rename_i h
    exact ⟨le_rfl, Nat.le_of_not_lt fun hlt => h (UInt64.lt_iff_toNat_lt.mpr hlt)⟩

theorem reserved_add (h : EndsBelow x) : (x.reserved + x.reservation.count).toNat =
      x.reserved.toNat + x.reservation.count.toNat := by
  rw [UInt64.toNat_add]
  unfold EndsBelow at h
  exact Nat.mod_eq_of_lt (by omega)

theorem apply_spec (hx : x.apply store = some store')
    (hbelow : store x.reservation.key = x.seen → EndsBelow x) :
    EndsBelow x ∧ storedCounter store x.reservation.key ≤ x.reserved.toNat ∧
      storedCounter store' x.reservation.key = x.reserved.toNat + x.reservation.count.toNat ∧
      ∀ key, key ≠ x.reservation.key → storedCounter store' key = storedCounter store key := by
  obtain ⟨hseen, rfl⟩ := ite_some_none_eq_some.mp hx
  refine ⟨hbelow hseen, ?_, ?_, fun key hkey => ?_⟩
  · rw [storedCounter, hseen]
    exact (le_reserved x).1
  · rw [storedCounter, update_self, elim_some, counterValue_putUint64, reserved_add (hbelow hseen)]
  · rw [storedCounter, storedCounter, update_of_ne hkey]

theorem storedCounter_le (hx : x.apply store = some store')
    (hbelow : store x.reservation.key = x.seen → EndsBelow x) (key : String) :
    storedCounter store key ≤ storedCounter store' key := by
  obtain ⟨-, hle, hnew, hother⟩ := apply_spec hx hbelow
  by_cases hkey : key = x.reservation.key
  · subst hkey
    rw [hnew]
    exact hle.trans (Nat.le_add_right _ _)
  · exact (hother key hkey).ge

end

/-! ## What the daemons and the counters keep -/

section

variable {ι : Type}

structure Issued (s : Counters ι) : Prop where
  handed_lt : ∀ key, ∀ x ∈ s.handed key, x < storedCounter s.store key
  handed_nodup : ∀ key, (s.handed key).Nodup
  inodes_ge : ∀ x ∈ s.inodes, firstUsableIno.toNat ≤ x
  block_ge : ∀ p x, InBlock (s.blocks p) x → firstUsableIno.toNat ≤ x
  block_lt : ∀ p x, InBlock (s.blocks p) x → x < storedCounter s.store inodeAllocCounter
  block_new : ∀ p x, InBlock (s.blocks p) x → x ∉ s.handed inodeAllocCounter
  block_apart : ∀ p q x, InBlock (s.blocks p) x → InBlock (s.blocks q) x → p = q

namespace Issued

variable {s t : Counters ι}

theorem boot (store : CounterStore) : Issued (Counters.boot (ι := ι) store) where
  handed_lt _ _ hx := nomatch hx
  handed_nodup _ := nodup_nil
  inodes_ge _ hx := nomatch hx
  block_ge _ _ hx := absurd hx.2 (Nat.not_lt_zero _)
  block_lt _ _ hx := absurd hx.2 (Nat.not_lt_zero _)
  block_new _ _ hx := absurd hx.2 (Nat.not_lt_zero _)
  block_apart _ _ _ hx := absurd hx.2 (Nat.not_lt_zero _)

/-- Numbers that nobody has and no block holds any more are handed out. -/
theorem hand (h : Issued s) (key : String) {ns : List Nat} (hnodup : ns.Nodup)
    (hlt : ∀ n ∈ ns, n < storedCounter t.store key) (hnew : ∀ n ∈ ns, n ∉ s.handed key)
    (hhanded : t.handed = update s.handed key (s.handed key ++ ns))
    (hstore : ∀ key, storedCounter s.store key ≤ storedCounter t.store key)
    (hinodes : ∀ x ∈ t.inodes, x ∈ s.inodes ∨ firstUsableIno.toNat ≤ x)
    (hblocks : ∀ p x, InBlock (t.blocks p) x →
      InBlock (s.blocks p) x ∧ (key = inodeAllocCounter → x ∉ ns)) : Issued t := by
  have hmem : ∀ key' x, x ∈ t.handed key' ↔ x ∈ s.handed key' ∨ key' = key ∧ x ∈ ns := by
    intro key' x
    rw [hhanded]
    by_cases hkey : key' = key
    · subst hkey
      simp
    · simp [hkey]
  refine ⟨fun key' x hx => ?_, fun key' => ?_, fun x hx => ?_,
    fun p x hx => h.block_ge p x (hblocks p x hx).1,
    fun p x hx => (h.block_lt p x (hblocks p x hx).1).trans_le (hstore _), fun p x hx hx' => ?_,
    fun p q x hp hq => h.block_apart p q x (hblocks p x hp).1 (hblocks q x hq).1⟩
  · rcases (hmem key' x).mp hx with hx | ⟨rfl, hx⟩
    · exact (h.handed_lt key' x hx).trans_le (hstore key')
    · exact hlt x hx
  · rw [hhanded]
    by_cases hkey : key' = key
    · subst hkey
      rw [update_self]
      exact (h.handed_nodup _).append hnodup fun x hx hx' => hnew x hx' hx
    · rw [update_of_ne hkey]
      exact h.handed_nodup key'
  · exact (hinodes x hx).elim (h.inodes_ge x) id
  · rcases (hmem _ x).mp hx' with hx' | ⟨hkey, hx'⟩
    · exact h.block_new p x (hblocks p x hx).1 hx'
    · exact (hblocks p x hx).2 hkey.symm hx'

theorem shrink (h : Issued s)
    (hstore : ∀ key, storedCounter s.store key ≤ storedCounter t.store key)
    (hhanded : t.handed = s.handed) (hinodes : t.inodes = s.inodes)
    (hblocks : ∀ p x, InBlock (t.blocks p) x → InBlock (s.blocks p) x) : Issued t := by
  refine h.hand inodeAllocCounter nodup_nil (by simp) (by simp) ?_ hstore
    (fun x hx => .inl (hinodes ▸ hx)) fun p x hx => ⟨hblocks p x hx, fun _ => not_mem_nil⟩
  rw [hhanded, append_nil, update_eq_self]

variable [DecidableEq ι]

theorem inBlock_update {blocks : ι → InodeBlocks} {q p : ι} {b : InodeBlocks} {x : Nat} :
    InBlock (Function.update blocks q b p) x ↔
      p = q ∧ InBlock b x ∨ p ≠ q ∧ InBlock (blocks p) x := by
  by_cases hp : p = q
  · subst hp
    simp
  · simp [hp]

theorem inBlock_unlock (s : Counters ι) (c : ReserveCall ι) {p : ι} {x : Nat}
    (hx : InBlock ((s.unlock c).blocks p) x) : InBlock (s.blocks p) x := by
  unfold Counters.unlock at hx
  split at hx
  · exact hx
  · obtain ⟨rfl, h⟩ | ⟨-, h⟩ := inBlock_update.mp hx <;> exact h

variable {store : CounterStore}

theorem failed (h : Issued s) (hstore : ∀ key, storedCounter s.store key ≤ storedCounter store key)
    (late : List ReserveTxn) (i : Nat) (c : ReserveCall ι) :
    Issued ({ s with store := store, late := late }.failed i c) := by
  have hsame : ∀ r : Counters ι, (r.unlock c).store = r.store ∧
      (r.unlock c).handed = r.handed ∧ (r.unlock c).inodes = r.inodes := by
    intro r
    unfold Counters.unlock
    split <;> exact ⟨rfl, rfl, rfl⟩
  have hr := hsame { s with store := store, late := late }
  refine h.shrink (fun key => ?_) hr.2.1 hr.2.2 fun p x hx => ?_
  · rw [Counters.failed, hr.1]
    exact hstore key
  · exact inBlock_unlock { s with store := store, late := late } c hx

theorem refilled (h : Issued s) (p : ι) {b : InodeBlocks}
    (hstore : ∀ key, storedCounter s.store key ≤ storedCounter store key)
    (hrun : ∀ x, InBlock b x → storedCounter s.store inodeAllocCounter ≤ x ∧
      firstUsableIno.toNat ≤ x ∧ x < storedCounter store inodeAllocCounter)
    (calls : List (ReserveCall ι)) :
    Issued { s with store := store, blocks := update s.blocks p b, calls := calls } := by
  refine ⟨fun key x hx => (h.handed_lt key x hx).trans_le (hstore key), h.handed_nodup,
    h.inodes_ge, fun q x hx => ?_, fun q x hx => ?_, fun q x hx hx' => ?_, fun q r x hq hr => ?_⟩
  · obtain ⟨-, hx⟩ | ⟨-, hx⟩ := inBlock_update.mp hx
    · exact (hrun x hx).2.1
    · exact h.block_ge q x hx
  · obtain ⟨-, hx⟩ | ⟨-, hx⟩ := inBlock_update.mp hx
    · exact (hrun x hx).2.2
    · exact (h.block_lt q x hx).trans_le (hstore _)
  · obtain ⟨-, hx⟩ | ⟨-, hx⟩ := inBlock_update.mp hx
    · exact absurd (h.handed_lt _ x hx') (Nat.not_lt.mpr (hrun x hx).1)
    · exact h.block_new q x hx hx'
  · obtain ⟨hq, hxq⟩ | ⟨-, hxq⟩ := inBlock_update.mp hq <;>
      obtain ⟨hr, hxr⟩ | ⟨-, hxr⟩ := inBlock_update.mp hr
    · exact hq.trans hr.symm
    · exact absurd (h.block_lt r x hxr) (Nat.not_lt.mpr (hrun x hxq).1)
    · exact absurd (h.block_lt q x hxq) (Nat.not_lt.mpr (hrun x hxr).1)
    · exact h.block_apart q r x hxq hxr

theorem returned (h : Issued s) {x : ReserveTxn} (i : Nat) {c : ReserveCall ι}
    (hx : x.apply s.store = some store) (hbelow : s.store x.reservation.key = x.seen → EndsBelow x)
    (hc : x.reservation = c.purpose.reservation) :
    Issued ({ s with store := store }.returned i c x.reserved) := by
  obtain ⟨hfits, hle, hnew, -⟩ := apply_spec hx hbelow
  have hmono := storedCounter_le hx hbelow
  unfold Counters.returned
  split
  · rename_i r hpurpose
    rw [hpurpose] at hc
    obtain rfl : x.reservation = r := hc
    -- The new run starts where everything handed out before ends.
    have hrun : ∀ y ∈ range' x.reserved.toNat x.reservation.count.toNat,
        storedCounter s.store x.reservation.key ≤ y ∧
          y < storedCounter store x.reservation.key := by
      intro y hy
      rw [mem_range'_1] at hy
      exact ⟨hle.trans hy.1, hnew ▸ hy.2⟩
    refine h.hand x.reservation.key nodup_range' (fun y hy => (hrun y hy).2) (fun y hy hold => ?_)
      rfl hmono (fun _ => .inl) fun p y hy => ⟨hy, fun hkey hrange => ?_⟩
    · exact absurd (h.handed_lt _ y hold) (Nat.not_lt.mpr (hrun y hy).1)
    · exact absurd (hkey ▸ h.block_lt p y hy) (Nat.not_lt.mpr (hrun y hrange).1)
  · rename_i hpurpose
    rw [hpurpose] at hc
    have hkey : x.reservation.key = inodeAllocCounter := congrArg Reservation.key hc
    have hcount : x.reservation.count = inodeBlockSize := congrArg Reservation.count hc
    have hfirst : x.reservation.floor = firstUsableIno := congrArg Reservation.floor hc
    have hend := reserved_add hfits
    have hfloor := (le_reserved x).2
    rw [hkey] at hle hnew
    rw [hcount] at hend hnew
    rw [hfirst] at hfloor
    refine h.refilled c.proc hmono (fun y hy => ?_) _
    exact ⟨hle.trans hy.1, hfloor.trans hy.1, by rw [hnew, ← hend]; exact hy.2⟩

theorem take (h : Issued s) {p : ι} (hp : (s.blocks p).next < (s.blocks p).stop) :
    Issued (s.take p) := by
  have hlt : (s.blocks p).next.toNat < (s.blocks p).stop.toNat := UInt64.lt_iff_toNat_lt.mp hp
  have hmem : InBlock (s.blocks p) (s.blocks p).next.toNat := ⟨le_rfl, hlt⟩
  have hsucc : ((s.blocks p).next + 1).toNat = (s.blocks p).next.toNat + 1 := by
    have hbound := (s.blocks p).stop.toNat_lt
    rw [UInt64.toNat_add]
    exact Nat.mod_eq_of_lt (by simp only [UInt64.toNat_one]; omega)
  refine h.hand inodeAllocCounter (nodup_singleton (s.blocks p).next.toNat)
    (forall_mem_singleton.mpr (h.block_lt p _ hmem))
    (forall_mem_singleton.mpr (h.block_new p _ hmem)) rfl (fun _ => le_rfl) (fun x hx => ?_)
    fun q x hx => ?_
  · refine (mem_append.mp hx).imp_right fun hx => ?_
    rw [mem_singleton.mp hx]
    exact h.block_ge p _ hmem
  · -- The block that is left has neither the number nor anything it did not have.
    rw [mem_singleton]
    obtain ⟨rfl, hlo, hhi⟩ | ⟨hne, hx⟩ := inBlock_update.mp hx
    · rw [hsucc] at hlo
      exact ⟨⟨Nat.le_of_succ_le hlo, hhi⟩, fun _ => Nat.ne_of_gt hlo⟩
    · refine ⟨hx, fun _ heq => hne (h.block_apart q p x hx ?_)⟩
      rw [heq]
      exact hmem

theorem unanswered (h : Issued s)
    (hstore : ∀ key, storedCounter s.store key ≤ storedCounter store key) (i : Nat)
    (c : ReserveCall ι) (x : ReserveTxn) {o : Outcome} (ho : o ≠ .committed) :
    Issued (s.answered i c x (o, store)) := by
  cases o with
  | committed => exact absurd rfl ho
  | rejected =>
    simp only [Counters.answered]
    split
    · exact h.shrink hstore rfl rfl fun _ _ hx => hx
    · exact h.failed hstore _ i c
  | failed => exact h.failed hstore _ i c

theorem move {a : CounterStep ι} (h : Issued s) (hbelow : StaysBelow s a)
    (ha : a.move s = some t) : Issued t := by
  have hsame : ∀ key, storedCounter s.store key ≤ storedCounter s.store key := fun _ => le_rfl
  -- Whatever etcd does in the step moves its counters up.
  have hmono : ∀ store, a.change s = some store → ∀ key,
      storedCounter s.store key ≤ storedCounter store key := by
    intro store hstore
    obtain ⟨x, hx, hstore⟩ := bind_eq_some_iff.mp hstore
    exact storedCounter_le hstore (hbelow x hx)
  cases a with
  | call p r =>
    simp only [CounterStep.move] at ha
    split at ha <;> obtain rfl := some.inj ha
    · exact h
    · exact h.shrink hsame rfl rfl fun _ _ hx => hx
  | refill p =>
    obtain ⟨-, ha⟩ := ite_none_left_eq_some.mp ha
    cases ha
    refine h.shrink hsame rfl rfl fun q x hx => ?_
    obtain ⟨rfl, hx'⟩ | ⟨-, hx'⟩ := inBlock_update.mp hx <;> exact hx'
  | read i =>
    obtain ⟨c, -, ha⟩ := bind_eq_some_iff.mp ha
    obtain ⟨-, rfl⟩ := ite_some_none_eq_some.mp ha
    exact h.shrink hsame rfl rfl fun _ _ hx => hx
  | send i unfenced reply =>
    obtain ⟨c, hc, ha⟩ := bind_eq_some_iff.mp ha
    obtain ⟨x, hx, rfl⟩ := map_eq_some_iff.mp ha
    have hcases := reply.deliver_cases (CounterStep.change s (.send i unfenced reply)) s.store
    obtain ⟨o, store, hdeliver⟩ : ∃ o store,
        reply.deliver (CounterStep.change s (.send i unfenced reply)) s.store = (o, store) :=
      ⟨_, _, rfl⟩
    rw [hdeliver] at hcases ⊢
    rcases hcases with ⟨hsame', ho⟩ | ⟨store', hchange, hstore', ⟨-, ho⟩ | ⟨-, ho⟩⟩
    · obtain rfl : store = s.store := hsame'
      exact h.unanswered hsame i c x ho
    · obtain rfl : store = store' := hstore'
      obtain rfl : o = .committed := ho
      obtain ⟨y, hy, happly⟩ := bind_eq_some_iff.mp hchange
      have hy' := (ite_none_right_eq_some.mp hy).2
      rw [hc, bind_some, hx, some.injEq] at hy'
      subst hy'
      obtain ⟨v, -, rfl⟩ := map_eq_some_iff.mp hx
      exact h.returned i happly (hbelow _ hy) rfl
    · obtain rfl : store = store' := hstore'
      obtain rfl : o = .failed := ho
      exact h.unanswered (hmono store hchange) i c x (fun hne => by cases hne)
  | giveUp i =>
    obtain ⟨c, -, rfl⟩ := map_eq_some_iff.mp ha
    exact h.failed hsame _ i c
  | arrive i unfenced =>
    obtain ⟨-, rfl⟩ := ite_some_none_eq_some.mp ha
    refine h.shrink (fun key => ?_) rfl rfl fun _ _ hx => hx
    cases hchange : CounterStep.change s (.arrive i unfenced) with
    | none => exact le_rfl
    | some store => exact hmono store hchange key
  | take p =>
    obtain ⟨hp, rfl⟩ := ite_some_none_eq_some.mp ha
    exact h.take hp
  | restart p =>
    cases ha
    refine h.shrink hsame rfl rfl fun q x hx => ?_
    obtain ⟨-, hx'⟩ | ⟨-, hx'⟩ := inBlock_update.mp hx
    · exact absurd hx'.2 (Nat.not_lt_zero _)
    · exact hx'

end Issued

end

section

variable {ι : Type} [DecidableEq ι]

/-- Whatever the daemons do, and whatever replies are lost, no number of a counter is
handed out twice, and every inode number is one that may be used. -/
theorem numbers_distinct {store : CounterStore} {as : List (CounterStep ι)} {t : Counters ι}
    (hbelow : counters.Along (fun s a _ => StaysBelow s a) (Counters.boot store) as)
    (hrun : counters.exec (Counters.boot store) as = some t) :
    (∀ key, (t.handed key).Nodup) ∧ ∀ ino ∈ t.inodes, firstUsableIno.toNat ≤ ino := by
  have hissued : Issued t :=
    hbelow.invariant (fun s a t hs ha hstep => hs.move ha hstep) (Issued.boot store) hrun
  exact ⟨hissued.handed_nodup, hissued.inodes_ge⟩

end

def contendedSteps : List (CounterStep Bool) :=
  [.refill true, .refill false, .read 0, .read 1, .giveUp 0, .arrive 0 true,
    .send 0 true .answered, .read 0, .send 0 true .answered, .take false,
    .refill true, .read 0, .send 0 true .answered, .take true, .take false, .restart false,
    .call false ⟨inodeAllocCounter, 0, 2⟩, .read 0, .send 0 true .answered]

/-- The numbers of the two daemons and of the caller are apart, and the lost block is
not among them. -/
theorem numbers_distinct_contended :
    ∃ t, counters.exec (Counters.boot fun _ => none) contendedSteps = some t ∧
      t.inodes = [1026, 2050, 1027] ∧
      t.handed inodeAllocCounter = [1026, 2050, 1027, 3074, 3075] ∧
      (∀ key, (t.handed key).Nodup) ∧ ∀ ino ∈ t.inodes, firstUsableIno.toNat ≤ ino := by
  have hbelow : counters.Along (fun s a _ => StaysBelow s a) (Counters.boot fun _ => none)
      contendedSteps := by decide +kernel
  have hresult : (counters.exec (Counters.boot fun _ => none) contendedSteps).map
      (fun t => (t.inodes, t.handed inodeAllocCounter)) =
        some ([1026, 2050, 1027], [1026, 2050, 1027, 3074, 3075]) := by decide +kernel
  obtain ⟨t, ht, heq⟩ := map_eq_some_iff.mp hresult
  obtain ⟨hinodes, hhanded⟩ := Prod.mk.inj heq
  exact ⟨t, ht, hinodes, hhanded, numbers_distinct hbelow ht⟩

end EtcFS.Correctness
