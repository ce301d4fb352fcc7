import EtcFS.Ipc.AcquireKey

/-!
# Keys an acquisition leaves behind

A transaction that is applied while its reply is lost leaves a key that the call does not know of,
until a later attempt's reads find it.
-/

namespace EtcFS.Correctness

open EtcFS.Core Metadata Ipc List Option

def Clean (ino : Nat) (mode : LockMode) (out : Option Holder × KeyCall) : Prop :=
  (∀ h ∈ out.1, h ∈ out.2.attempted) ∧
    ∀ h ∈ out.2.attempted, lockHeldBy out.2.store ino mode h = true ↔ out.1 = some h
  deriving Decidable

/-- A token of the call's whose key is in etcd. -/
def Left (ino : Nat) (mode : LockMode) (c : KeyCall) (h : Holder) : Prop :=
  h ∈ c.attempted ∧ lockHeldBy c.store ino mode h = true

def Apart (ino : Nat) (mode : LockMode) (a : KeyAttempt) (h : Holder) : Prop :=
  ∀ ops ∈ a.before ++ a.between, ∀ op ∈ ops, op.key ≠ lockKey ino mode h

structure LiveCall (ino : Nat) (mode : LockMode) (attempts : List KeyAttempt) (s : TextStore) :
    Prop where
  nodup : (attempts.map KeyAttempt.holder).Nodup
  fresh : ∀ a ∈ attempts, lockHeldBy s ino mode a.holder = false
  apart : ∀ a ∈ attempts, ∀ b ∈ attempts, Apart ino mode a b.holder

def TakesEffect (ino : Nat) (mode : LockMode) (node : NodeID) (a : KeyAttempt) (c : KeyCall) :
    Prop :=
  a.reply ≠ .unsent ∧ (acquireTxn (a.met c) ino mode a.holder node).isSome

instance (ino : Nat) (mode : LockMode) (node : NodeID) (a : KeyAttempt) (c : KeyCall) :
    Decidable (TakesEffect ino mode node a c) :=
  inferInstanceAs (Decidable (_ ∧ _))

def Settles (ino : Nat) (mode : LockMode) (node : NodeID) :
    List KeyAttempt → KeyCall → Option Nat → Prop
  | [], _, owed => owed = none
  | a :: attempts, c, owed =>
    if ∃ i ∈ owed, a.Reaches i then True
    else if TakesEffect ino mode node a c then
      owed = none ∧ (a.reply = .answered ∨
        Settles ino mode node attempts (attemptKey ino mode node a c).2 (some c.attempted.length))
    else Settles ino mode node attempts (attemptKey ino mode node a c).2 owed

instance decidableSettles (ino : Nat) (mode : LockMode) (node : NodeID) :
    ∀ attempts c owed, Decidable (Settles ino mode node attempts c owed)
  | [], _, owed => inferInstanceAs (Decidable (owed = none))
  | a :: attempts, c, owed =>
    have := decidableSettles ino mode node attempts
    inferInstanceAs (Decidable (if ∃ i ∈ owed, a.Reaches i then _ else
      if TakesEffect ino mode node a c then _ ∧ (_ ∨ _) else _))

section

variable {ino : Nat} {mode : LockMode} {node : NodeID} {a : KeyAttempt} {c : KeyCall} {h : Holder}

theorem lockHeldBy_seen (hap : Apart ino mode a h) :
    lockHeldBy (a.seen c) ino mode h = lockHeldBy c.store ino mode h :=
  lockHeldBy_interleave fun ops hops => hap ops (mem_append_left _ hops)

theorem lockHeldBy_met (hap : Apart ino mode a h) :
    lockHeldBy (a.met c) ino mode h = lockHeldBy c.store ino mode h :=
  (lockHeldBy_interleave fun ops hops => hap ops (mem_append_right _ hops)).trans
    (lockHeldBy_seen hap)

theorem attemptKey_passed (hadopt : adoptOwnLock (a.seen c) ino mode c.attempted a.reads = none)
    (happ : ¬ TakesEffect ino mode node a c) :
    (attemptKey ino mode node a c).1 = none ∧
      (attemptKey ino mode node a c).2.attempted = c.attempted ++ [a.holder] ∧
      ∀ h, Apart ino mode a h → lockHeldBy (attemptKey ino mode node a c).2.store ino mode h =
          lockHeldBy c.store ino mode h := by
  have hnone : a.reply ≠ .unsent → acquireTxn (a.met c) ino mode a.holder node = none := by
    intro hsent
    simpa [TakesEffect, hsent] using happ
  simp only [attemptKey, hadopt]
  cases hr : a.reply with
  | unsent => exact ⟨rfl, rfl, fun h => lockHeldBy_met⟩
  | lost =>
    rw [hnone (by simp [hr])]
    exact ⟨rfl, rfl, fun h => lockHeldBy_met⟩
  | answered =>
    rw [hnone (by simp [hr])]
    refine ⟨rfl, rfl, fun h hap => ?_⟩
    rw [← lockHeldBy_met (c := c) hap]
    -- the want key is written on a conflict, beside the lock keys
    simp only [Reply.deliver]
    split
    · exact lockHeldBy_want rfl
    · rfl

theorem attemptKey_applied (hadopt : adoptOwnLock (a.seen c) ino mode c.attempted a.reads = none)
    (happ : TakesEffect ino mode node a c) :
    (attemptKey ino mode node a c).1 = (if a.reply = .answered then some a.holder else none) ∧
      (attemptKey ino mode node a c).2.attempted = c.attempted ++ [a.holder] ∧
      ∀ h, Apart ino mode a h → lockHeldBy (attemptKey ino mode node a c).2.store ino mode h =
          (h == a.holder || lockHeldBy c.store ino mode h) := by
  obtain ⟨hsent, hsome⟩ := happ
  obtain ⟨t, ht⟩ := isSome_iff_exists.mp hsome
  simp only [attemptKey, hadopt, ht]
  cases hr : a.reply with
  | unsent => exact absurd hr hsent
  | lost | answered =>
    refine ⟨rfl, rfl, ?_⟩
    intro h hap
    rw [← lockHeldBy_met (c := c) hap]
    exact lockHeldBy_acquireTxn ht

theorem attemptKey_adopted {own : Holder}
    (hadopt : adoptOwnLock (a.seen c) ino mode c.attempted a.reads = some own) :
    attemptKey ino mode node a c = (some own, { c with store := a.seen c }) := by
  simp only [attemptKey, hadopt]

theorem Left.attempt (hleft : Left ino mode c h) (node : NodeID) (hap : Apart ino mode a h) :
    Left ino mode (attemptKey ino mode node a c).2 h := by
  obtain ⟨hm, hheld⟩ := hleft
  cases hadopt : adoptOwnLock (a.seen c) ino mode c.attempted a.reads with
  | some own =>
    rw [attemptKey_adopted hadopt]
    exact ⟨hm, (lockHeldBy_seen hap).trans hheld⟩
  | none =>
    by_cases happ : TakesEffect ino mode node a c
    · obtain ⟨-, hatt, hstore⟩ := attemptKey_applied hadopt happ
      rw [Left, hatt, hstore h hap, hheld, Bool.or_true]
      exact ⟨mem_append_left _ hm, rfl⟩
    · obtain ⟨-, hatt, hstore⟩ := attemptKey_passed hadopt happ
      rw [Left, hatt, hstore h hap]
      exact ⟨mem_append_left _ hm, hheld⟩

end

variable {ino : Nat} {mode : LockMode} {node : NodeID} {attempts : List KeyAttempt} {c : KeyCall}

theorem retryKey_of_failed {a : KeyAttempt} (h : (attemptKey ino mode node a c).1 = none) :
    retryKey ino mode node (a :: attempts) c =
      retryKey ino mode node attempts (attemptKey ino mode node a c).2 := by
  rw [retryKey]
  rcases hout : attemptKey ino mode node a c with ⟨_ | own, c'⟩
  · rfl
  · rw [hout] at h
    cases h

theorem retryKey_of_succeeded {a : KeyAttempt} {own : Holder}
    (h : (attemptKey ino mode node a c).1 = some own) :
    retryKey ino mode node (a :: attempts) c = (some own, (attemptKey ino mode node a c).2) := by
  rw [retryKey]
  rcases hout : attemptKey ino mode node a c with ⟨_ | own', c'⟩
  · rw [hout] at h
    cases h
  · rw [hout] at h
    cases h
    rfl

theorem Left.retry {h : Holder} (hleft : Left ino mode c h) (node : NodeID)
    (hap : ∀ a ∈ attempts, Apart ino mode a h) :
    Left ino mode (retryKey ino mode node attempts c).2 h := by
  induction attempts generalizing c with
  | nil => exact hleft
  | cons a attempts ih =>
    rw [forall_mem_cons] at hap
    have hstep := hleft.attempt node hap.1
    cases hout : (attemptKey ino mode node a c).1 with
    | none =>
      rw [retryKey_of_failed hout]
      exact ih hstep hap.2
    | some own =>
      rw [retryKey_of_succeeded hout]
      exact hstep

theorem Clean.eq_of_left {out : Option Holder × KeyCall} (hclean : Clean ino mode out)
    {h h' : Holder} (hk : Left ino mode out.2 h) (hk' : Left ino mode out.2 h') : h = h' := by
  have he := (hclean.2 h hk.1).mp hk.2
  rw [(hclean.2 h' hk'.1).mp hk'.2] at he
  exact (some.inj he).symm

inductive Owes (ino : Nat) (mode : LockMode) (s : TextStore) : List Holder → Option Nat → Prop
  | nothing {attempted : List Holder}
      (h : ∀ own ∈ attempted, lockHeldBy s ino mode own = false) : Owes ino mode s attempted none
  | key {before after : List Holder} {own : Holder}
      (hb : ∀ h ∈ before, lockHeldBy s ino mode h = false)
      (hown : lockHeldBy s ino mode own = true)
      (ha : ∀ h ∈ after, lockHeldBy s ino mode h = false) :
      Owes ino mode s (before ++ own :: after) (some before.length)

section

variable {s t : TextStore} {attempted : List Holder} {owed : Option Nat}

theorem Owes.congr (h : Owes ino mode s attempted owed)
    (he : ∀ own ∈ attempted, lockHeldBy t ino mode own = lockHeldBy s ino mode own) :
    Owes ino mode t attempted owed := by
  cases h with
  | nothing h => exact .nothing fun own hm => (he own hm).trans (h own hm)
  | key hb hown ha =>
    simp only [mem_append, mem_cons] at he
    exact .key (fun h hm => (he h (.inl hm)).trans (hb h hm)) ((he _ (.inr (.inl rfl))).trans hown)
      (fun h hm => (he h (.inr (.inr hm))).trans (ha h hm))

theorem Owes.not_held (h : Owes ino mode s attempted none) :
    ∀ own ∈ attempted, lockHeldBy s ino mode own = false := by
  cases h with
  | nothing h => exact h

theorem Owes.held {i : Nat} (h : Owes ino mode s attempted (some i)) :
    ∃ own ∈ attempted, lockHeldBy s ino mode own = true := by
  cases h with
  | @key before after own hb hown ha => exact ⟨own, by simp, hown⟩

theorem Owes.snoc {own : Holder} (h : Owes ino mode s attempted owed)
    (hown : lockHeldBy s ino mode own = false) : Owes ino mode s (attempted ++ [own]) owed := by
  cases h with
  | nothing h =>
    refine .nothing ?_
    intro h' hm
    rcases mem_append.mp hm with hm | hm
    · exact h h' hm
    · rw [mem_singleton.mp hm]
      exact hown
  | @key before after own' hb hown' ha =>
    rw [append_assoc, cons_append]
    refine .key hb hown' ?_
    intro h' hm
    rcases mem_append.mp hm with hm | hm
    · exact ha h' hm
    · rw [mem_singleton.mp hm]
      exact hown

theorem Owes.clean_iff {b : Bool} (h : Owes ino mode s attempted owed) :
    Clean ino mode (none, ⟨s, attempted, b⟩) ↔ owed = none := by
  cases owed with
  | none =>
    refine iff_of_true ⟨by simp, ?_⟩ rfl
    intro own hm
    simp [h.not_held own hm]
  | some i =>
    refine iff_of_false ?_ (by simp)
    rintro ⟨-, hclean⟩
    obtain ⟨own, hm, hown⟩ := h.held
    cases (hclean own hm).mp hown

theorem Owes.adopt_none {reads : List Bool} (h : Owes ino mode s attempted owed)
    (hreach : ¬ ∃ i ∈ owed, replicate (i + 1) true <+: reads) :
    adoptOwnLock s ino mode attempted reads = none := by
  cases h with
  | nothing h => exact adoptOwnLock_of_none h reads
  | @key before after own hb hown ha =>
    rw [adoptOwnLock_at hb hown, if_neg]
    intro hr
    exact hreach ⟨before.length, rfl, hr⟩

theorem Owes.adopt_some {reads : List Bool} {i : Nat} (h : Owes ino mode s attempted owed)
    (hi : i ∈ owed) (hreach : replicate (i + 1) true <+: reads) (hn : attempted.Nodup) :
    ∃ own ∈ attempted, adoptOwnLock s ino mode attempted reads = some own ∧
      ∀ h ∈ attempted, lockHeldBy s ino mode h = true ↔ own = h := by
  cases h with
  | nothing h => cases hi
  | @key before after own hb hown ha =>
    cases hi
    refine ⟨own, by simp, by rw [adoptOwnLock_at hb hown, if_pos hreach], ?_⟩
    intro h hm
    constructor
    · intro hheld
      rcases mem_append.mp hm with hm | hm
      · rw [hb h hm] at hheld
        cases hheld
      · rcases mem_cons.mp hm with rfl | hm
        · rfl
        · rw [ha h hm] at hheld
          cases hheld
    · rintro rfl
      exact hown

end

structure Midway (ino : Nat) (mode : LockMode) (attempts : List KeyAttempt) (c : KeyCall)
    (owed : Option Nat) : Prop where
  nodup : (c.attempted ++ attempts.map KeyAttempt.holder).Nodup
  fresh : ∀ a ∈ attempts, lockHeldBy c.store ino mode a.holder = false
  apart : ∀ a ∈ attempts, ∀ h ∈ c.attempted ++ attempts.map KeyAttempt.holder,
    Apart ino mode a h
  owes : Owes ino mode c.store c.attempted owed

section

variable {a : KeyAttempt} {owed : Option Nat}

theorem Midway.apart_self (h : Midway ino mode (a :: attempts) c owed) {own : Holder}
    (hm : own ∈ c.attempted ∨ own = a.holder ∨ ∃ b ∈ attempts, own = b.holder) :
    Apart ino mode a own := by
  refine h.apart a mem_cons_self own ?_
  simp only [map_cons, mem_append, mem_cons, List.mem_map]
  rcases hm with hm | hm | ⟨b, hb, hm⟩
  · exact .inl hm
  · exact .inr (.inl hm)
  · exact .inr (.inr ⟨b, hb, hm.symm⟩)

theorem Midway.next {c' : KeyCall} {owed' : Option Nat} (h : Midway ino mode (a :: attempts) c owed)
    (hatt : c'.attempted = c.attempted ++ [a.holder])
    (hfresh : ∀ b ∈ attempts, lockHeldBy c'.store ino mode b.holder = false)
    (howes : Owes ino mode c'.store c'.attempted owed') : Midway ino mode attempts c' owed' := by
  have htokens : c'.attempted ++ attempts.map KeyAttempt.holder =
      c.attempted ++ (a :: attempts).map KeyAttempt.holder := by
    rw [hatt, append_assoc, map_cons, singleton_append]
  refine ⟨?_, hfresh, ?_, howes⟩
  · rw [htokens]
    exact h.nodup
  · rw [htokens]
    exact fun b hb => h.apart b (mem_cons_of_mem _ hb)

theorem Midway.holder_ne (h : Midway ino mode (a :: attempts) c owed) :
    (∀ own ∈ c.attempted, own ≠ a.holder) ∧ ∀ b ∈ attempts, b.holder ≠ a.holder := by
  have hn := h.nodup
  rw [map_cons, nodup_append, nodup_cons] at hn
  refine ⟨fun own hm => hn.2.2 own hm a.holder mem_cons_self, ?_⟩
  intro b hb he
  exact hn.2.1.1 (mem_map.mpr ⟨b, hb, he⟩)

theorem Midway.adopt_none (h : Midway ino mode (a :: attempts) c owed)
    (hreach : ¬ ∃ i ∈ owed, a.Reaches i) :
    adoptOwnLock (a.seen c) ino mode c.attempted a.reads = none :=
  Owes.adopt_none (h.owes.congr fun _ hm => lockHeldBy_seen (h.apart_self (.inl hm))) hreach

theorem Midway.passed (h : Midway ino mode (a :: attempts) c owed)
    (hreach : ¬ ∃ i ∈ owed, a.Reaches i) (happ : ¬ TakesEffect ino mode node a c) :
    (attemptKey ino mode node a c).1 = none ∧
      Midway ino mode attempts (attemptKey ino mode node a c).2 owed := by
  obtain ⟨hout, hatt, hstore⟩ := attemptKey_passed (h.adopt_none hreach) happ
  refine ⟨hout, h.next hatt ?_ ?_⟩
  · intro b hb
    rw [hstore _ (h.apart_self (.inr (.inr ⟨b, hb, rfl⟩)))]
    exact h.fresh b (mem_cons_of_mem _ hb)
  · rw [hatt]
    refine (h.owes.congr fun own hm => hstore own (h.apart_self (.inl hm))).snoc ?_
    rw [hstore _ (h.apart_self (.inr (.inl rfl)))]
    exact h.fresh a mem_cons_self

theorem Midway.applied (h : Midway ino mode (a :: attempts) c none)
    (happ : TakesEffect ino mode node a c) :
    Midway ino mode attempts (attemptKey ino mode node a c).2 (some c.attempted.length) := by
  obtain ⟨-, hatt, hstore⟩ := attemptKey_applied (h.adopt_none (by simp)) happ
  refine h.next hatt ?_ ?_
  · intro b hb
    rw [hstore _ (h.apart_self (.inr (.inr ⟨b, hb, rfl⟩))),
      beq_eq_false_iff_ne.mpr (h.holder_ne.2 b hb), h.fresh b (mem_cons_of_mem _ hb)]
    rfl
  · rw [hatt]
    refine .key ?_ ?_ (by simp)
    · intro own hm
      rw [hstore _ (h.apart_self (.inl hm)), beq_eq_false_iff_ne.mpr (h.holder_ne.1 own hm),
        h.owes.not_held own hm]
      rfl
    · rw [hstore _ (h.apart_self (.inr (.inl rfl))), beq_self_eq_true, Bool.true_or]

theorem Midway.not_clean {i : Nat} (h : Midway ino mode (a :: attempts) c (some i))
    (hreach : ¬ ∃ j ∈ some i, a.Reaches j) (happ : TakesEffect ino mode node a c) :
    ¬ Clean ino mode (retryKey ino mode node (a :: attempts) c) := by
  intro hclean
  obtain ⟨own, hm, hown⟩ := h.owes.held
  obtain ⟨hout, hatt, hstore⟩ := attemptKey_applied (h.adopt_none hreach) happ
  have hap : ∀ b ∈ a :: attempts, Apart ino mode b own := fun b hb =>
    h.apart b hb own (mem_append_left _ hm)
  have hapa : ∀ b ∈ attempts, Apart ino mode b a.holder := fun b hb =>
    h.apart b (mem_cons_of_mem _ hb) a.holder (by simp)
  have hmint : Left ino mode (attemptKey ino mode node a c).2 a.holder := by
    rw [Left, hatt, hstore _ (h.apart_self (.inr (.inl rfl))), beq_self_eq_true, Bool.true_or]
    exact ⟨by simp, rfl⟩
  -- the new key outlasts the rest of the call, as the owed one does
  have hnew : Left ino mode (retryKey ino mode node (a :: attempts) c).2 a.holder := by
    cases hstep : (attemptKey ino mode node a c).1 with
    | none =>
      rw [retryKey_of_failed hstep]
      exact hmint.retry node hapa
    | some own' =>
      rw [retryKey_of_succeeded hstep]
      exact hmint
  have hold : Left ino mode c own := ⟨hm, hown⟩
  exact h.holder_ne.1 own hm (hclean.eq_of_left (hold.retry node hap) hnew)

theorem Midway.adopted {i : Nat} (h : Midway ino mode (a :: attempts) c owed) (hi : i ∈ owed)
    (hreach : a.Reaches i) :
    Clean ino mode (retryKey ino mode node (a :: attempts) c) := by
  obtain ⟨own, hm, hadopt, hheld⟩ := Owes.adopt_some
    (h.owes.congr fun _ hm => lockHeldBy_seen (h.apart_self (.inl hm))) hi hreach
    (List.Nodup.of_append_left h.nodup)
  rw [retryKey, attemptKey_adopted hadopt]
  refine ⟨?_, ?_⟩
  · intro h' hh'
    cases hh'
    exact hm
  · intro h' hh'
    simpa using hheld h' hh'

theorem Midway.answered (h : Midway ino mode (a :: attempts) c none)
    (happ : TakesEffect ino mode node a c) (hr : a.reply = .answered) :
    Clean ino mode (retryKey ino mode node (a :: attempts) c) := by
  obtain ⟨hout, hatt, hstore⟩ := attemptKey_applied (h.adopt_none (by simp)) happ
  rw [if_pos hr] at hout
  rw [retryKey_of_succeeded hout]
  refine ⟨?_, ?_⟩
  · intro h' hh'
    cases hh'
    rw [hatt]
    exact mem_concat_self
  · intro h' hm
    rw [hatt, mem_append, mem_singleton] at hm
    rw [hstore h' (h.apart_self (hm.imp_right .inl))]
    rcases hm with hm | rfl
    · simp [h.owes.not_held h' hm, h.holder_ne.1 h' hm, Ne.symm (h.holder_ne.1 h' hm)]
    · simp

end

theorem Midway.clean_iff {owed : Option Nat} (h : Midway ino mode attempts c owed) :
    Clean ino mode (retryKey ino mode node attempts c) ↔ Settles ino mode node attempts c owed := by
  induction attempts generalizing c owed with
  | nil => exact h.owes.clean_iff
  | cons a attempts ih =>
    rw [Settles]
    split_ifs with hreach happ
    · obtain ⟨i, hi, hreach⟩ := hreach
      exact iff_of_true (h.adopted hi hreach) trivial
    · cases owed with
      | some i => exact iff_of_false (h.not_clean hreach happ) (by simp)
      | none =>
        by_cases hr : a.reply = .answered
        · exact iff_of_true (h.answered happ hr) ⟨rfl, .inl hr⟩
        · have hout := (attemptKey_applied (h.adopt_none hreach) happ).1
          rw [if_neg hr] at hout
          rw [retryKey_of_failed hout, ih (h.applied happ)]
          simp [hr]
    · obtain ⟨hout, hnext⟩ := h.passed hreach happ
      rw [retryKey_of_failed hout, ih hnext]

theorem clean_acquireLockKey (ino : Nat) (mode : LockMode) (node : NodeID)
    (attempts : List KeyAttempt) (cleared : Bool) (s : TextStore) :
    Clean ino mode (acquireLockKey ino mode node attempts cleared s) ↔ Clean ino mode
        (retryKey ino mode node (attempts.take contendedAttempts) ⟨s, [], false⟩) := by
  have hstore : ∀ h, lockHeldBy (acquireLockKey ino mode node attempts cleared s).2.store
      ino mode h = lockHeldBy (retryKey ino mode node (attempts.take contendedAttempts)
        ⟨s, [], false⟩).2.store ino mode h := by
    intro h
    simp only [acquireLockKey]
    split
    · exact lockHeldBy_want rfl
    · rfl
  simp only [Clean, hstore]
  rfl

theorem LiveCall.midway {s : TextStore} (h : LiveCall ino mode attempts s) :
    Midway ino mode attempts ⟨s, [], false⟩ none where
  nodup := h.nodup
  fresh := h.fresh
  apart := by
    intro a ha own hm
    obtain ⟨b, hb, rfl⟩ := mem_map.mp hm
    exact h.apart a ha b hb
  owes := .nothing (by simp)

theorem LiveCall.take {s : TextStore} (h : LiveCall ino mode attempts s) (n : Nat) :
    LiveCall ino mode (attempts.take n) s where
  nodup := h.nodup.sublist ((take_sublist n attempts).map _)
  fresh := fun a ha => h.fresh a (mem_of_mem_take ha)
  apart := fun a ha b hb => h.apart a (mem_of_mem_take ha) b (mem_of_mem_take hb)

/-- Whatever others commit, whatever replies are lost and whatever reads fail, a call
leaves exactly the key of the token it returns if and only if every key that a lost
reply left is adopted by a later attempt of the call, before another attempt is applied. -/
theorem acquireLockKey_clean_iff {s : TextStore} (h : LiveCall ino mode attempts s)
    (node : NodeID) (cleared : Bool) :
    Clean ino mode (acquireLockKey ino mode node attempts cleared s) ↔
      Settles ino mode node (attempts.take contendedAttempts) ⟨s, [], false⟩ none := by
  rw [clean_acquireLockKey]
  exact (h.take contendedAttempts).midway.clean_iff

def undisturbed (holder : Holder) (reply : Reply) (reads : List Bool) : KeyAttempt where
  before := []
  reads := reads
  between := []
  holder := holder
  reply := reply
  wanted := true

theorem liveCall_undisturbed {s : TextStore} (tries : List (Holder × Reply × List Bool))
    (hn : (tries.map Prod.fst).Nodup) (hs : ∀ t ∈ tries, lockHeldBy s ino mode t.1 = false) :
    LiveCall ino mode (tries.map fun t => undisturbed t.1 t.2.1 t.2.2) s where
  nodup := by
    rw [List.map_map]
    exact hn
  fresh := by
    intro a ha
    obtain ⟨t, ht, rfl⟩ := List.mem_map.mp ha
    exact hs t ht
  apart := by
    intro a ha b _
    obtain ⟨t, -, rfl⟩ := List.mem_map.mp ha
    simp [Apart, undisturbed]

/-- The reply of the first attempt is lost, the reads of the second fail and its own key
blocks it, and the third adopts the key. -/
theorem acquireLockKey_clean_adopted :
    Clean 7 .exclusive (acquireLockKey 7 .exclusive "a"
      ([(⟨10, 1⟩, .lost, []), (⟨10, 2⟩, .answered, []), (⟨10, 3⟩, .unsent, [true])].map
        fun t => undisturbed t.1 t.2.1 t.2.2) true Store.empty) :=
  (acquireLockKey_clean_iff (liveCall_undisturbed _ (by decide) (by decide)) "a" true).mpr
    (by decide +kernel)

/-- An exclusive call whose only attempt is applied without a reply fails and leaves its
key. A shared call whose adoption read fails takes a second key and returns it alone. -/
theorem acquireLockKey_strands :
    let exclusive := [undisturbed ⟨10, 1⟩ .lost []]
    let shared := [undisturbed ⟨10, 1⟩ .lost [], undisturbed ⟨10, 2⟩ .answered [false]]
    (LiveCall 7 .exclusive exclusive Store.empty ∧
      (acquireLockKey 7 .exclusive "a" exclusive true Store.empty).1 = none ∧
      ¬ Clean 7 .exclusive (acquireLockKey 7 .exclusive "a" exclusive true Store.empty)) ∧
    LiveCall 7 .shared shared Store.empty ∧
      (acquireLockKey 7 .shared "a" shared true Store.empty).1 = some ⟨10, 2⟩ ∧
      ¬ Clean 7 .shared (acquireLockKey 7 .shared "a" shared true Store.empty) := by
  refine ⟨⟨?_, by decide +kernel, by decide +kernel⟩, ?_, by decide +kernel, by decide +kernel⟩
  · exact liveCall_undisturbed [(⟨10, 1⟩, .lost, [])] (by decide) (by decide)
  · exact liveCall_undisturbed
      [(⟨10, 1⟩, .lost, []), (⟨10, 2⟩, .answered, [false])] (by decide) (by decide)

end EtcFS.Correctness
