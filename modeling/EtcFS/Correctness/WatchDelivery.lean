import Mathlib.Data.Nat.Basic
import Mathlib.Order.Basic
import EtcFS.Ipc.Watch

/-!
# What a resumable watch delivers

No event is skipped unless a channel opened from the current revision ends unanswered, or one ends
whose header is ahead of an event.
-/

namespace EtcFS.Correctness

open EtcFS.Core Ipc List Option

def InOrder (s : PrefixWatch) : Prop := (delivered s.trace).Pairwise (· < ·)

def GapFor (trace : List WatchCall) (i : Nat) : Prop :=
  ∃ before after position, trace = before ++ .gap :: .opened position :: after ∧
    (∀ j ∈ delivered before, j < i) ∧ i < position

def NothingSkipped (s : PrefixWatch) : Prop :=
  ∀ position ∈ started s.trace, ∀ i rev, s.log[i]? = some rev → position ≤ i →
    ∀ j rev', s.log[j]? = some rev' → j ∈ delivered s.trace → rev ≤ rev' →
      i ∈ delivered s.trace ∨ GapFor s.trace i

def KeepsPlace (s : PrefixWatch) : PrefixWatchStep → Prop
  | .establish => s.resume = 0 → ∀ position ∈ s.trace.getLast?.bind WatchCall.openedFrom,
      position = s.log.length
  | .response events header => ∀ next ∈ s.channel, ∀ rev ∈ s.log.drop (next + events),
      header < rev
  | .commit _ | .close | .cancel _ => True

instance (s : PrefixWatch) : DecidablePred (KeepsPlace s)
  | .establish => inferInstanceAs (Decidable (s.resume = 0 → _))
  | .response _ _ => inferInstanceAs (Decidable (∀ next ∈ s.channel, _))
  | .commit _ | .close | .cancel _ => inferInstanceAs (Decidable True)

structure NotOpened (s : PrefixWatch) : Prop where
  recent : ∀ rev ∈ s.log, rev ≤ s.revision
  resume : s.resume = 0
  channel : s.channel = none
  trace : s.trace = []

/-! ## Order -/

def Forward (s : PrefixWatch) : Prop :=
  ∃ b ≤ s.log.length, (∀ j ∈ delivered s.trace, j < b) ∧ (∀ next ∈ s.channel, b ≤ next) ∧
    (0 < s.resume → ∀ rev ∈ s.log.take b, rev < s.resume)

theorem le_openedAt {s : PrefixWatch} {b : Nat} (hb : b ≤ s.log.length)
    (h : 0 < s.resume → ∀ rev ∈ s.log.take b, rev < s.resume) : b ≤ s.openedAt := by
  rw [PrefixWatch.openedAt]
  split
  · exact hb
  · next hne =>
    have htake : (s.log.take b).countP (fun rev => decide (rev < s.resume)) = b := by
      rw [countP_eq_length.mpr, length_take, Nat.min_eq_left hb]
      exact fun rev hrev => decide_eq_true (h (Nat.pos_of_ne_zero hne) rev hrev)
    calc b = (s.log.take b).countP (fun rev => decide (rev < s.resume)) := htake.symm
      _ ≤ s.log.countP (fun rev => decide (rev < s.resume)) :=
        (take_sublist b s.log).countP_le

theorem forward_step {s t : PrefixWatch} {step : PrefixWatchStep} (h : Forward s)
    (hstep : runWatch.step s step = some t) : Forward t := by
  obtain ⟨b, hb, hbelow, hnext, hresume⟩ := h
  cases step with
  | commit events =>
    cases hstep
    refine ⟨b, ?_, hbelow, hnext, fun hpos rev hrev => hresume hpos rev ?_⟩
    · rw [length_append]
      omega
    · rwa [take_append_of_le_length hb] at hrev
  | establish =>
    obtain ⟨-, rfl⟩ := ite_some_none_eq_some.mp hstep
    refine ⟨b, hb, ?_, ?_, hresume⟩
    · simpa using hbelow
    · intro next hn
      cases hn
      exact le_openedAt hb hresume
  | response events header =>
    obtain ⟨next, hn, hstep⟩ := bind_eq_some_iff.mp hstep
    obtain ⟨⟨hlen, -, hcarried⟩, rfl⟩ := ite_some_none_eq_some.mp hstep
    refine ⟨next + events, hlen, fun j hj => ?_, ?_, fun _ rev hrev => ?_⟩
    · rw [delivered_append, delivered_events, mem_append, mem_range'_1] at hj
      rcases hj with hj | hj
      · exact Nat.lt_of_lt_of_le (hbelow j hj) ((hnext next hn).trans (Nat.le_add_right ..))
      · exact hj.2
    · intro next' hn'
      cases hn'
      exact Nat.le_refl _
    · exact Nat.lt_succ_of_le (hcarried rev hrev)
  | close =>
    obtain ⟨next, -, rfl⟩ := map_eq_some_iff.mp hstep
    exact ⟨b, hb, hbelow, by simp, hresume⟩
  | cancel compacted =>
    obtain ⟨next, -, rfl⟩ := map_eq_some_iff.mp hstep
    cases compacted with
    | false => exact ⟨b, hb, hbelow, by simp, hresume⟩
    | true =>
      refine ⟨b, hb, ?_, by simp, fun hpos => absurd hpos (Nat.lt_irrefl 0)⟩
      simpa using hbelow

theorem inOrder_step {s t : PrefixWatch} {step : PrefixWatchStep} (h : Forward s) (hs : InOrder s)
    (hstep : runWatch.step s step = some t) : InOrder t := by
  obtain ⟨b, hb, hbelow, hnext, -⟩ := h
  cases step with
  | commit events =>
    cases hstep
    exact hs
  | establish =>
    obtain ⟨-, rfl⟩ := ite_some_none_eq_some.mp hstep
    simpa [InOrder] using hs
  | response events header =>
    obtain ⟨next, hn, hstep⟩ := bind_eq_some_iff.mp hstep
    obtain ⟨-, rfl⟩ := ite_some_none_eq_some.mp hstep
    rw [InOrder, delivered_append, delivered_events]
    refine pairwise_append.mpr ⟨hs, pairwise_lt_range', fun i hi j hj => ?_⟩
    exact Nat.lt_of_lt_of_le (hbelow i hi) ((hnext next hn).trans (mem_range'_1.mp hj).1)
  | close =>
    obtain ⟨next, -, rfl⟩ := map_eq_some_iff.mp hstep
    exact hs
  | cancel compacted =>
    obtain ⟨next, -, rfl⟩ := map_eq_some_iff.mp hstep
    cases compacted with
    | false => exact hs
    | true => simpa [InOrder] using hs

/-! ## Completeness -/

theorem GapFor.append {trace : List WatchCall} {i : Nat} (h : GapFor trace i)
    (more : List WatchCall) : GapFor (trace ++ more) i := by
  obtain ⟨before, after, position, rfl, hbefore, hi⟩ := h
  exact ⟨before, after ++ more, position, by simp, hbefore, hi⟩

structure UpTo (s : PrefixWatch) (b : Nat) : Prop where
  inside : b ≤ s.log.length
  below : ∀ j ∈ delivered s.trace, j < b
  all : ∀ position ∈ started s.trace, ∀ i, position ≤ i → i < b →
    i ∈ delivered s.trace ∨ GapFor s.trace i
  cut : ∀ i j rev rev', s.log[i]? = some rev → s.log[j]? = some rev' → b ≤ i → j < b → rev' < rev

structure Seated (s : PrefixWatch) (b : Nat) : Prop where
  recent : ∀ rev ∈ s.log, rev ≤ s.revision
  upTo : UpTo s b
  channel : ∀ next ∈ s.channel, next = b
  ahead : s.resume ≤ s.revision + 1
  resume : 0 < s.resume → ∀ i rev, s.log[i]? = some rev → (rev < s.resume ↔ i < b)
  fresh : s.resume = 0 → s.trace = [] ∨ s.trace.getLast? = some .gap ∨
    s.trace.getLast? = some (.opened b)

theorem UpTo.nothingSkipped {s : PrefixWatch} {b : Nat} (h : UpTo s b) : NothingSkipped s := by
  intro position hpos i rev hi hle j rev' hj hmem hrev
  refine h.all position hpos i hle ?_
  by_contra hge
  have := h.cut i j rev rev' hi hj (Nat.le_of_not_lt hge) (h.below j hmem)
  omega

theorem countP_eq_of_iff {log : List Nat} {resume b : Nat} (hb : b ≤ log.length)
    (h : ∀ i rev, log[i]? = some rev → (rev < resume ↔ i < b)) :
    log.countP (fun rev => decide (rev < resume)) = b := by
  have htake : ∀ rev ∈ log.take b, decide (rev < resume) = true := by
    intro rev hrev
    obtain ⟨i, hi⟩ := mem_iff_getElem?.mp hrev
    rw [getElem?_take] at hi
    obtain ⟨hlt, hi⟩ := ite_none_right_eq_some.mp hi
    exact decide_eq_true ((h i rev hi).mpr hlt)
  have hdrop : ∀ rev ∈ log.drop b, ¬ decide (rev < resume) = true := by
    intro rev hrev
    obtain ⟨i, hi⟩ := mem_iff_getElem?.mp hrev
    rw [getElem?_drop] at hi
    have := (h (b + i) rev hi).not.mpr (by omega)
    simpa using this
  calc log.countP (fun rev => decide (rev < resume))
      = (log.take b ++ log.drop b).countP (fun rev => decide (rev < resume)) := by
        rw [take_append_drop]
    _ = b := by
        rw [countP_append, countP_eq_length.mpr htake, countP_eq_zero.mpr hdrop,
          length_take, Nat.min_eq_left hb, Nat.add_zero]

namespace Seated

variable {s : PrefixWatch} {b : Nat}

theorem commit (h : Seated s b) (events : Nat) : Seated { s with
      revision := s.revision + 1
      log := s.log ++ replicate events (s.revision + 1) } b := by
  have hold : ∀ i rev, (s.log ++ replicate events (s.revision + 1))[i]? = some rev →
      i < s.log.length ∧ s.log[i]? = some rev ∨ s.log.length ≤ i ∧ rev = s.revision + 1 := by
    intro i rev hi
    by_cases hlt : i < s.log.length
    · rw [getElem?_append_left hlt] at hi
      exact .inl ⟨hlt, hi⟩
    · rw [getElem?_append_right (Nat.le_of_not_lt hlt)] at hi
      have hmem := mem_of_getElem? hi
      exact .inr ⟨Nat.le_of_not_lt hlt, eq_of_mem_replicate hmem⟩
  have hb := h.upTo.inside
  refine ⟨fun rev hrev => ?_, ⟨?_, h.upTo.below, h.upTo.all, ?_⟩, h.channel,
    h.ahead.trans (Nat.le_succ _), fun hpos i rev hi => ?_, h.fresh⟩
  · rcases mem_append.mp hrev with hrev | hrev
    · exact (h.recent rev hrev).trans (Nat.le_succ _)
    · exact (eq_of_mem_replicate hrev).le
  · rw [length_append]
    exact hb.trans (Nat.le_add_right ..)
  · intro i j rev rev' hi hj hbi hjb
    rcases hold j rev' hj with ⟨-, hj⟩ | ⟨hlen, -⟩
    · rcases hold i rev hi with ⟨-, hi⟩ | ⟨-, rfl⟩
      · exact h.upTo.cut i j rev rev' hi hj hbi hjb
      · exact Nat.lt_succ_of_le (h.recent rev' (mem_of_getElem? hj))
    · omega
  · rcases hold i rev hi with ⟨-, hi⟩ | ⟨hlen, rfl⟩
    · exact h.resume hpos i rev hi
    · have hahead : s.resume ≤ s.revision + 1 := h.ahead
      exact iff_of_false (Nat.not_lt.mpr hahead) (Nat.not_lt.mpr (hb.trans hlen))

theorem opened (h : Seated s b) {b' : Nat} (hle : b ≤ b') (hinside : b' ≤ s.log.length)
    (hgap : b < b' → s.trace = [] ∨ ∃ before, s.trace = before ++ [.gap])
    (hcut : b < b' → b' = s.log.length) (hresume : 0 < s.resume → b' = b) :
    Seated { s with channel := some b', trace := s.trace ++ [.opened b'] } b' := by
  have hdel : delivered (s.trace ++ [.opened b']) = delivered s.trace := by simp
  refine ⟨h.recent, ⟨hinside, fun j hj => ?_, fun position hpos i hpi hi => ?_,
    fun i j rev rev' hi hj hbi hjb => ?_⟩, ?_, h.ahead, fun hpos => ?_, fun _ => ?_⟩
  · rw [hdel] at hj
    exact Nat.lt_of_lt_of_le (h.upTo.below j hj) hle
  · rw [hdel]
    rw [started_append, started_opened, mem_def, or_eq_some_iff] at hpos
    rcases hpos with hpos | ⟨-, hpos⟩
    · by_cases hib : i < b
      · exact (h.upTo.all position hpos i hpi hib).imp_right fun hg => hg.append _
      · -- the events in between are those the gap was called for
        rcases hgap (by omega) with hnil | ⟨before, hbefore⟩
        · rw [hnil] at hpos
          cases hpos
        · refine .inr ⟨before, [], b', by simp [hbefore], fun j hj => ?_, hi⟩
          have hjb := h.upTo.below j (by simpa [hbefore] using hj)
          omega
    · have : b' = position := Option.some.inj hpos
      omega
  · rcases Nat.lt_or_eq_of_le hle with hlt | rfl
    · have hi' : i < s.log.length := (List.getElem?_eq_some_iff.mp hi).1
      rw [hcut hlt] at hbi
      exact absurd hi' (Nat.not_lt.mpr hbi)
    · exact h.upTo.cut i j rev rev' hi hj hbi hjb
  · intro next hn
    exact (Option.some.inj hn).symm
  · rw [hresume hpos]
    exact h.resume hpos
  · exact .inr (.inr (by simp))

theorem establish (h : Seated s b) (hk : KeepsPlace s .establish) : Seated { s with
      channel := some s.openedAt, trace := s.trace ++ [.opened s.openedAt] } s.openedAt := by
  by_cases hzero : s.resume = 0
  · have hat : s.openedAt = s.log.length := if_pos hzero
    rw [hat]
    refine h.opened h.upTo.inside (Nat.le_refl _) (fun hlt => ?_) (fun _ => rfl) (fun hpos => ?_)
    · rcases h.fresh hzero with hnil | hgap | hopened
      · exact .inl hnil
      · exact .inr (getLast?_eq_some_iff.mp hgap)
      · have := hk hzero b (by simp [hopened, WatchCall.openedFrom])
        omega
    · omega
  · have hat : s.openedAt = b := by
      rw [PrefixWatch.openedAt, if_neg hzero]
      exact countP_eq_of_iff h.upTo.inside (h.resume (Nat.pos_of_ne_zero hzero))
    rw [hat]
    exact h.opened (Nat.le_refl _) h.upTo.inside (fun hlt => absurd hlt (Nat.lt_irrefl _))
      (fun hlt => absurd hlt (Nat.lt_irrefl _)) (fun _ => rfl)

theorem response (h : Seated s b) {events header : Nat} (hcarries : s.Carries b events header)
    (hk : ∀ rev ∈ s.log.drop (b + events), header < rev) :
    Seated { s with
      resume := header + 1
      channel := some (b + events)
      trace := s.trace ++ (range' b events).map .event } (b + events) := by
  obtain ⟨hlen, hheader, htaken⟩ := hcarries
  have hiff : ∀ i rev, s.log[i]? = some rev → (rev < header + 1 ↔ i < b + events) := by
    intro i rev hi
    constructor
    · intro hrev
      by_contra hge
      have hmem : rev ∈ s.log.drop (b + events) := by
        refine mem_iff_getElem?.mpr ⟨i - (b + events), ?_⟩
        rw [getElem?_drop, Nat.add_sub_cancel' (Nat.le_of_not_lt hge), hi]
      have := hk rev hmem
      omega
    · intro hlt
      refine Nat.lt_succ_of_le (htaken rev (mem_iff_getElem?.mpr ⟨i, ?_⟩))
      rw [getElem?_take, if_pos hlt, hi]
  refine ⟨h.recent, ⟨hlen, fun j hj => ?_, fun position hpos i hpi hi => ?_,
    fun i j rev rev' hi hj hbi hjb => ?_⟩, ?_, Nat.succ_le_succ hheader, fun _ => hiff, ?_⟩
  · rw [delivered_append, delivered_events, mem_append, mem_range'_1] at hj
    rcases hj with hj | hj
    · exact Nat.lt_of_lt_of_le (h.upTo.below j hj) (Nat.le_add_right ..)
    · exact hj.2
  · rw [started_append, started_events, or_none] at hpos
    rw [delivered_append, delivered_events, mem_append, mem_range'_1]
    by_cases hib : i < b
    · exact (h.upTo.all position hpos i hpi hib).imp .inl fun hg => hg.append _
    · exact .inl (.inr ⟨Nat.le_of_not_lt hib, hi⟩)
  · have hrev := (hiff i rev hi).not.mpr (Nat.not_lt.mpr hbi)
    have hrev' := (hiff j rev' hj).mpr hjb
    omega
  · intro next hn
    exact (some.inj hn).symm
  · exact fun hzero => absurd hzero (Nat.succ_ne_zero header)

theorem close (h : Seated s b) : Seated { s with channel := none } b :=
  ⟨h.recent, ⟨h.upTo.inside, h.upTo.below, h.upTo.all, h.upTo.cut⟩, by simp, h.ahead, h.resume,
    h.fresh⟩

theorem compacted (h : Seated s b) :
    Seated { s with channel := none, resume := 0, trace := s.trace ++ [.gap] } b := by
  refine ⟨h.recent, ⟨h.upTo.inside, ?_, fun position hpos i hpi hi => ?_, h.upTo.cut⟩, by simp,
    Nat.zero_le _, fun hpos => absurd hpos (Nat.lt_irrefl 0), fun _ => .inr (.inl (by simp))⟩
  · simpa using h.upTo.below
  · rw [started_append, started_gap, or_none] at hpos
    have hold := h.upTo.all position hpos i hpi hi
    rw [delivered_append, delivered_gap, append_nil]
    exact hold.imp_right fun hg => hg.append _

theorem step (h : Seated s b) {step : PrefixWatchStep} {t : PrefixWatch} (hk : KeepsPlace s step)
    (hstep : runWatch.step s step = some t) : ∃ b', Seated t b' := by
  cases step with
  | commit events =>
    cases hstep
    exact ⟨b, h.commit events⟩
  | establish =>
    obtain ⟨-, rfl⟩ := ite_some_none_eq_some.mp hstep
    exact ⟨_, h.establish hk⟩
  | response events header =>
    obtain ⟨next, hn, hstep⟩ := bind_eq_some_iff.mp hstep
    obtain ⟨hcarries, rfl⟩ := ite_some_none_eq_some.mp hstep
    have hrest := hk next hn
    obtain rfl := h.channel next hn
    exact ⟨_, h.response hcarries hrest⟩
  | close =>
    obtain ⟨next, -, rfl⟩ := map_eq_some_iff.mp hstep
    exact ⟨b, h.close⟩
  | cancel compacted =>
    obtain ⟨next, -, rfl⟩ := map_eq_some_iff.mp hstep
    cases compacted with
    | false => exact ⟨b, h.close⟩
    | true => exact ⟨b, h.compacted⟩

end Seated

/-- From a watch that has not been opened, events are passed on in order and at most once
in every run, and nothing is skipped in the runs that keep their place. -/
theorem runWatch_delivers {s : PrefixWatch} (h : NotOpened s) (steps : List PrefixWatchStep) :
    runWatch.Along (fun _ _ t => InOrder t) s steps ∧
      (runWatch.Along (fun s step _ => KeepsPlace s step) s steps →
        runWatch.Along (fun _ _ t => NothingSkipped t) s steps) := by
  constructor
  · have hinv : Forward s ∧ InOrder s := by
      refine ⟨⟨0, Nat.zero_le _, ?_, by simp [h.channel], by simp⟩, ?_⟩
      · simp [h.trace, delivered]
      · rw [InOrder, h.trace]
        exact List.Pairwise.nil
    refine Machine.Along.of_invariant (I := fun s => Forward s ∧ InOrder s) ?_ hinv
      (Machine.along_true s steps)
    intro s step t hs _ hstep
    have ht := inOrder_step hs.1 hs.2 hstep
    exact ⟨⟨forward_step hs.1 hstep, ht⟩, ht⟩
  · intro hk
    have hinv : ∃ b, Seated s b := by
      refine ⟨0, h.recent, ⟨Nat.zero_le _, ?_, ?_, ?_⟩, by simp [h.channel], ?_, ?_, ?_⟩
      · simp [h.trace, delivered]
      · simp [h.trace, started]
      · intro i j rev rev' _ _ _ hj
        cases hj
      · rw [h.resume]
        exact Nat.zero_le _
      · rw [h.resume]
        exact fun hpos => absurd hpos (Nat.lt_irrefl 0)
      · exact fun _ => .inl h.trace
    refine Machine.Along.of_invariant (I := fun s => ∃ b, Seated s b) ?_ hinv hk
    rintro s step t ⟨b, hb⟩ hc hstep
    obtain ⟨b', hb'⟩ := hb.step hc hstep
    exact ⟨⟨b', hb'⟩, hb'.upTo.nothingSkipped⟩

def emptyStore : PrefixWatch := ⟨0, [], 0, none, []⟩

theorem emptyStore_notOpened : NotOpened emptyStore := ⟨by simp [emptyStore], rfl, rfl, rfl⟩

def resumedRun : List PrefixWatchStep :=
  [.commit 1, .establish, .commit 2, .response 2 2, .close, .commit 1, .establish, .response 1 3,
    .commit 1, .cancel true, .commit 1, .establish, .close, .establish, .commit 1, .response 1 6]

/-- The events of the second, third and sixth transaction are passed on, and the gap
callback is called for those of the fourth and the fifth. -/
theorem resumedRun_delivers :
    ((runWatch.exec emptyStore resumedRun).any fun t =>
        decide (delivered t.trace = [1, 2, 3, 6])) = true ∧
      runWatch.Along (fun _ _ t => InOrder t) emptyStore resumedRun ∧
      runWatch.Along (fun _ _ t => NothingSkipped t) emptyStore resumedRun :=
  ⟨by decide +kernel, (runWatch_delivers emptyStore_notOpened resumedRun).1,
    (runWatch_delivers emptyStore_notOpened resumedRun).2 (by decide +kernel)⟩

def closedUnanswered : List PrefixWatchStep :=
  [.establish, .commit 1, .close, .establish, .commit 1, .response 1 2]

/-- The second event is passed on, the first is not, and the gap callback is not called. -/
theorem closedUnanswered_skips :
    ∃ t, runWatch.exec emptyStore closedUnanswered = some t ∧
      t.trace = [.opened 0, .opened 1, .event 1] ∧ t.log = [1, 2] ∧ ¬ NothingSkipped t := by
  have hrun : ((runWatch.exec emptyStore closedUnanswered).any fun t =>
      decide (t.trace = [.opened 0, .opened 1, .event 1]) && decide (t.log = [1, 2])) = true := by
    decide +kernel
  obtain ⟨t, ht, h⟩ := (Option.any_eq_true ..).mp hrun
  simp only [Bool.and_eq_true, decide_eq_true_eq] at h
  obtain ⟨htrace, hlog⟩ := h
  refine ⟨t, ht, htrace, hlog, fun hskip => ?_⟩
  have hfirst := hskip 0 (by rw [htrace]; rfl) 0 1 (by rw [hlog]; rfl) (Nat.le_refl 0) 1 2
    (by rw [hlog]; rfl) (by rw [htrace]; decide) (by decide)
  rw [htrace] at hfirst
  rcases hfirst with hmem | ⟨before, after, position, he, -⟩
  · revert hmem
    decide
  · have hgap : WatchCall.gap ∈ [WatchCall.opened 0, .opened 1, .event 1] := by
      rw [he]
      simp
    revert hgap
    decide

end EtcFS.Correctness
