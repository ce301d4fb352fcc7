import EtcFS.Ipc.LockTable

/-!
# Entries that the map no longer returns

The eviction sweep deletes an entry after letting its local lock go, and the create path seeds a key
under the entry's mutex only.
-/

namespace EtcFS.Correctness

open EtcFS.Core Metadata Ipc Option List

def Live (x : LockEntry) : Prop := x.holder ≠ none ∨ x.pending ≠ []
  deriving Decidable

def Findable (s : LockTable) : Prop := ∀ e, Live (s.entries e) → s.current = some e

def Yielding (s : LockTable) (e : Nat) : Prop :=
  ∃ t ∈ (s.entries e).writer.bind LockAgent.asThread, s.threads t = .forgetting e
  deriving Decidable

def OutsideHandover (s : LockTable) : TableAct → Prop
  | .thread t a => ∀ e ∈ (s.threads t).awaits,
    (a = .check → s.current = some e → s.sweep.released = false) ∧
      (a = .seed → (s.entries e).holder = none →
        s.current = some e ∧ s.sweep.released = false ∧ ¬Yielding s e)
  | .enter _ | .forget _ | .sweep _ | .sessionEnds | .dropForLease _ _ => True

instance (s : LockTable) : (act : TableAct) → Decidable (OutsideHandover s act)
  | .thread _ _ => inferInstanceAs (Decidable (∀ e ∈ _, (_ → _) ∧ (_ → _)))
  | .enter _ | .forget _ | .sweep _ | .sessionEnds | .dropForLease _ _ => .isTrue trivial

/-! ## What a section does to an entry -/

section

variable {log : List Publication} {x : LockEntry} {a : EntryAct}

def takes : EntryAct → Bool
  | .ensure _ _ _ _ | .join _ _ | .seed _ => true
  | _ => false

structure Modest (x y : LockEntry) (taken : Bool) : Prop where
  writer : y.writer = x.writer
  readers : y.readers = x.readers
  live : Live y → Live x ∨ taken = true

theorem not_live_forgetKey (x : LockEntry) : ¬Live x.forgetKey := by
  rintro (h | h) <;> exact h rfl

theorem flush_modest (log : List Publication) (x : LockEntry) (r : FlushReply) :
    Modest x (x.flush log r).entry false := by
  have hend := flush_shape log x r
  generalize x.flush log r = y at hend ⊢
  cases hend with
  | empty | kept | unheard => exact ⟨rfl, rfl, .inl⟩
  | unkeyed hheld => exact ⟨rfl, rfl, fun h => h.elim (absurd hheld) (absurd rfl)⟩
  | committed | adopted => exact ⟨rfl, rfl, fun h => .inl (.inl (h.resolve_right (absurd rfl)))⟩
  | fenced => exact ⟨rfl, rfl, fun h => .inl (.inl (h.resolve_right (absurd rfl)))⟩
  | gone => exact ⟨rfl, rfl, fun h => absurd h (not_live_forgetKey x)⟩

theorem run_modest {a : EntryAct} (h : a.onLocalLock = false) :
    Modest x (x.run log a).entry (takes a) := by
  cases a with
  | lock | unlock => cases h
  | ensure mode session invalidated reply =>
    have hend := ensure_shape log x mode session invalidated reply
    generalize x.run log _ = y at hend ⊢
    cases hend with
    | same | given | replaced | taken => exact ⟨rfl, rfl, fun _ => .inr rfl⟩
  | setMeta under => exact ⟨rfl, rfl, .inl⟩
  | join id under => exact ⟨rfl, rfl, fun _ => .inr rfl⟩
  | flush r => exact flush_modest log x r
  | drop r invalidated =>
    have hflush := flush_modest log x r
    unfold LockEntry.run LockEntry.drop
    dsimp only
    split
    · exact hflush
    · exact ⟨hflush.writer, hflush.readers, fun h => absurd h (not_live_forgetKey _)⟩
  | dropForLease lease =>
    unfold LockEntry.run
    dsimp only
    split
    · exact ⟨rfl, rfl, fun h => absurd h (not_live_forgetKey x)⟩
    · exact ⟨rfl, rfl, .inl⟩
  | seed h =>
    unfold LockEntry.run LockEntry.seed
    dsimp only
    split <;> exact ⟨rfl, rfl, fun _ => .inr rfl⟩
  | commit id under r => cases r <;> exact ⟨rfl, rfl, .inl⟩

theorem drop_not_live {r : FlushReply} {invalidated : Bool}
    (h : (x.run log (.drop r invalidated)).ok = true) :
    ¬Live (x.run log (.drop r invalidated)).entry := by
  unfold LockEntry.run LockEntry.drop at h ⊢
  dsimp only at h ⊢
  split at h
  · cases h
  · rename_i hdrop
    rw [if_neg hdrop]
    exact not_live_forgetKey _

end

/-! ## The local locks -/

def owns (s : LockTable) : LockAgent → Option (Nat × LockMode)
  | .thread t => (s.threads t).holds
  | .sweep => s.sweep.victim.map (·, .exclusive)

theorem owns_congr {s s' : LockTable} (hthreads : s'.threads = s.threads)
    (hvictim : s'.sweep.victim = s.sweep.victim) (a : LockAgent) : owns s' a = owns s a := by
  cases a with
  | thread t => rw [owns, owns, hthreads]
  | sweep => rw [owns, owns, hvictim]

theorem owns_of_ne_sweep {s s' : LockTable} (hthreads : s'.threads = s.threads) (a : LockAgent)
    (ha : a ≠ .sweep) : owns s' a = owns s a := by
  cases a with
  | thread t => rw [owns, owns, hthreads]
  | sweep => exact absurd rfl ha

theorem owns_sweep {s : LockTable} {e : Nat} (h : s.sweep.victim = some e) :
    owns s .sweep = some (e, .exclusive) := by
  rw [owns, h]
  rfl

structure Guarded (entries : Nat → LockEntry) (own : LockAgent → Option (Nat × LockMode)) :
    Prop where
  writer : ∀ a e, own a = some (e, .exclusive) → (entries e).writer = some a
  reader : ∀ a e, own a = some (e, .shared) → a ∈ (entries e).readers
  apart : ∀ e, (entries e).writer ≠ none → (entries e).readers = []

namespace Guarded

variable {entries entries' : Nat → LockEntry} {own own' : LockAgent → Option (Nat × LockMode)}
  {a : LockAgent} {e : Nat} {mode : LockMode}

theorem alone (h : Guarded entries own) (ha : own a = some (e, .exclusive)) {b : LockAgent}
    (hb : own b = some (e, mode)) : b = a := by
  have hwriter := h.writer a e ha
  cases mode with
  | exclusive => exact some.inj ((h.writer b e hb).symm.trans hwriter)
  | shared =>
    have hreader := h.reader b e hb
    rw [h.apart e (by rw [hwriter]; exact some_ne_none a)] at hreader
    cases hreader

theorem congr (h : Guarded entries own) (hown : ∀ a, own' a = own a)
    (hentries : ∀ e, (entries' e).writer = (entries e).writer ∧
      (entries' e).readers = (entries e).readers) : Guarded entries' own' := by
  refine ⟨fun a e ha => ?_, fun a e ha => ?_, fun e he => ?_⟩
  · rw [(hentries e).1]
    exact h.writer a e (hown a ▸ ha)
  · rw [(hentries e).2]
    exact h.reader a e (hown a ▸ ha)
  · rw [(hentries e).1] at he
    rw [(hentries e).2]
    exact h.apart e he

theorem lock (h : Guarded entries own) (hfree : (entries e).free mode = true)
    (hself : entries' e = (entries e).lockLocal a mode)
    (hother : ∀ e', e' ≠ e → entries' e' = entries e') (ha : own' a = some (e, mode))
    (hown : ∀ b, b ≠ a → own' b = own b) : Guarded entries' own' := by
  have hnone : (entries e).writer = none := by
    cases mode with
    | exclusive => exact of_decide_eq_true (Bool.and_eq_true _ _ ▸ hfree).1
    | shared => exact of_decide_eq_true hfree
  constructor
  · intro b e' hb
    by_cases hba : b = a
    · subst hba
      obtain ⟨rfl, rfl⟩ := Prod.mk.inj (some.inj (ha.symm.trans hb))
      rw [hself]
      rfl
    · have hwriter := h.writer b e' (hown b hba ▸ hb)
      have he : e' ≠ e := by
        rintro rfl
        rw [hnone] at hwriter
        cases hwriter
      rw [hother e' he]
      exact hwriter
  · intro b e' hb
    by_cases he : e' = e
    · subst he
      rw [hself]
      by_cases hba : b = a
      · subst hba
        obtain ⟨-, rfl⟩ := Prod.mk.inj (some.inj (ha.symm.trans hb))
        exact mem_cons_self
      · have hreader := h.reader b e' (hown b hba ▸ hb)
        cases mode with
        | exclusive => exact hreader
        | shared => exact mem_cons_of_mem _ hreader
    · rw [hother e' he]
      by_cases hba : b = a
      · subst hba
        exact absurd (Prod.mk.inj (some.inj (ha.symm.trans hb))).1.symm he
      · exact h.reader b e' (hown b hba ▸ hb)
  · intro e' he'
    by_cases he : e' = e
    · subst he
      rw [hself] at he' ⊢
      cases mode with
      | exclusive => exact of_decide_eq_true (Bool.and_eq_true _ _ ▸ hfree).2
      | shared => exact absurd hnone he'
    · rw [hother e' he] at he' ⊢
      exact h.apart e' he'

theorem unlock (h : Guarded entries own) (ha : own a = some (e, mode))
    (hself : (entries' e).writer = ((entries e).unlockLocal a mode).writer ∧
      (entries' e).readers = ((entries e).unlockLocal a mode).readers)
    (hother : ∀ e', e' ≠ e → entries' e' = entries e') (hnone : own' a = none)
    (hown : ∀ b, b ≠ a → own' b = own b) : Guarded entries' own' := by
  have hne : ∀ b e' mode', own' b = some (e', mode') → b ≠ a := by
    rintro b e' mode' hb rfl
    rw [hnone] at hb
    cases hb
  constructor
  · intro b e' hb
    have hba := hne b e' _ hb
    rw [hown b hba] at hb
    by_cases he : e' = e
    · subst he
      cases mode with
      | exclusive => exact absurd (h.alone ha hb) hba
      | shared =>
        rw [hself.1]
        exact h.writer b e' hb
    · rw [hother e' he]
      exact h.writer b e' hb
  · intro b e' hb
    have hba := hne b e' _ hb
    rw [hown b hba] at hb
    by_cases he : e' = e
    · subst he
      rw [hself.2]
      cases mode with
      | exclusive => exact h.reader b e' hb
      | shared => exact (mem_erase_of_ne hba).mpr (h.reader b e' hb)
    · rw [hother e' he]
      exact h.reader b e' hb
  · intro e' he'
    by_cases he : e' = e
    · subst he
      rw [hself.1] at he'
      rw [hself.2]
      cases mode with
      | exclusive => exact absurd rfl he'
      | shared =>
        rw [LockEntry.unlockLocal, h.apart e' he']
        rfl
    · rw [hother e' he] at he' ⊢
      exact h.apart e' he'

end Guarded

/-! ## The invariant -/

structure Tracked (s : LockTable) : Prop where
  guarded : Guarded s.entries (owns s)
  victim : ∀ e, s.sweep.victim = some e → s.current = some e
  inside : ∀ t e, (s.threads t).inside = some e → s.current = some e ∧ s.sweep.released = false
  live : ∀ e, Live (s.entries e) →
    s.current = some e ∧ s.sweep.released = false ∧ ∀ t, s.threads t ≠ .forgetting e

theorem live_of_onLocalLock {s : LockTable} {a : EntryAct} {e e' : Nat}
    (ha : a.onLocalLock = true) (h : Live ((s.run e a).entries e')) : Live (s.entries e') := by
  by_cases he : e' = e
  · subst he
    rw [LockTable.run_entries_self] at h
    cases a with
    | lock b mode => cases mode <;> exact h
    | unlock b mode dropMeta => cases mode <;> exact h
    | _ => cases ha
  · rw [LockTable.run_entries_of_ne he] at h
    exact h

theorem holds_of_inside {p : ThreadPc} {e : Nat} (h : p.inside = some e) :
    ∃ mode, p.holds = some (e, mode) := by
  cases p with
  | rest | asking | located | locked | forgetting | unlocking => cases h
  | _ =>
    cases h
    exact ⟨_, rfl⟩

namespace Tracked

variable {s : LockTable} {t e : Nat}

theorem run (hs : Tracked s) {a : EntryAct} (ha : a.onLocalLock = false)
    (htakes : takes a = true → s.current = some e ∧ s.sweep.released = false ∧
      ∀ t, s.threads t ≠ .forgetting e) : Tracked (s.run e a) := by
  have hmodest : Modest (s.entries e) (s.result e a).entry (takes a) := run_modest ha
  refine ⟨hs.guarded.congr (fun _ => rfl) fun e' => ?_, hs.victim, hs.inside, fun e' h => ?_⟩
  · by_cases he : e' = e
    · subst he
      rw [LockTable.run_entries_self]
      exact ⟨hmodest.writer, hmodest.readers⟩
    · rw [LockTable.run_entries_of_ne he]
      exact ⟨rfl, rfl⟩
  · by_cases he : e' = e
    · subst he
      rw [LockTable.run_entries_self] at h
      exact (hmodest.live h).elim (hs.live e') htakes
    · rw [LockTable.run_entries_of_ne he] at h
      exact hs.live e' h

theorem goto_of_guarded (hs : Tracked s) {s' : LockTable} {q : ThreadPc}
    (hguarded : Guarded s'.entries (owns (s'.goto t q)))
    (hcurrent : s'.current = s.current) (hsweep : s'.sweep = s.sweep)
    (hthreads : s'.threads = s.threads) (hlive : ∀ e, Live (s'.entries e) → Live (s.entries e))
    (hinside : ∀ e, q.inside = some e → s.current = some e ∧ s.sweep.released = false)
    (hforget : ∀ e, q = .forgetting e → ¬Live (s.entries e)) : Tracked (s'.goto t q) := by
  refine ⟨hguarded, fun e h => ?_, fun t' e h => ?_, fun e h => ?_⟩
  · rw [show (s'.goto t q).current = s'.current from rfl, hcurrent]
    rw [show (s'.goto t q).sweep = s'.sweep from rfl, hsweep] at h
    exact hs.victim e h
  · rw [show (s'.goto t q).current = s'.current from rfl, hcurrent,
      show (s'.goto t q).sweep = s'.sweep from rfl, hsweep]
    by_cases ht : t' = t
    · subst ht
      rw [LockTable.goto_threads_self] at h
      exact hinside e h
    · rw [LockTable.goto_threads_of_ne ht, hthreads] at h
      exact hs.inside t' e h
  · have hold := hlive e h
    obtain ⟨hc, hreleased, hforgetting⟩ := hs.live e hold
    refine ⟨hcurrent.trans hc, (congrArg Sweep.released hsweep).trans hreleased, fun t' => ?_⟩
    by_cases ht : t' = t
    · subst ht
      rw [LockTable.goto_threads_self]
      exact fun hq => hforget e hq hold
    · rw [LockTable.goto_threads_of_ne ht, hthreads]
      exact hforgetting t'

theorem owns_goto_of_ne {a : LockAgent} (ha : a ≠ .thread t) (s : LockTable) (q : ThreadPc) :
    owns (s.goto t q) a = owns s a := by
  cases a with
  | sweep => rfl
  | thread t' =>
    have ht : t' ≠ t := fun h => ha (congrArg _ h)
    rw [owns, LockTable.goto_threads_of_ne ht]
    rfl

theorem owns_goto_self (s : LockTable) (t : Nat) (q : ThreadPc) :
    owns (s.goto t q) (.thread t) = q.holds := by
  rw [owns, LockTable.goto_threads_self]

theorem goto (hs : Tracked s) {q : ThreadPc} (hholds : q.holds = (s.threads t).holds)
    (hinside : ∀ e, q.inside = some e → s.current = some e ∧ s.sweep.released = false)
    (hforget : ∀ e, q = .forgetting e → ¬Live (s.entries e)) : Tracked (s.goto t q) := by
  refine hs.goto_of_guarded (hs.guarded.congr (fun a => ?_) fun _ => ⟨rfl, rfl⟩) rfl rfl rfl
    (fun _ => id) hinside hforget
  by_cases ha : a = .thread t
  · subst ha
    rw [owns_goto_self, hholds]
    rfl
  · exact owns_goto_of_ne ha s q

theorem rest (hs : Tracked s) {r : Rest} (hholds : (s.threads t).holds = none) :
    Tracked (s.goto t (.rest r)) :=
  hs.goto hholds.symm (fun _ h => by cases h) fun _ h => by cases h

theorem sameHold (hs : Tracked s) {p q : ThreadPc} (hp : s.threads t = p) (hq : SameHold p q) :
    Tracked (s.goto t q) := by
  subst hp
  refine hs.goto hq.holds (fun e he => ?_) fun e he => absurd he (hq.forgetting e)
  rcases hq.inside with hnone | hsame
  · rw [hnone] at he
    cases he
  · exact hs.inside t e (hsame ▸ he)

theorem lock (hs : Tracked s) {mode : LockMode} {q : ThreadPc}
    (hfree : (s.entries e).free mode = true) (hholds : q.holds = some (e, mode))
    (hinside : q.inside = none) (hforget : ∀ e, q ≠ .forgetting e) :
    Tracked ((s.run e (.lock (.thread t) mode)).goto t q) := by
  have hself := LockTable.run_entries_self s e (.lock (.thread t) mode)
  refine hs.goto_of_guarded ?_ rfl rfl rfl (fun _ => live_of_onLocalLock rfl) ?_
    fun e he => absurd he (hforget e)
  · refine hs.guarded.lock hfree hself (fun e' he => LockTable.run_entries_of_ne he s _) ?_ ?_
    · rw [owns_goto_self, hholds]
    · exact fun b hb => owns_goto_of_ne hb _ q
  · intro e' he
    rw [hinside] at he
    cases he

theorem unlock (hs : Tracked s) {mode : LockMode} {dropMeta : Bool} {r : Rest}
    (hholds : (s.threads t).holds = some (e, mode)) :
    Tracked ((s.run e (.unlock (.thread t) mode dropMeta)).goto t (.rest r)) := by
  have hself := LockTable.run_entries_self s e (.unlock (.thread t) mode dropMeta)
  refine hs.goto_of_guarded ?_ rfl rfl rfl (fun _ => live_of_onLocalLock rfl)
    (fun _ h => by cases h) fun _ h => by cases h
  refine hs.guarded.unlock (a := .thread t) hholds ?_
    (fun e' he => LockTable.run_entries_of_ne he s _) ?_ ?_
  · rw [hself]
    exact ⟨rfl, rfl⟩
  · rw [owns_goto_self]
    rfl
  · exact fun b hb => owns_goto_of_ne hb _ _

theorem not_forgetting (hs : Tracked s) (ht : (s.threads t).inside = some e) (t' : Nat) :
    s.threads t' ≠ .forgetting e := by
  intro hforget
  obtain ⟨mode, hholds⟩ := holds_of_inside ht
  have howns : owns s (.thread t') = some (e, .exclusive) := by rw [owns, hforget]; rfl
  obtain rfl := LockAgent.thread.inj (hs.guarded.alone howns (b := .thread t) hholds)
  rw [hforget] at ht
  cases ht

theorem seeds (hs : Tracked s) (hc : (s.entries e).holder = none →
      s.current = some e ∧ s.sweep.released = false ∧ ¬Yielding s e) :
    s.current = some e ∧ s.sweep.released = false ∧ ∀ t, s.threads t ≠ .forgetting e := by
  by_cases hheld : (s.entries e).holder = none
  · obtain ⟨hcurrent, hreleased, hyield⟩ := hc hheld
    refine ⟨hcurrent, hreleased, fun t ht => hyield ⟨t, ?_, ht⟩⟩
    have hwriter := hs.guarded.writer (.thread t) e (by rw [owns, ht]; rfl)
    rw [hwriter]
    rfl
  · exact hs.live e (.inl hheld)

theorem perform (hs : Tracked s) {a : ThreadAct} (hc : OutsideHandover s (.thread t a))
    {plan : ThreadPlan} (hplan : s.plan t (s.threads t) a = some plan) :
    Tracked (s.perform t plan) := by
  have hshape := plan_shape hplan
  generalize hp : s.threads t = p at hshape
  cases hshape with
  | goOn hq => exact hs.sameHold hp hq
  | fsync hidle => exact hs.rest (by rw [hp, hidle]; rfl)
  | lookup hreceived =>
    have hholds : (s.threads t).holds = none := by rw [hp, hreceived]; rfl
    cases hcurrent : s.current with
    | none =>
      rw [elim_none]
      exact hs.rest hholds
    | some e =>
      rw [elim_some]
      exact hs.goto hholds.symm (fun _ h => by cases h) fun _ h => by cases h
  | ask hasking => exact hs.rest (by rw [hp, hasking]; rfl)
  | check hlocked ha =>
    subst ha
    have hholds := congrArg ThreadPc.holds (hp.trans hlocked)
    refine hs.goto ?_ (fun e' he => ?_) fun e' he => ?_
    · rw [hholds]
      split <;> rfl
    · split at he
      case isTrue hcurrent =>
        cases he
        exact ⟨hcurrent, (hc _ (by rw [hp, hlocked]; rfl)).1 rfl hcurrent⟩
      case isFalse => cases he
    · split at he <;> cases he
  | lock hlocated hfree => exact hs.lock hfree rfl rfl fun _ => ThreadPc.noConfusion
  | unlock hunlocking => exact hs.unlock (by rw [hp, hunlocking]; rfl)
  | seed hlocated ha =>
    subst ha
    refine (hs.run rfl fun _ => hs.seeds ((hc _ (by rw [hp, hlocated]; rfl)).2 rfl)).rest ?_
    rw [show (s.run _ _).threads t = s.threads t from rfl, hp, hlocated]
    rfl
  | @drop quiet e r invalidated hlocked =>
    refine (hs.run (e := e) rfl (fun h => by cases h)).goto ?_ ?_ ?_
    · rw [show (s.run _ _).threads t = s.threads t from rfl, hp, hlocked]
      dsimp only
      split <;> rfl
    · intro e' he
      dsimp only at he
      split at he <;> cases he
    · intro e' he
      dsimp only at he
      split at he
      case isTrue hok =>
        obtain rfl := ThreadPc.forgetting.inj he
        rw [LockTable.run_entries_self]
        exact drop_not_live hok.1
      case isFalse => cases he
  | @flush e r hlocked =>
    refine (hs.run (e := e) rfl fun h => by cases h).sameHold (p := p) hp ?_
    rw [hlocked]
    exact sameHold_unlocking rfl false
  | @flushOwed owed e r hholding =>
    refine (hs.run (e := e) rfl fun h => by cases h).goto ?_ (fun _ h => by cases h)
      fun _ h => by cases h
    rw [show (s.run _ _).threads t = s.threads t from rfl, hp, hholding]
    rfl
  | inside hinside hwork hnext =>
    rw [← hp] at hinside
    refine (hs.run hwork fun _ => ?_).sameHold (p := p) hp (hnext _)
    exact ⟨(hs.inside t _ hinside).1, (hs.inside t _ hinside).2, hs.not_forgetting hinside⟩

theorem entryFor (hs : Tracked s) {op : LockOp} (ht : (s.threads t).holds = none) :
    Tracked (s.entryFor t op) := by
  unfold LockTable.entryFor
  split
  case h_1 e hcurrent => exact hs.goto ht.symm (fun _ h => by cases h) fun _ h => by cases h
  case h_2 hcurrent =>
    have hmade : Tracked { s with current := some s.fresh, fresh := s.fresh + 1 } := by
      refine ⟨hs.guarded.congr (owns_congr rfl rfl) fun _ => ⟨rfl, rfl⟩, ?_, ?_, ?_⟩
      · intro e he
        cases hcurrent.symm.trans (hs.victim e he)
      · intro t' e he
        cases hcurrent.symm.trans (hs.inside t' e he).1
      · intro e he
        cases hcurrent.symm.trans (hs.live e he).1
    exact hmade.goto ht.symm (fun _ h => by cases h) fun _ h => by cases h

theorem forget (hs : Tracked s) (ht : s.threads t = .forgetting e) :
    Tracked { s with current := if s.current = some e then none else s.current } := by
  have hguarded : Guarded s.entries
      (owns { s with current := if s.current = some e then none else s.current }) :=
    hs.guarded.congr (owns_congr rfl rfl) fun _ => ⟨rfl, rfl⟩
  have howns : owns s (.thread t) = some (e, .exclusive) := by rw [owns, ht]; rfl
  refine ⟨hguarded, fun e' he => ?_, fun t' e' he => ?_, fun e' he => ?_⟩
  · have hcurrent := hs.victim e' he
    have hne : e' ≠ e := by
      rintro rfl
      cases hs.guarded.alone howns (owns_sweep he)
    rw [if_neg (by rw [hcurrent]; exact fun h => hne (some.inj h))]
    exact hcurrent
  · obtain ⟨hcurrent, hreleased⟩ := hs.inside t' e' he
    have hne : e' ≠ e := by
      rintro rfl
      exact hs.not_forgetting he t ht
    rw [if_neg (by rw [hcurrent]; exact fun h => hne (some.inj h))]
    exact ⟨hcurrent, hreleased⟩
  · obtain ⟨hcurrent, hreleased, hforget⟩ := hs.live e' he
    have hne : e' ≠ e := by
      rintro rfl
      exact hforget t ht
    rw [if_neg (by rw [hcurrent]; exact fun h => hne (some.inj h))]
    exact ⟨hcurrent, hreleased, hforget⟩

theorem sweep (hs : Tracked s) {s' : LockTable} {a : SweepAct} (h : SweepShape s a s') :
    Tracked s' := by
  cases h with
  | @claim e hsweep hcurrent hfree =>
    have hself := LockTable.run_entries_self s e (.lock .sweep .exclusive)
    refine ⟨?_, ?_, ?_, ?_⟩
    · exact hs.guarded.lock hfree hself (fun e' he => LockTable.run_entries_of_ne he s _) rfl
        (owns_of_ne_sweep rfl)
    · rintro e' ⟨⟩
      exact hcurrent
    · exact fun t e' he => ⟨(hs.inside t e' he).1, rfl⟩
    · intro e' he
      obtain ⟨hc, -, hf⟩ := hs.live e' (live_of_onLocalLock (a := .lock .sweep .exclusive) rfl he)
      exact ⟨hc, rfl, hf⟩
  | @drop e r invalidated hsweep =>
    have hrun : Tracked (s.run e (.drop r invalidated)) := hs.run rfl fun h => by cases h
    have hvictim : s.sweep.victim = some e := by rw [hsweep]; rfl
    have hcurrent := hs.victim e hvictim
    refine ⟨?_, ?_, ?_, ?_⟩
    · exact hrun.guarded.congr (owns_congr rfl hvictim.symm) fun _ => ⟨rfl, rfl⟩
    · rintro e' ⟨⟩
      exact hcurrent
    · -- whoever is at work has the local lock, and the sweep has it
      intro t e' he
      obtain rfl : e = e' := some.inj (hcurrent.symm.trans (hs.inside t e' he).1)
      obtain ⟨mode, hholds⟩ := holds_of_inside he
      cases hs.guarded.alone (owns_sweep hvictim) (b := .thread t) hholds
    · intro e' he
      obtain ⟨hcurrent', -, hforget⟩ := hrun.live e' he
      obtain rfl : e = e' := some.inj (hcurrent.symm.trans hcurrent')
      refine ⟨hcurrent', ?_, hforget⟩
      by_contra hok
      have hself := LockTable.run_entries_self s e (.drop r invalidated)
      exact drop_not_live (Bool.not_eq_false _ ▸ hok) (hself ▸ he)
  | @unlock e released hsweep =>
    have hself := LockTable.run_entries_self s e (.unlock .sweep .exclusive false)
    have hreleased : ∀ b, s.sweep.released = b → (Sweep.unlocked released).released = b := by
      intro b hb
      rw [hsweep] at hb
      exact hb
    refine ⟨?_, ?_, ?_, ?_⟩
    · have hvictim : s.sweep.victim = some e := by rw [hsweep]; rfl
      refine hs.guarded.unlock (owns_sweep hvictim) ?_
        (fun e' he => LockTable.run_entries_of_ne he s _) rfl (owns_of_ne_sweep rfl)
      rw [show ({ s.run e (.unlock .sweep .exclusive false) with sweep := .unlocked released } :
        LockTable).entries e = _ from hself]
      exact ⟨rfl, rfl⟩
    · rintro e' ⟨⟩
    · exact fun t e' he => ⟨(hs.inside t e' he).1, hreleased _ (hs.inside t e' he).2⟩
    · intro e' he
      obtain ⟨hc, hr, hf⟩ :=
        hs.live e' (live_of_onLocalLock (a := .unlock .sweep .exclusive false) rfl he)
      exact ⟨hc, hreleased _ hr, hf⟩
  | @delete released hsweep =>
    have hkept : s.sweep.released = false → released = false := by
      rw [hsweep]
      exact id
    refine ⟨?_, ?_, ?_, ?_⟩
    · refine hs.guarded.congr (owns_congr rfl ?_) fun _ => ⟨rfl, rfl⟩
      rw [hsweep]
      rfl
    · rintro e ⟨⟩
    · intro t e he
      obtain ⟨hcurrent, hreleased⟩ := hs.inside t e he
      obtain rfl := hkept hreleased
      exact ⟨hcurrent, rfl⟩
    · intro e he
      obtain ⟨hcurrent, hreleased, hforget⟩ := hs.live e he
      obtain rfl := hkept hreleased
      exact ⟨hcurrent, rfl, hforget⟩

theorem step (hs : Tracked s) {s' : LockTable} {act : TableAct} (hc : OutsideHandover s act)
    (h : s.step act = some s') : Tracked s' := by
  cases act with
  | thread t a =>
    obtain ⟨plan, hplan, rfl⟩ := map_eq_some_iff.mp h
    exact hs.perform hc hplan
  | enter t =>
    obtain ⟨op, ht, rfl⟩ := enter_eq h
    exact hs.entryFor (by rw [ht]; rfl)
  | forget t =>
    obtain ⟨e, ht, rfl⟩ := forget_eq h
    refine (hs.forget ht).goto ?_ (fun _ h => by cases h) fun _ h => by cases h
    rw [show s.threads t = .forgetting e from ht]
    rfl
  | sweep a => exact hs.sweep (sweep_shape h)
  | sessionEnds =>
    cases h
    exact ⟨hs.guarded.congr (owns_congr rfl rfl) fun _ => ⟨rfl, rfl⟩, hs.victim, hs.inside, hs.live⟩
  | dropForLease lease e =>
    obtain ⟨-, rfl⟩ := ite_some_none_eq_some.mp h
    exact hs.run rfl fun h => by cases h

theorem start : Tracked .start where
  guarded := by
    refine ⟨fun a e ha => ?_, fun a e ha => ?_, fun e he => absurd rfl he⟩ <;>
      cases a <;> cases ha
  victim := fun _ h => by cases h
  inside := fun _ _ h => by cases h
  live := fun _ h => by rcases h with h | h <;> exact absurd rfl h

end Tracked

/-- In every run in which no entry is found current and no created key is seeded while the
entry is on its way out of the map, every entry with a key or a write on it is the one
that the map returns. -/
theorem along_findable {acts : List TableAct}
    (hc : lockTable.Along (fun s act _ => OutsideHandover s act) .start acts) :
    lockTable.Along (fun _ _ s => Findable s) .start acts := by
  refine Machine.Along.of_invariant (I := Tracked) ?_ .start hc
  intro s act s' hs hc h
  have hs' := hs.step hc h
  exact ⟨hs', fun e he => (hs'.live e he).1⟩

/-- A buffered write is evicted, and the next one makes a new entry. -/
theorem along_findable_evicted : lockTable.Along (fun _ _ s => Findable s) .start
    (planWrite 0 0 ⟨0, 0⟩ ++ joinBuffer 0 ++ [.sweep .claim, .sweep (.drop .committed true),
      .sweep .unlock, .sweep .delete] ++ planWrite 1 1 ⟨0, 1⟩ ++ joinBuffer 1) := by
  apply along_findable
  decide +kernel

def lockedBeforeDelete : List TableAct :=
  planWrite 0 0 ⟨0, 0⟩ ++ joinBuffer 0 ++ .sweep .claim :: arrive 1 (.write 1) ++
    [.sweep (.drop .committed true), .sweep .unlock] ++ takeKey 1 ⟨0, 1⟩ ++ [.sweep .delete]

/-- The thread has the key on an entry that the map does not return. -/
theorem key_taken_before_delete_is_lost :
    (lockTable.exec .start lockedBeforeDelete).map
      (fun s => (s.current, (s.entries 0).holder)) = some (none, some ⟨0, 1⟩) := by
  decide +kernel

end EtcFS.Correctness
