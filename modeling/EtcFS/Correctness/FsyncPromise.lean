import EtcFS.Correctness.LostEntry

/-!
# What an fsync promises

By the time of an fsync each write acknowledged before it must be in etcd. A buffer that was
discarded answers like one that was published.
-/

namespace EtcFS.Correctness

open EtcFS.Core Metadata Ipc List Option

def FsyncsCommitted (s : LockTable) : Prop :=
  ∀ t owed, s.threads t = .rest (.answered owed) → ∀ id ∈ owed, InLog s.log id

def discards : FlushReply → Bool
  | .fenced => true
  | .refused _ gone => gone
  | .failed | .unheard | .committed => false

def KeepsBuffer (x : LockEntry) : EntryAct → Prop
  | .flush r | .drop r _ => x.pending = [] ∨ (x.holder ≠ none ∧ discards r = false)
  | .ensure mode session _ _ => x.pending = [] ∨ x.holder = none ∨
    (x.stale session = false ∧ covers x.mode mode = true)
  | .dropForLease lease => x.pending = [] ∨ x.holder.any (fun h => h.lease == lease) = false
  | .lock _ _ | .unlock _ _ _ | .setMeta _ | .join _ _ | .seed _ | .commit _ _ _ => True

instance (x : LockEntry) : (a : EntryAct) → Decidable (KeepsBuffer x a)
  | .flush _ | .drop _ _ => inferInstanceAs (Decidable (_ ∨ _ ∧ _))
  | .ensure _ _ _ _ => inferInstanceAs (Decidable (_ ∨ _ ∨ _ ∧ _))
  | .dropForLease _ => inferInstanceAs (Decidable (_ ∨ _))
  | .lock _ _ | .unlock _ _ _ | .setMeta _ | .join _ _ | .seed _ | .commit _ _ _ => .isTrue trivial

def Pends (x : LockEntry) (id : Nat) : Prop := ∃ w ∈ x.pending, w.id = id

theorem inLog_append {log : List Publication} {id : Nat} (h : InLog log id)
    (log' : List Publication) : InLog (log ++ log') id := by
  obtain ⟨p, hp, hw⟩ := h
  exact ⟨p, mem_append_left _ hp, hw⟩

/-! ## What a section leaves of a buffer -/

section

variable {log : List Publication} {x : LockEntry} {id : Nat}

theorem inLog_published (h : Pends x id) (compared : Option Holder) :
    InLog (log ++ [⟨x.pending, compared⟩]) id :=
  ⟨_, mem_concat_self, h⟩

theorem not_pends_of_empty (h : x.pending = []) : ¬Pends x id := by
  rintro ⟨w, hw, -⟩
  rw [h] at hw
  cases hw

theorem flush_keeps {r : FlushReply} (hkeeps : KeepsBuffer x (.flush r)) (hid : Pends x id) :
    InLog (log ++ (x.flush log r).log) id ∨
      (Pends (x.flush log r).entry id ∧ (x.flush log r).ok = false) := by
  obtain ⟨hheld, hr⟩ := hkeeps.resolve_left fun h => not_pends_of_empty h hid
  have hend := flush_shape log x r
  generalize x.flush log r = y at hend ⊢
  cases hend with
  | empty hempty => exact absurd hid (not_pends_of_empty hempty)
  | unkeyed hnone => exact absurd hnone hheld
  | kept => exact .inr ⟨hid, rfl⟩
  | unheard => exact .inl (inLog_published hid _)
  | committed => exact .inl (inLog_published hid _)
  | fenced hfenced => exact absurd (hfenced ▸ hr) Bool.noConfusion
  | adopted hlog =>
    obtain ⟨w, hw, rfl⟩ := hid
    exact .inl (inLog_append (hlog w hw) [])
  | gone hgone => exact absurd (hgone ▸ hr) Bool.noConfusion

theorem run_keeps {a : EntryAct} (hkeeps : KeepsBuffer x a) (hid : Pends x id) :
    InLog (log ++ (x.run log a).log) id ∨ Pends (x.run log a).entry id := by
  cases a with
  | lock b mode => cases mode <;> exact .inr hid
  | unlock b mode dropMeta => cases mode <;> exact .inr hid
  | ensure mode session invalidated reply =>
    have hsound := hkeeps.resolve_left fun h => not_pends_of_empty h hid
    have hend := ensure_shape log x mode session invalidated reply
    generalize x.run log _ = y at hend ⊢
    cases hend with
    | same | taken => exact .inr hid
    | given hheld hgiven | replaced hheld hgiven =>
      obtain ⟨hfresh, hcovers⟩ := hsound.resolve_left hheld
      rw [hfresh, hcovers] at hgiven
      rcases hgiven with h | h <;> cases h
  | setMeta under => exact .inr hid
  | join id' under =>
    obtain ⟨w, hw, hid⟩ := hid
    exact .inr ⟨w, mem_append_left _ hw, hid⟩
  | flush r => exact (flush_keeps hkeeps hid).imp_right And.left
  | drop r invalidated =>
    have hflush : InLog (log ++ (x.flush log r).log) id ∨ _ := flush_keeps hkeeps hid
    unfold LockEntry.run LockEntry.drop
    dsimp only
    split
    · exact hflush.imp_right And.left
    case isFalse hdrop =>
      refine .inl (hflush.resolve_right fun ⟨hpends, hfailed⟩ => hdrop (.inl ⟨hfailed, ?_⟩))
      exact fun h => not_pends_of_empty h hpends
  | dropForLease lease =>
    have hother := hkeeps.resolve_left fun h => not_pends_of_empty h hid
    unfold LockEntry.run
    dsimp only
    rw [if_neg (by rw [hother]; exact Bool.noConfusion)]
    exact .inr hid
  | seed h =>
    unfold LockEntry.run LockEntry.seed
    dsimp only
    split <;> exact .inr hid
  | commit id' under r => cases r <;> exact .inr hid

theorem run_acked {a : EntryAct} (hid : id ∈ (x.run log a).acked) :
    InLog (log ++ (x.run log a).log) id ∨ Pends (x.run log a).entry id := by
  cases a with
  | lock | unlock | setMeta | dropForLease | seed => cases hid
  | ensure mode session invalidated reply =>
    have hend := ensure_shape log x mode session invalidated reply
    generalize x.run log _ = y at hend hid ⊢
    cases hend <;> cases hid
  | join id' under =>
    obtain rfl := mem_singleton.mp hid
    exact .inr ⟨_, mem_concat_self, rfl⟩
  | flush r =>
    have hend := flush_shape log x r
    unfold LockEntry.run at hid ⊢
    dsimp only at hid ⊢
    generalize x.flush log r = y at hend hid ⊢
    cases hend <;> cases hid
  | drop r invalidated =>
    unfold LockEntry.run LockEntry.drop at hid
    dsimp only at hid
    split at hid <;> cases hid
  | commit id' under r =>
    cases r with
    | failed | unheard | refused => cases hid
    | committed follows =>
      obtain rfl := mem_singleton.mp hid
      exact .inl ⟨_, mem_concat_self, _, mem_singleton_self _, rfl⟩

end

/-! ## The invariant -/

structure Answers (s : LockTable) (p : ThreadPc) : Prop where
  owed : ∀ id ∈ p.owed, id ∈ s.acked
  /-- What is not in etcd is in the entry that it looked up. -/
  asking : ∀ owed e, p = .asking owed e → ∀ id ∈ owed,
    InLog s.log id ∨ Pends (s.entries e) id
  promised : ∀ id ∈ p.promised, InLog s.log id

structure Vouched (s : LockTable) : Prop where
  acked : ∀ id ∈ s.acked, InLog s.log id ∨ ∃ e, Pends (s.entries e) id
  answers : ∀ t, Answers s (s.threads t)

structure Progress (s s' : LockTable) : Prop where
  log : ∀ id, InLog s.log id → InLog s'.log id
  acked : ∀ id ∈ s.acked, id ∈ s'.acked
  pends : ∀ e id, Pends (s.entries e) id → InLog s'.log id ∨ Pends (s'.entries e) id
  new : ∀ id ∈ s'.acked, id ∈ s.acked ∨ InLog s'.log id ∨ ∃ e, Pends (s'.entries e) id

theorem step_progress {s s' : LockTable} {act : TableAct}
    (hc : ∀ w ∈ s.work act, KeepsBuffer (s.entries w.1) w.2) (h : s.step act = some s') :
    Progress s s' := by
  rcases step_work h with ⟨-, hentries, hlog, hacked⟩ | ⟨e, work, hwork, hentries, hlog, hacked⟩
  · refine ⟨fun id hid => ?_, fun id hid => ?_, fun e id hid => ?_, fun id hid => ?_⟩
    · rwa [hlog]
    · rwa [hacked]
    · rw [hentries]
      exact .inr hid
    · rw [hacked] at hid
      exact .inl hid
  · have hkeeps := hc (e, work) hwork
    refine ⟨fun id hid => ?_, fun id hid => ?_, fun e' id hid => ?_, fun id hid => ?_⟩
    · rw [hlog]
      exact inLog_append hid _
    · rw [hacked]
      exact mem_append_left _ hid
    · rw [hlog, hentries]
      by_cases he : e' = e
      · subst he
        rw [LockTable.run_entries_self]
        exact run_keeps hkeeps hid
      · rw [LockTable.run_entries_of_ne he]
        exact .inr hid
    · rw [hacked] at hid
      rcases mem_append.mp hid with hid | hid
      · exact .inl hid
      · rw [hlog, hentries]
        refine .inr ((run_acked hid).imp_right fun hpends => ⟨e, ?_⟩)
        rw [LockTable.run_entries_self]
        exact hpends

section

variable {s s' : LockTable} {t : Nat} {p q : ThreadPc}

theorem Answers.progress (hp : Answers s p) (h : Progress s s') : Answers s' p where
  owed := fun id hid => h.acked id (hp.owed id hid)
  asking := fun owed e hpe id hid =>
    (hp.asking owed e hpe id hid).elim (fun hlog => .inl (h.log id hlog)) (h.pends e id)
  promised := fun id hid => h.log id (hp.promised id hid)

theorem Answers.of_owed (hp : Answers s p) (howed : q.owed = [] ∨ q.owed = p.owed)
    (hpromised : q.promised = []) (hasking : ∀ owed e, q ≠ .asking owed e) : Answers s q := by
  refine ⟨fun id hid => ?_, fun owed e h => absurd h (hasking owed e), fun id hid => ?_⟩
  · rcases howed with hnone | hsame
    · rw [hnone] at hid
      cases hid
    · exact hp.owed id (hsame ▸ hid)
  · rw [hpromised] at hid
    cases hid

theorem Vouched.pends_current (hs : Vouched s) (htracked : Tracked s) {id : Nat}
    (hid : id ∈ s.acked) :
    InLog s.log id ∨ ∃ e, s.current = some e ∧ Pends (s.entries e) id := by
  refine (hs.acked id hid).imp_right fun ⟨e, hpends⟩ => ⟨e, ?_, hpends⟩
  exact (htracked.live e (.inr fun h => not_pends_of_empty h hpends)).1

theorem answers_next (hs : Vouched s) (htracked : Tracked s) (hprogress : Progress s s')
    {a : ThreadAct} {plan : ThreadPlan} (hplan : s.plan t (s.threads t) a = some plan)
    (hwork : ∀ e work, plan.work = some (e, work) →
      KeepsBuffer (s.entries e) work ∧ s'.log = (s.run e work).log) {ok : Bool}
    (hok : ∀ e work, plan.work = some (e, work) → ok = (s.result e work).ok) :
    Answers s' (plan.next ok) := by
  have hnow := hs.answers t
  have hold := hnow.progress hprogress
  have hshape := plan_shape hplan
  generalize hp : s.threads t = p at hshape hold hnow
  cases hshape with
  | goOn hq => exact hold.of_owed hq.owed hq.promised hq.asking
  | fsync hidle =>
    refine ⟨hprogress.acked, ?_, ?_⟩
    · exact fun _ _ h => by cases h
    · exact fun _ h => by cases h
  | @lookup owed hreceived =>
    subst hreceived
    -- what is owed and not in etcd is in the current entry, if there is one
    have howed := fun id hid => hs.pends_current htracked (hnow.owed id hid)
    cases hcurrent : s.current with
    | none =>
      refine ⟨hold.owed, ?_, fun id hid => ?_⟩
      · exact fun _ _ h => by cases h
      · refine hprogress.log id ((howed id hid).resolve_right ?_)
        rintro ⟨e, he, -⟩
        cases hcurrent.symm.trans he
    | some e =>
      refine ⟨hold.owed, ?_, fun _ h => by cases h⟩
      rintro owed' e' ⟨⟩ id hid
      rcases howed id hid with hlog | ⟨e', he', hpends⟩
      · exact .inl (hprogress.log id hlog)
      · obtain rfl := some.inj (hcurrent.symm.trans he')
        exact hprogress.pends e id hpends
  | @ask owed e hasking =>
    subst hasking
    by_cases hempty : (s.entries e).pending = []
    · rw [if_pos hempty]
      refine ⟨hold.owed, ?_, fun id hid => hprogress.log id ?_⟩
      · exact fun _ _ h => by cases h
      · exact (hnow.asking owed e rfl id hid).resolve_right (not_pends_of_empty hempty)
    · rw [if_neg hempty]
      exact hold.of_owed (q := .rest (.entering (.fsync owed))) (.inr rfl) rfl
        fun _ _ => ThreadPc.noConfusion
  | @check op e hlocked =>
    subst hlocked
    refine hold.of_owed (.inr ?_) ?_ ?_ <;> dsimp only [ThreadPlan.goOn] <;> split
    all_goals first | rfl | exact fun _ _ => ThreadPc.noConfusion
  | lock hlocated =>
    subst hlocated
    exact hold.of_owed (q := .locked _ _) (.inr rfl) rfl fun _ _ => ThreadPc.noConfusion
  | unlock hunlocking =>
    subst hunlocking
    refine ⟨hold.owed, ?_, hold.promised⟩
    exact fun _ _ h => by cases h
  | seed | flush => exact hold.of_owed (.inl rfl) rfl fun _ _ => ThreadPc.noConfusion
  | drop =>
    refine hold.of_owed (.inl ?_) ?_ ?_ <;> dsimp only <;> split
    all_goals first | rfl | exact fun _ _ => ThreadPc.noConfusion
  | @flushOwed owed e r hholding =>
    subst hholding
    cases hdone : ok with
    | false =>
      exact hold.of_owed (q := .unlocking e .exclusive false .idle) (.inl rfl) rfl
        fun _ _ => ThreadPc.noConfusion
    | true =>
      refine ⟨hold.owed, ?_, fun id hid => ?_⟩
      · exact fun _ _ h => by cases h
      obtain ⟨hkeeps, hlog⟩ := hwork e _ rfl
      have hinside : (s.threads t).inside = some e := by rw [hp]; rfl
      rcases hs.pends_current htracked (hnow.owed id hid) with hcommitted | ⟨e', hcurrent, hpends⟩
      · exact hprogress.log id hcommitted
      · obtain rfl := some.inj (hcurrent.symm.trans (htracked.inside t e hinside).1)
        rw [hlog]
        refine (flush_keeps hkeeps hpends).resolve_right fun hfailed => ?_
        have hsucceeded := (hok e' _ rfl).symm.trans hdone
        exact absurd (hsucceeded.symm.trans hfailed.2) Bool.noConfusion
  | inside hinside _ hnext =>
    exact hold.of_owed (hnext ok).owed (hnext ok).promised (hnext ok).asking

theorem step_answers (hs : Vouched s) (htracked : Tracked s) (hprogress : Progress s s')
    {act : TableAct} (hc : ∀ w ∈ s.work act, KeepsBuffer (s.entries w.1) w.2)
    (h : s.step act = some s') (t : Nat) : Answers s' (s'.threads t) := by
  have hsame : s'.threads t = s.threads t → Answers s' (s'.threads t) := by
    intro ht
    rw [ht]
    exact (hs.answers t).progress hprogress
  cases act with
  | sessionEnds =>
    cases h
    exact hsame rfl
  | dropForLease lease e =>
    obtain ⟨-, rfl⟩ := ite_some_none_eq_some.mp h
    exact hsame rfl
  | sweep a => cases sweep_shape h <;> exact hsame rfl
  | thread t' a =>
    obtain ⟨plan, hplan, hstep⟩ := map_eq_some_iff.mp h
    by_cases ht : t = t'
    · subst ht
      have hwork : ∀ e work, plan.work = some (e, work) →
          KeepsBuffer (s.entries e) work ∧ s'.log = (s.run e work).log := by
        intro e work hwork
        refine ⟨hc (e, work) (by rw [LockTable.work, hplan]; exact hwork), ?_⟩
        rw [← hstep, LockTable.perform, hwork]
        rfl
      subst hstep
      obtain ⟨ok, hnext, hok⟩ := s.perform_threads_self t plan
      rw [hnext]
      exact answers_next hs htracked hprogress hplan hwork hok
    · refine hsame ?_
      rw [← hstep]
      exact LockTable.perform_threads_of_ne ht ..
  | enter t' =>
    obtain ⟨op, hop, rfl⟩ := enter_eq h
    by_cases ht : t = t'
    · subst ht
      have hold := (hs.answers t).progress hprogress
      rw [hop] at hold
      obtain ⟨e, he⟩ := s.entryFor_threads_self t op
      rw [he]
      exact hold.of_owed (q := .located op e) (.inr rfl) rfl fun _ _ => ThreadPc.noConfusion
    · exact hsame (LockTable.entryFor_threads_of_ne ht ..)
  | forget t' =>
    obtain ⟨e, he, rfl⟩ := forget_eq h
    by_cases ht : t = t'
    · subst ht
      rw [LockTable.goto_threads_self]
      exact ((hs.answers t).progress hprogress).of_owed (.inl rfl) rfl
        fun _ _ => ThreadPc.noConfusion
    · exact hsame (LockTable.goto_threads_of_ne ht ..)

end

theorem Vouched.step {s s' : LockTable} {act : TableAct} (hs : Vouched s)
    (htracked : Tracked s) (hc : ∀ w ∈ s.work act, KeepsBuffer (s.entries w.1) w.2)
    (h : s.step act = some s') : Vouched s' := by
  have hprogress := step_progress hc h
  refine ⟨fun id hid => ?_, step_answers hs htracked hprogress hc h⟩
  rcases hprogress.new id hid with hold | hnew
  · rcases hs.acked id hold with hlog | ⟨e, hpends⟩
    · exact .inl (hprogress.log id hlog)
    · exact (hprogress.pends e id hpends).imp_right fun hpends => ⟨e, hpends⟩
  · exact hnew

theorem Vouched.start : Vouched .start where
  acked := fun _ h => by cases h
  answers := by
    intro t
    refine ⟨?_, ?_, ?_⟩
    · exact fun _ h => by cases h
    · exact fun _ _ h => by cases h
    · exact fun _ h => by cases h

/-- In every run in which no section discards a buffered write, and no entry is found
current and no created key is seeded while the entry is on its way out of the map, every
fsync that answers success has the writes acknowledged before it in etcd. -/
theorem along_fsyncsCommitted {acts : List TableAct}
    (hc : lockTable.Along (fun s act _ => OutsideHandover s act ∧
      ∀ w ∈ s.work act, KeepsBuffer (s.entries w.1) w.2) .start acts) :
    lockTable.Along (fun _ _ s => FsyncsCommitted s) .start acts := by
  refine Machine.Along.of_invariant (I := fun s => Tracked s ∧ Vouched s) ?_
    ⟨.start, .start⟩ hc
  rintro s act s' ⟨htracked, hs⟩ ⟨hout, hkeeps⟩ h
  have hs' := hs.step htracked hkeeps h
  refine ⟨⟨htracked.step hout h, hs'⟩, fun t owed ht => ?_⟩
  have hpromised := (hs'.answers t).promised
  rw [ht] at hpromised
  exact hpromised

def askFsync (t : Nat) : List TableAct := [.thread t .fsync, .thread t .lookup, .thread t .ask]

/-- An fsync publishes a buffered write. -/
theorem along_fsyncsCommitted_published :
    lockTable.Along (fun _ _ s => FsyncsCommitted s) .start
      (planWrite 0 0 ⟨0, 0⟩ ++ joinBuffer 0 ++ askFsync 1 ++ .enter 1 :: takeKey 1 ⟨0, 1⟩ ++
        [.thread 1 (.flush .committed), .thread 1 .unlock]) := by
  apply along_fsyncsCommitted
  decide +kernel

def fsyncAfterLoss : List TableAct :=
  planWrite 0 0 ⟨0, 0⟩ ++ joinBuffer 0 ++ [.sessionEnds, .dropForLease 0 0] ++ askFsync 1

/-- The fsync answers for a write that is nowhere. -/
theorem fsync_answers_for_discarded :
    (lockTable.exec .start fsyncAfterLoss).map
      (fun s => (s.acked, s.threads 1, s.log, (s.entries 0).pending)) =
      some ([0], .rest (.answered [0]), [], []) := by
  decide +kernel

end EtcFS.Correctness
