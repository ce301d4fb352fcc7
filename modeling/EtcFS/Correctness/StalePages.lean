import EtcFS.Ipc.Notify

/-!
# Pages that outlive their lock

An invalidation that finds no client takes the session for gone and clears the flag that every
later invalidation asks. A session that lives then keeps its pages.
-/

namespace EtcFS.Correctness

open EtcFS.Core Ipc List Option

def deletedKeys (s : PageState) : PageStep → List Nat
  | .deleteKeys w =>
    match s.yields[w]? with
    | some y => if y.lost then [] else s.keys.filter (· ∈ y.ready)
    | none => []
  | _ => []

/-- A key that the node deletes has no page under it in a session that lives. -/
def NoStalePages (s : PageState) (step : PageStep) (t : PageState) : Prop :=
  t.alive = true → ∀ ino ∈ deletedKeys s step, ino ∉ t.pages
  deriving Decidable

/-- `pagesCached` is not cleared while the session has an open that was answered as cacheable. -/
def ClearsUnopened (s : PageState) (step : PageStep) (_ : PageState) : Prop :=
  match step with
  | .invalidate w _ => ∀ y ∈ s.yields[w]?, y.inval = .clears → s.opened = []
  | _ => True

instance (s : PageState) (step : PageStep) (t : PageState) :
    Decidable (ClearsUnopened s step t) := by
  cases step <;> simp only [ClearsUnopened] <;> infer_instance

/-- What a thread has made ready is not cached, and its lock keeps it so. -/
structure Uncached (pages : List Nat) (y : Yield) : Prop where
  ready : y.lost = false → ∀ ino ∈ y.ready, ino ∉ pages
  held : ∀ ino, ino ∈ y.batch ∨ ino ∈ y.ready → ino ∈ y.held

structure Flagged (s : PageState) : Prop where
  pages : ∀ ino ∈ s.pages, ino ∈ s.opened
  flag : s.opened ≠ [] → s.pagesCacheable = true
  yields : ∀ y ∈ s.yields, Uncached s.pages y

section

variable {s t : PageState} {y : Yield} {pages : List Nat} {ino : Nat}

theorem Uncached.mono (h : Uncached pages y) {pages' : List Nat} (hsub : ∀ i ∈ pages', i ∈ pages) :
    Uncached pages' y where
  ready hlost i hi hm := h.ready hlost i hi (hsub i hm)
  held := h.held

theorem Uncached.read (h : Uncached pages y) (hheld : ino ∉ y.held) :
    Uncached (ino :: pages) y where
  ready hlost i hi hm := by
    rcases mem_cons.mp hm with rfl | hm
    · exact hheld (h.held i (.inr hi))
    · exact h.ready hlost i hi hm
  held := h.held

theorem Uncached.after (h : Uncached pages y) (hhead : y.batch.head? = some ino)
    {result : Inval ⊕ Bool} (hgone : result = .inr true → ino ∉ pages) :
    Uncached pages (y.after ino result) := by
  cases result with
  | inl inval => exact ⟨h.ready, h.held⟩
  | inr ok =>
    constructor
    · intro hlost i hi
      have hlost' : y.lost = false := hlost
      simp only [Yield.after, hlost', Bool.or_false] at hi
      cases ok with
      | false => exact h.ready hlost i hi
      | true =>
        rcases mem_cons.mp hi with rfl | hi
        · exact hgone rfl
        · exact h.ready hlost i hi
    · intro i hi
      have hino : ino ∈ y.batch := mem_of_mem_head? hhead
      simp only [Yield.after] at hi
      rcases hi with hi | hi
      · exact h.held i (.inl (mem_of_mem_tail hi))
      · split at hi
        · rcases mem_cons.mp hi with rfl | hi
          · exact h.held i (.inl hino)
          · exact h.held i (.inr hi)
        · exact h.held i (.inr hi)

theorem Flagged.no_pages (h : Flagged s) (hopen : s.opened = []) (ino : Nat) : ino ∉ s.pages := by
  intro hm
  have hin := h.pages ino hm
  rw [hopen] at hin
  cases hin

/-- One action of an invalidation keeps the invariant, and where the call returns that the key may
go, the inode has no page. -/
theorem invalidatePages_spec (h : Flagged s) {inval : Inval}
    (hclears : inval = .clears → s.opened = []) (ino : Nat) (x : Exchange) :
    Flagged (s.invalidatePages ino x inval).1 ∧
      (s.invalidatePages ino x inval).1.yields = s.yields ∧
      ((s.invalidatePages ino x inval).2 = .inr true →
        ino ∉ (s.invalidatePages ino x inval).1.pages) := by
  cases inval with
  | asks =>
    refine ⟨h, rfl, fun hret => ?_⟩
    simp only [PageState.invalidatePages] at hret
    split at hret
    case isTrue => cases hret
    case isFalse hno =>
      exact h.no_pages (by_contra fun hopen => hno (h.flag hopen)) ino
  | clears =>
    have hopen := hclears rfl
    exact ⟨⟨h.pages, fun hne => absurd hopen hne, h.yields⟩, rfl, fun _ => h.no_pages hopen ino⟩
  | sends =>
    have hsub : ∀ i ∈ (if s.carriesOut x then s.pages.filter (· ≠ ino) else s.pages),
        i ∈ s.pages := by
      intro i hi
      split at hi
      · exact (mem_filter.mp hi).1
      · exact hi
    have hflag : ∀ n, Flagged { s with
        notify := n
        pages := if s.carriesOut x then s.pages.filter (· ≠ ino) else s.pages } := fun n =>
      ⟨fun i hi => h.pages i (hsub i hi), h.flag, fun y hy => (h.yields y hy).mono hsub⟩
    simp only [PageState.invalidatePages]
    rcases hsend : s.notify.send true (s.delivery x) with ⟨_ | err, n⟩
    · refine ⟨hflag n, rfl, fun _ => ?_⟩
      -- an answer can only be the living session's own
      obtain ⟨hconn, hbroken, hdone⟩ := NotifyServer.send_eq_none hsend
      have hout : s.carriesOut x = true := by
        cases hlink : s.linked <;> cases hd : x.delivery <;>
          simp_all [PageState.delivery, PageState.carriesOut]
      simp [hout]
    · cases err <;> refine ⟨hflag n, rfl, fun hret => by cases hret⟩

theorem Flagged.set (h : Flagged s) {w : Nat} (hy : Uncached s.pages y) :
    Flagged { s with yields := s.yields.set w y } where
  pages := h.pages
  flag := h.flag
  yields z hz := by
    rcases mem_or_eq_of_mem_set hz with hz | rfl
    · exact h.yields z hz
    · exact hy

theorem Flagged.invalidate (h : Flagged s) {w : Nat} {x : Exchange} (hy : s.yields[w]? = some y)
    (hc : ClearsUnopened s (.invalidate w x) t) (hhead : y.batch.head? = some ino) :
    Flagged { (s.invalidatePages ino x y.inval).1 with
      yields := s.yields.set w (y.after ino (s.invalidatePages ino x y.inval).2) } := by
  obtain ⟨hflag, hsame, hgone⟩ := invalidatePages_spec h (hc y hy) ino x
  rw [← hsame]
  refine hflag.set (Uncached.after ?_ hhead hgone)
  refine hflag.yields y ?_
  rw [hsame]
  exact mem_of_getElem? hy

theorem Flagged.deleteKeys (h : Flagged s) {w : Nat} (hy : s.yields[w]? = some y) :
    ∀ ino ∈ deletedKeys s (.deleteKeys w), ino ∉ s.pages := by
  intro ino hi
  simp only [deletedKeys, hy] at hi
  split at hi
  case isTrue => cases hi
  case isFalse hlost =>
    exact (h.yields y (mem_of_getElem? hy)).ready (by simpa using hlost) ino
      (of_decide_eq_true (mem_filter.mp hi).2)

theorem flagged_step {step : PageStep} (h : Flagged s) (hc : ClearsUnopened s step t)
    (hstep : pageLife.step s step = some t) : Flagged t ∧ NoStalePages s step t := by
  have hnone : ∀ {u : PageState}, deletedKeys s step = [] → NoStalePages s step u := by
    intro u hd _ i hi
    rw [hd] at hi
    cases hi
  cases step with
  | sessionStarts =>
    obtain ⟨-, ht⟩ := ite_none_left_eq_some.mp hstep
    cases ht
    exact ⟨⟨h.pages, h.flag, h.yields⟩, hnone rfl⟩
  | sessionEnds =>
    cases hstep
    exact ⟨⟨by simp, by simp, fun y hy => (h.yields y hy).mono (by simp)⟩, hnone rfl⟩
  | connect | acquire =>
    obtain ⟨-, rfl⟩ := ite_some_none_eq_some.mp hstep
    exact ⟨⟨h.pages, h.flag, h.yields⟩, hnone rfl⟩
  | openFile ino dsync connected =>
    obtain ⟨-, ht⟩ := ite_none_left_eq_some.mp hstep
    refine ⟨?_, hnone rfl⟩
    split at ht
    case isTrue hopen =>
      cases ht
      refine ⟨fun i hi => mem_cons_of_mem _ (h.pages i hi), fun _ => ?_, h.yields⟩
      simp only [PageState.cacheableOpen, Bool.and_eq_true] at hopen
      simp [PageState.pagesCacheable, hopen.1.1]
    case isFalse =>
      cases ht
      exact h
  | openLate dsync connected =>
    cases hstep
    refine ⟨⟨h.pages, fun hne => ?_, h.yields⟩, hnone rfl⟩
    have hflag := h.flag hne
    simp only [PageState.pagesCacheable, Bool.and_eq_true] at hflag
    simp [PageState.pagesCacheable, hflag]
  | read ino =>
    obtain ⟨⟨-, hopen, hfree⟩, rfl⟩ := ite_some_none_eq_some.mp hstep
    refine ⟨⟨?_, h.flag, fun y hy => (h.yields y hy).read ?_⟩, hnone rfl⟩
    · intro i hi
      rcases mem_cons.mp hi with rfl | hi
      · exact hopen
      · exact h.pages i hi
    · exact of_decide_eq_true (all_eq_true.mp hfree y hy)
  | tell | cooldown =>
    cases hstep
    exact ⟨⟨h.pages, h.flag, h.yields⟩, hnone rfl⟩
  | yields inos lost =>
    obtain ⟨-, rfl⟩ := ite_some_none_eq_some.mp hstep
    refine ⟨⟨h.pages, h.flag, fun y hy => ?_⟩, hnone rfl⟩
    rcases mem_append.mp hy with hy | hy
    · exact h.yields y hy
    · rw [mem_singleton.mp hy]
      exact ⟨by simp [Yield.start], by simp [Yield.start]⟩
  | flushFails w =>
    obtain ⟨y, hy, hrest⟩ := bind_eq_some_iff.mp hstep
    obtain ⟨ino, hhead, ht⟩ := bind_eq_some_iff.mp hrest
    obtain ⟨-, rfl⟩ := ite_some_none_eq_some.mp ht
    refine ⟨h.set ((h.yields y (mem_of_getElem? hy)).after hhead ?_), hnone rfl⟩
    intro hret
    cases hret
  | invalidate w x =>
    obtain ⟨y, hy, hrest⟩ := bind_eq_some_iff.mp hstep
    obtain ⟨ino, hhead, rfl⟩ := map_eq_some_iff.mp hrest
    exact ⟨h.invalidate hy hc hhead, hnone rfl⟩
  | deleteKeys w =>
    obtain ⟨y, hy, ht⟩ := bind_eq_some_iff.mp hstep
    obtain ⟨-, rfl⟩ := ite_some_none_eq_some.mp ht
    refine ⟨⟨h.pages, h.flag, fun z hz => h.yields z (mem_of_mem_eraseIdx hz)⟩, fun _ => ?_⟩
    exact h.deleteKeys hy

end

/-- In every run of a node from its start in which the flag is not cleared over an open of a living
session, no key is given up while the session has a page under it. -/
theorem along_noStalePages {pageCache : Bool} {steps : List PageStep}
    (h : pageLife.Along ClearsUnopened (.atStart pageCache) steps) :
    pageLife.Along NoStalePages (.atStart pageCache) steps :=
  Machine.Along.of_invariant (fun _ _ _ hs hc hstep => flagged_step hs hc hstep)
    ⟨by simp [PageState.atStart], by simp [PageState.atStart], by simp [PageState.atStart]⟩ h

/-- Two inodes are read. The client refuses one invalidation and carries out the other, the
session ends, an invalidation finds no client, and a later session opens and is invalidated. -/
theorem along_noStalePages_two_sessions :
    pageLife.Along NoStalePages (.atStart true)
      [.sessionStarts, .connect, .openFile 7 false true, .openFile 8 false true, .acquire 7,
        .acquire 8, .read 7, .read 8, .yields [7, 8] false, .invalidate 0 ⟨.done, true⟩,
        .invalidate 0 ⟨.reported, false⟩, .invalidate 0 ⟨.done, true⟩,
        .invalidate 0 ⟨.done, true⟩, .deleteKeys 0, .sessionEnds, .yields [7] false,
        .invalidate 0 ⟨.lost, false⟩, .invalidate 0 ⟨.lost, false⟩, .sessionStarts, .connect,
        .invalidate 0 ⟨.lost, false⟩, .openFile 8 false true, .deleteKeys 0, .acquire 8, .read 8,
        .yields [8] false, .invalidate 0 ⟨.done, true⟩, .invalidate 0 ⟨.done, true⟩,
        .deleteKeys 0] :=
  along_noStalePages (by decide)

/-- The session lives and its client is slow: the acknowledgement of one invalidation does
not come in time. The node deletes the key with the page still there. -/
theorem slowClient_keeps_page :
    let start := [PageStep.sessionStarts, .connect, .openFile 7 false true, .acquire 7, .read 7,
      .yields [7] false, .invalidate 0 ⟨.timedOut, false⟩, .invalidate 0 ⟨.timedOut, false⟩,
      .invalidate 0 ⟨.timedOut, false⟩]
    (pageLife.exec (.atStart true) start).map (fun s => deletedKeys s (.deleteKeys 0)) = some [7] ∧
      ¬ pageLife.Along NoStalePages (.atStart true) (start ++ [.deleteKeys 0]) := by
  refine ⟨by decide, by decide⟩

end EtcFS.Correctness
