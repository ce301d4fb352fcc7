import EtcFS.Ipc.TimeQueue
import Mathlib.Data.List.Induction

/-!
# One update for many changes

Access times always agree. Modification times agree if no touch was lost: an assignment to other
clocks drops the touch that waits before it.
-/

namespace EtcFS.Correctness

open EtcFS.Core Metadata Ipc List Option

def touches : List TimeCall → List Time :=
  filterMap fun
    | .touch moment => some moment
    | .assign _ _ _ => none

def applyEach (record : InodeRecord) (cs : List TimeCall) : InodeRecord :=
  cs.foldl (fun r c => c.update.apply r) record

def mergeCalls (cs : List TimeCall) : Option TimeUpdate := cs.foldl queueCall none

def assignedMtime (record : InodeRecord) (cs : List TimeCall) : Time :=
  cs.foldl (fun m c => c.update.mtime.getD m) record.mtime

def SparesMtime (c : TimeCall) : Prop := c.update.bump = none ∧ c.update.mtime = none

def NamesClock (c : TimeCall) : Prop :=
  c.update.bump = none ∧ (c.update.atime.isSome ∨ c.update.mtime.isSome ∨ c.update.ctime.isSome)

def Raised (record : InodeRecord) (P : List TimeCall → Prop) (cs : List TimeCall) : Prop :=
  ∃ before moment after, cs = before ++ .touch moment :: after ∧ (∀ c ∈ after, SparesMtime c) ∧
    P after ∧ assignedMtime record before < moment

def LosesTouch (record : InodeRecord) (cs : List TimeCall) : Prop :=
  Raised record (fun after => ∃ c ∈ after, NamesClock c) cs

/-! ## The last change -/

section

variable {record : InodeRecord} {P : List TimeCall → Prop} {cs : List TimeCall} {c : TimeCall}

theorem raised_concat : Raised record P (cs ++ [c]) ↔
    (∃ moment, c = .touch moment ∧ P [] ∧ assignedMtime record cs < moment) ∨
    SparesMtime c ∧ Raised record (fun after => P (after ++ [c])) cs := by
  constructor
  · rintro ⟨before, moment, after, heq, hspare, hP, hlt⟩
    rcases eq_nil_or_concat' after with rfl | ⟨after, c', rfl⟩
    · obtain ⟨rfl, hc⟩ := append_inj' heq rfl
      exact .inl ⟨moment, head_eq_of_cons_eq hc, hP, hlt⟩
    · rw [← cons_append, ← append_assoc] at heq
      obtain ⟨rfl, hc⟩ := append_inj' heq rfl
      obtain rfl := head_eq_of_cons_eq hc
      have hspares := forall_mem_append.mp hspare
      exact .inr ⟨hspares.2 _ (mem_singleton_self _),
        before, moment, after, rfl, hspares.1, hP, hlt⟩
  · rintro (⟨moment, rfl, hP, hlt⟩ | ⟨hc, before, moment, after, rfl, hspare, hP, hlt⟩)
    · exact ⟨cs, moment, [], rfl, fun _ h => (nomatch h), hP, hlt⟩
    · refine ⟨before, moment, after ++ [c], ?_, ?_, hP, hlt⟩
      · rw [append_assoc, cons_append]
      · exact forall_mem_append.mpr ⟨hspare, forall_mem_singleton.mpr hc⟩

theorem raised_congr {Q : List TimeCall → Prop} (h : ∀ after, P after ↔ Q after) :
    Raised record P cs ↔ Raised record Q cs := by
  simp only [Raised, h]

theorem raised_concat_assign {a m c : Option Time} : Raised record P (cs ++ [.assign a m c]) ↔
    m = none ∧ Raised record (fun after => P (after ++ [.assign a m c])) cs := by
  rw [raised_concat]
  constructor
  · rintro (⟨_, h, -⟩ | ⟨h, hraised⟩)
    · cases h
    · exact ⟨h.2, hraised⟩
  · rintro ⟨h, hraised⟩
    exact .inr ⟨⟨rfl, h⟩, hraised⟩

theorem not_raised_nil : ¬ Raised record P [] := by
  rintro ⟨before, moment, after, heq, -⟩
  exact append_ne_nil_of_right_ne_nil _ (cons_ne_nil _ _) heq.symm

theorem assignedMtime_concat :
    assignedMtime record (cs ++ [c]) = c.update.mtime.getD (assignedMtime record cs) := by
  rw [assignedMtime, foldl_append]
  rfl

theorem applyEach_concat : applyEach record (cs ++ [c]) = c.update.apply (applyEach record cs) := by
  rw [applyEach, foldl_append]
  rfl

theorem mergeCalls_concat : mergeCalls (cs ++ [c]) = queueCall (mergeCalls cs) c := by
  rw [mergeCalls, foldl_append]
  rfl

theorem touches_append (cs ds : List TimeCall) :
    touches (cs ++ ds) = touches cs ++ touches ds := filterMap_append

theorem touches_concat_touch {moment : Time} :
    touches (cs ++ [.touch moment]) = touches cs ++ [moment] := touches_append cs _

theorem touches_concat_assign {atime mtime ctime : Option Time} :
    touches (cs ++ [.assign atime mtime ctime]) = touches cs :=
  (touches_append cs _).trans (append_nil _)

end

/-! ## The modification time of the changes -/

section

variable {record : InodeRecord} {cs : List TimeCall} {moment : Time}

theorem assignedMtime_le : assignedMtime record cs ≤ (applyEach record cs).mtime := by
  induction cs using reverseRecOn with
  | nil => exact Int.le_refl _
  | append_singleton cs c ih =>
    rw [assignedMtime_concat, applyEach_concat, apply_mtime]
    refine Int.le_trans ?_ (le_forward _ _)
    cases c.update.mtime with
    | none => exact ih
    | some m => exact Int.le_refl _

theorem mtime_le_of_touches (h : ∀ t ∈ touches cs, t ≤ moment) :
    (applyEach record cs).mtime ≤ assignedMtime record cs ∨
      (applyEach record cs).mtime ≤ moment := by
  induction cs using reverseRecOn with
  | nil => exact .inl (Int.le_refl _)
  | append_singleton cs c ih =>
    rw [assignedMtime_concat, applyEach_concat, apply_mtime]
    cases c with
    | touch t =>
      rw [touches_concat_touch, forall_mem_append, forall_mem_singleton] at h
      rw [TimeCall.update, forward_some]
      rcases Int.le_total (applyEach record cs).mtime t with hle | hle
      · exact .inr (Int.max_le.mpr ⟨Int.le_trans hle h.2, h.2⟩)
      · rw [getD_none, Int.max_eq_left hle]
        exact ih h.1
    | assign a m c =>
      rw [touches_concat_assign] at h
      cases m with
      | none => exact ih h
      | some m => exact .inl (Int.le_refl _)

theorem mtime_eq_assigned_iff (hmono : (touches cs).Pairwise (· ≤ ·)) :
    (applyEach record cs).mtime = assignedMtime record cs ↔ ¬ Raised record (fun _ => True) cs := by
  induction cs using reverseRecOn with
  | nil => exact iff_of_true rfl not_raised_nil
  | append_singleton cs c ih =>
    rw [assignedMtime_concat, applyEach_concat, apply_mtime]
    cases c with
    | touch t =>
      rw [raised_concat]
      rw [touches_concat_touch, pairwise_append] at hmono
      have hle : assignedMtime record cs ≤ (applyEach record cs).mtime := assignedMtime_le
      have hup : (applyEach record cs).mtime ≤ assignedMtime record cs ∨
          (applyEach record cs).mtime ≤ t :=
        mtime_le_of_touches fun t' ht' => hmono.2.2 t' ht' t (mem_singleton_self t)
      have hspare : ¬ SparesMtime (.touch t) := fun h => absurd h.1 (some_ne_none _)
      simp only [TimeCall.update, getD_none, forward_some, hspare, false_and, or_false,
        TimeCall.touch.injEq, true_and, exists_eq_left']
      grind
    | assign a m c =>
      rw [raised_concat_assign]
      cases m with
      | none =>
        rw [touches_concat_assign] at hmono
        exact (ih hmono).trans (not_congr (and_iff_right rfl).symm)
      | some m => exact iff_of_true rfl fun h => absurd h.1 (some_ne_none _)

end

/-! ## The merged update -/

section

variable {record : InodeRecord} {cs : List TimeCall}

def owed (cs : List TimeCall) : TimeUpdate := (mergeCalls cs).getD .nothing

theorem owed_bump {b : Time} (h : b ∈ (owed cs).bump) : b ∈ touches cs := by
  induction cs using reverseRecOn with
  | nil => cases h
  | append_singleton cs c ih =>
    rw [owed, mergeCalls_concat] at h
    cases c with
    | touch t =>
      rw [touches_concat_touch, mem_append]
      simp only [queueCall, queueTouch, getD_some] at h
      split at h
      · obtain rfl := mem_some_iff.mp h
        exact .inr (mem_singleton_self _)
      · exact .inl (ih h)
    | assign a m c =>
      rw [touches_concat_assign]
      exact ih (queueInodeTimes_bump h)

theorem owed_touch {t : Time} (h : ∀ t' ∈ touches cs, t' ≤ t) :
    owed (cs ++ [.touch t]) = { owed cs with bump := some t } := by
  rw [owed, mergeCalls_concat, queueCall, queueTouch_eq fun b hb => h b (owed_bump hb)]
  rfl

theorem owed_assign {a m c : Option Time} :
    owed (cs ++ [.assign a m c]) = (queueInodeTimes (mergeCalls cs) a m c).getD .nothing := by
  rw [owed, mergeCalls_concat, queueCall]

theorem owed_empty : owed (cs ++ [.assign none none none]) = owed cs := by
  rw [owed_assign]
  rfl

theorem owed_bump_named {a m c : Option Time} (h : NamesClock (.assign a m c)) :
    (owed (cs ++ [.assign a m c])).bump = none := by
  rw [owed_assign, queueInodeTimes, if_neg]
  · rfl
  · rintro ⟨ha, hm, hc⟩
    rw [isNone_iff_eq_none] at ha hm hc
    subst ha hm hc
    rcases h.2 with h | h | h <;> cases h

theorem owed_atime (hmono : (touches cs).Pairwise (· ≤ ·)) :
    ((owed cs).apply record).atime = (applyEach record cs).atime := by
  induction cs using reverseRecOn with
  | nil => rfl
  | append_singleton cs c ih =>
    rw [applyEach_concat, apply_atime, apply_atime]
    rw [apply_atime] at ih
    cases c with
    | touch t =>
      rw [touches_concat_touch, pairwise_append] at hmono
      rw [owed_touch fun t' ht' => hmono.2.2 t' ht' t (mem_singleton_self t)]
      exact ih hmono.1
    | assign a m c =>
      rw [touches_concat_assign] at hmono
      rw [owed_assign, queueInodeTimes_clocks.1, getD_or]
      exact congrArg a.getD (ih hmono)

theorem owed_mtime (hmono : (touches cs).Pairwise (· ≤ ·)) :
    (owed cs).mtime.getD record.mtime = assignedMtime record cs := by
  induction cs using reverseRecOn with
  | nil => rfl
  | append_singleton cs c ih =>
    rw [assignedMtime_concat]
    cases c with
    | touch t =>
      rw [touches_concat_touch, pairwise_append] at hmono
      rw [owed_touch fun t' ht' => hmono.2.2 t' ht' t (mem_singleton_self t)]
      exact ih hmono.1
    | assign a m c =>
      rw [touches_concat_assign] at hmono
      rw [owed_assign, queueInodeTimes_clocks.2, getD_or]
      exact congrArg m.getD (ih hmono)

theorem owed_mtime_iff (hmono : (touches cs).Pairwise (· ≤ ·)) :
    ((owed cs).apply record).mtime = (applyEach record cs).mtime ↔ ¬ LosesTouch record cs := by
  induction cs using reverseRecOn with
  | nil => exact iff_of_true rfl not_raised_nil
  | append_singleton cs c ih =>
    rw [LosesTouch, apply_mtime, owed_mtime hmono, assignedMtime_concat, applyEach_concat,
      apply_mtime]
    cases c with
    | touch t =>
      rw [raised_concat]
      rw [touches_concat_touch, pairwise_append] at hmono
      have hlast := fun t' ht' => hmono.2.2 t' ht' t (mem_singleton_self t)
      refine iff_of_true ?_ ?_
      · rw [owed_touch hlast]
        exact forward_of_le assignedMtime_le (mtime_le_of_touches hlast)
      · rintro (⟨_, _, ⟨c, hc, _⟩, _⟩ | ⟨h, _⟩)
        · cases hc
        · exact absurd h.1 (some_ne_none _)
    | assign a m c =>
      rw [touches_concat_assign] at hmono
      rw [raised_concat_assign]
      by_cases hnames : NamesClock (.assign a m c)
      · have hafter : ∀ after : List TimeCall,
            (∃ c' ∈ after ++ [.assign a m c], NamesClock c') ↔ True := fun after =>
          iff_true_intro ⟨_, mem_concat_self, hnames⟩
        rw [owed_bump_named hnames, raised_congr hafter]
        cases m with
        | none => exact eq_comm.trans ((mtime_eq_assigned_iff hmono).trans
            (not_congr (and_iff_right rfl).symm))
        | some m => exact iff_of_true rfl fun h => absurd h.1 (some_ne_none _)
      · -- An assignment that names no clock is not queued.
        obtain ⟨rfl, rfl, rfl⟩ : a = none ∧ m = none ∧ c = none := by
          simpa [NamesClock, TimeCall.update] using hnames
        have hafter : ∀ after : List TimeCall,
            (∃ c' ∈ after ++ [.assign none none none], NamesClock c') ↔
              ∃ c' ∈ after, NamesClock c' := fun after => by
          simp only [mem_append, mem_singleton, or_and_right, exists_or, exists_eq_left,
            hnames, or_false]
        rw [owed_empty, raised_congr hafter]
        rw [apply_mtime, owed_mtime hmono] at ih
        exact (ih hmono).trans (not_congr (and_iff_right rfl).symm)

end

/-! ## Taking updates out and giving them back -/

section

variable {done seg : List TimeCall} {u : TimeUpdate}

theorem mergeCalls_append (hmono : (touches (done ++ seg)).Pairwise (· ≤ ·))
    (hu : mergeCalls done = some u) : mergeCalls (done ++ seg) = requeue (mergeCalls seg) u := by
  induction seg using reverseRecOn with
  | nil => rw [append_nil, hu]; rfl
  | append_singleton seg c ih =>
    rw [← append_assoc] at hmono ⊢
    have hsorted : (touches (done ++ seg)).Pairwise (· ≤ ·) := by
      rw [touches_append] at hmono
      exact (pairwise_append.mp hmono).1
    rw [mergeCalls_concat, mergeCalls_concat, ih hsorted]
    refine queueCall_requeue c ?_
    rintro t rfl b hb
    have hdone : b ∈ touches done := owed_bump (by rwa [owed, hu])
    rw [touches_concat_touch, pairwise_append, touches_append] at hmono
    exact hmono.2.2 b (mem_append_left _ hdone) t (mem_singleton_self t)

/-- The queue by the numbered calls that its updates are merged from. -/
structure CallQueue where
  waiting : List (TimeCall × Nat) := []
  out : List (List (TimeCall × Nat)) := []
  calls : List TimeCall := []

def merged (l : List (TimeCall × Nat)) : Option TimeUpdate := mergeCalls (l.map Prod.fst)

def CallQueue.given (s : CallQueue) : TimeQueue.Act → List (TimeCall × Nat)
  | .requeue i => s.out.getD i []
  | .call _ | .take => []

def callQueue : Machine CallQueue TimeQueue.Act where
  step s a := some <| match a with
    | .call c =>
      { s with waiting := s.waiting ++ [(c, s.calls.length)], calls := s.calls ++ [c] }
    | .take =>
      if merged s.waiting = none then s else { s with waiting := [], out := s.waiting :: s.out }
    | .requeue i => { s with waiting := s.given a ++ s.waiting, out := s.out.eraseIdx i }

/-- What is given back is older than all that waits. -/
def OntoNewer (s : CallQueue) (a : TimeQueue.Act) : Prop :=
  ∀ x ∈ s.given a, ∀ y ∈ s.waiting, x.2 < y.2
  deriving Decidable

structure Stands (s : CallQueue) (q : TimeQueue) : Prop where
  perm : (s.waiting ++ s.out.flatten).Perm s.calls.zipIdx
  sorted : ∀ l ∈ s.waiting :: s.out, l.Pairwise (·.2 < ·.2)
  queued : q.queued = merged s.waiting
  taken : q.taken.map some = s.out.map merged

theorem zipIdx_sorted (cs : List TimeCall) : cs.zipIdx.Pairwise (·.2 < ·.2) := by
  induction cs using reverseRecOn with
  | nil => exact Pairwise.nil
  | append_singleton cs c ih =>
    rw [zipIdx_append, pairwise_append]
    refine ⟨ih, pairwise_singleton _ _, fun x hx y hy => ?_⟩
    obtain rfl := mem_singleton.mp hy
    simpa using snd_lt_of_mem_zipIdx hx

namespace Stands

variable {s t : CallQueue} {q q' : TimeQueue}

theorem call (h : Stands s q) (c : TimeCall) :
    Stands { s with waiting := s.waiting ++ [(c, s.calls.length)], calls := s.calls ++ [c] }
      { q with queued := queueCall q.queued c } where
  perm := by
    have hcomm : (s.waiting ++ [(c, s.calls.length)] ++ s.out.flatten).Perm
        (s.waiting ++ s.out.flatten ++ [(c, s.calls.length)]) := by
      rw [append_assoc, append_assoc]
      exact perm_append_comm.append_left _
    simpa [zipIdx_append] using hcomm.trans (h.perm.append_right _)
  sorted := by
    refine forall_mem_cons.mpr ⟨?_, fun l hl => h.sorted l (mem_cons_of_mem _ hl)⟩
    refine pairwise_append.mpr ⟨h.sorted _ mem_cons_self, pairwise_singleton _ _, ?_⟩
    intro x hx y hy
    obtain rfl := mem_singleton.mp hy
    exact snd_lt_of_mem_zipIdx (h.perm.mem_iff.mp (mem_append_left _ hx))
  queued := by
    rw [merged, map_append, map_singleton, mergeCalls_concat, h.queued, merged]
  taken := h.taken

theorem take (h : Stands s q) (hu : q.queued = some u) :
    Stands { s with waiting := [], out := s.waiting :: s.out } ⟨none, u :: q.taken⟩ where
  perm := h.perm
  sorted := forall_mem_cons.mpr ⟨Pairwise.nil, h.sorted⟩
  queued := rfl
  taken := by rw [map_cons, map_cons, h.taken, ← h.queued, hu]

theorem requeue (h : Stands s q) (hmono : (touches s.calls).Pairwise (· ≤ ·)) {i : Nat}
    (hu : q.taken[i]? = some u) (hnewer : OntoNewer s (.requeue i)) :
    Stands { s with waiting := s.given (.requeue i) ++ s.waiting, out := s.out.eraseIdx i }
      ⟨Ipc.requeue q.queued u, q.taken.eraseIdx i⟩ := by
  have hout : (s.out.map merged)[i]? = some (some u) := by
    rw [← h.taken, getElem?_map, hu, map_some]
  rw [getElem?_map] at hout
  obtain ⟨l, hl, hmerged⟩ := map_eq_some_iff.mp hout
  obtain ⟨hi, rfl⟩ := List.getElem?_eq_some_iff.mp hl
  have hgiven : s.given (.requeue i) = s.out[i] := by
    rw [CallQueue.given, getD_eq_getElem?_getD, hl, getD_some]
  rw [OntoNewer, hgiven] at hnewer
  have hperm : ((s.out[i] ++ s.waiting) ++ (s.out.eraseIdx i).flatten).Perm s.calls.zipIdx := by
    refine Perm.trans ?_ (((getElem_cons_eraseIdx_perm hi).flatten.append_left _).trans h.perm)
    rw [flatten_cons, ← append_assoc]
    exact perm_append_comm.append_right _
  have hsorted : (s.out[i] ++ s.waiting).Pairwise (·.2 < ·.2) := pairwise_append.mpr
    ⟨h.sorted _ (mem_cons_of_mem _ (getElem_mem hi)), h.sorted _ mem_cons_self, hnewer⟩
  rw [hgiven]
  refine ⟨hperm, forall_mem_cons.mpr ⟨hsorted, fun l hl => ?_⟩, ?_, ?_⟩
  · exact h.sorted l (mem_cons_of_mem _ (mem_of_mem_eraseIdx hl))
  · -- Numbered calls in order are a part of all the calls.
    have : Std.Antisymm fun x y : TimeCall × Nat => x.2 < y.2 :=
      ⟨fun _ _ hlt hlt' => absurd hlt hlt'.asymm⟩
    have hsub : (s.out[i] ++ s.waiting).Sublist s.calls.zipIdx :=
      sublist_of_subperm_of_pairwise ((sublist_append_left _ _).subperm.trans hperm.subperm)
        hsorted (zipIdx_sorted _)
    have hcalls := hsub.map Prod.fst
    rw [zipIdx_map_fst, map_append] at hcalls
    rw [merged, map_append, mergeCalls_append (hmono.sublist (hcalls.filterMap _)) hmerged,
      h.queued, merged]
  · rw [← eraseIdx_map, h.taken, eraseIdx_map]

theorem exec (h : Stands s q) {as : List TimeQueue.Act}
    (hmono : (touches (s.calls ++ TimeQueue.calls as)).Pairwise (· ≤ ·))
    (hback : callQueue.Along (fun s a _ => OntoNewer s a) s as)
    (hexec : TimeQueue.machine.exec q as = some q') :
    ∃ t : CallQueue, Stands t q' ∧ t.calls = s.calls ++ TimeQueue.calls as := by
  induction as generalizing s q with
  | nil =>
    cases hexec
    exact ⟨s, h, (append_nil _).symm⟩
  | cons a as ih =>
    obtain ⟨u, hstep, hexec⟩ := TimeQueue.machine.exec_cons.mp hexec
    obtain ⟨hnewer, hback⟩ := hback _ rfl
    cases a with
    | call c =>
      have hcalls : s.calls ++ TimeQueue.calls (.call c :: as) =
          s.calls ++ [c] ++ TimeQueue.calls as := (append_assoc _ [c] _).symm
      cases hstep
      rw [hcalls] at hmono ⊢
      exact ih (h.call c) hmono hback hexec
    | take =>
      have hqueued := h.queued
      simp only [TimeQueue.machine] at hstep
      split at hstep
      · next hnone =>
        cases hstep
        rw [hnone] at hqueued
        rw [if_pos hqueued.symm] at hback
        exact ih h hmono hback hexec
      · next u hu =>
        cases hstep
        rw [hu] at hqueued
        rw [if_neg (hqueued ▸ some_ne_none u)] at hback
        exact (ih (h.take hu) hmono hback hexec :)
    | requeue i =>
      obtain ⟨u, hu, rfl⟩ := map_eq_some_iff.mp hstep
      have hsorted : (touches s.calls).Pairwise (· ≤ ·) := by
        rw [touches_append] at hmono
        exact (pairwise_append.mp hmono).1
      exact (ih (h.requeue hsorted hu hnewer) hmono hback hexec :)

end Stands

end

/-! ## The result -/

/-- After every run that starts with nothing queued, touches at times that do not go back, gives
every update it took back, and gives none back onto an older one: the update that is left makes of
a record's access time what the changes make of it one by one, and so it does of the
modification time exactly if no touch was lost. -/
theorem merged_times (record : InodeRecord) (as : List TimeQueue.Act) (queued : Option TimeUpdate)
    (hmono : (touches (TimeQueue.calls as)).Pairwise (· ≤ ·))
    (hback : callQueue.Along (fun s a _ => OntoNewer s a) {} as)
    (hexec : TimeQueue.machine.exec {} as = some ⟨queued, []⟩) :
    (pendingInodeTimes queued record).atime = (applyEach record (TimeQueue.calls as)).atime ∧
    ((pendingInodeTimes queued record).mtime = (applyEach record (TimeQueue.calls as)).mtime ↔
      ¬ LosesTouch record (TimeQueue.calls as)) := by
  have hstart : Stands {} {} := ⟨Perm.refl _, forall_mem_singleton.mpr Pairwise.nil, rfl, rfl⟩
  obtain ⟨t, ht, hcalls⟩ := hstart.exec hmono hback hexec
  have hperm := ht.perm
  rw [map_eq_nil_iff.mp ht.taken.symm, flatten_nil, append_nil] at hperm
  have hall : t.waiting = t.calls.zipIdx := hperm.eq_of_pairwise
    (fun _ _ _ _ hlt hlt' => absurd hlt hlt'.asymm) (ht.sorted _ mem_cons_self) (zipIdx_sorted _)
  have hqueued : queued = mergeCalls (TimeQueue.calls as) := by
    have hmerged := ht.queued
    rwa [hall, merged, zipIdx_map_fst, hcalls] at hmerged
  rw [hqueued, pendingInodeTimes_eq]
  exact ⟨owed_atime hmono, owed_mtime_iff hmono⟩

def failedSweeps : List TimeQueue.Act :=
  [.call (.touch 10), .take, .call (.assign (some 30) (some 5) none), .take, .call (.touch 20),
    .requeue 0, .requeue 0]

theorem merged_times_failedSweeps :
    ∃ queued, TimeQueue.machine.exec {} failedSweeps = some ⟨queued, []⟩ ∧
      (pendingInodeTimes queued (regularFile 7)).atime = 30 ∧
      (pendingInodeTimes queued (regularFile 7)).mtime = 20 ∧
      ¬ LosesTouch (regularFile 7) (TimeQueue.calls failedSweeps) := by
  have hmerged := merged_times (regularFile 7) failedSweeps _ (by decide) (by decide) rfl
  exact ⟨_, rfl, rfl, rfl, hmerged.2.mp rfl⟩

/-- A touch waits, and then the access time is assigned: the touch is lost. Two updates are
taken and given back in the order they were taken in: the older access time wins. -/
theorem touch_lost :
    (∃ queued, TimeQueue.machine.exec {}
        [.call (.touch 50), .call (.assign (some 70) none none)] = some ⟨queued, []⟩ ∧
      (pendingInodeTimes queued (regularFile 7)).mtime = 0 ∧
      (applyEach (regularFile 7) [.touch 50, .assign (some 70) none none]).mtime = 50) ∧
    ∃ queued, TimeQueue.machine.exec {}
        [.call (.assign (some 5) none none), .take, .call (.assign (some 9) none none), .take,
          .requeue 1, .requeue 0] = some ⟨queued, []⟩ ∧
      (pendingInodeTimes queued (regularFile 7)).atime = 5 ∧
      (applyEach (regularFile 7) [.assign (some 5) none none, .assign (some 9) none none]).atime =
        9 :=
  ⟨⟨_, rfl, rfl, rfl⟩, _, rfl, rfl, rfl⟩

end EtcFS.Correctness
