import EtcFS.Ipc.Sections

/-!
# What the buffers hold, and what the totals say

Over all entries, the totals and the additions still to be made are what the buffers hold, at every
step of every run.
-/

namespace EtcFS.Correctness

open EtcFS.Core Ipc List Option

/-! ## One section -/

def held (p : Option Pending) : Int × Int :=
  p.elim 0 fun p => ((p.ops.length : Int), (p.bytes : Int))

def Evens (e : BufEntry) (w : Work) : Prop := held w.entry.pending = held e.pending + w.adds.sum

section

variable {e : BufEntry} {w w' : Work}

theorem evens_start (e : BufEntry) : Evens e (.start e) := (add_zero _).symm

theorem Evens.setHeld (h : Evens e w) (b : Bool) : Evens e (w.setHeld b) := h

theorem Evens.moved (h : Evens e w) {p : Pending} {n m : Int}
    (hp : held (some p) = held w.entry.pending + (n, m)) :
    Evens e ((w.setPending p).bufferAccounted n m) := by
  change held (some p) = held e.pending + (w.adds ++ [(n, 0), (0, m)]).sum
  rw [sum_append, hp, h, add_assoc]
  congr 1
  simp

theorem Evens.emptied (h : Evens e w) (hw : w.emptied = some w') : Evens e w' := by
  obtain ⟨p, hp, rfl⟩ := map_eq_some_iff.mp hw
  refine h.moved ?_
  rw [hp]
  simp [held, Pending.none]

theorem Evens.forgetKeyLocked (h : Evens e w) (hw : w.forgetKeyLocked = some w') : Evens e w' := by
  unfold Work.forgetKeyLocked at hw
  split_ifs at hw
  · cases hw
    exact h.setHeld _
  · exact (h.setHeld false).emptied hw

theorem Evens.flushLocked (h : Evens e w) {f : FlushOutcome} {ok : Bool}
    (hw : w.flushLocked f = some (ok, w')) : Evens e w' := by
  have hmap : ∀ {x : Option Work} {b : Bool}, (∀ w', x = some w' → Evens e w') →
      (x.map fun w => (b, w)) = some (ok, w') → Evens e w' := by
    intro x b hx hmap
    obtain ⟨w₁, hw₁, heq⟩ := map_eq_some_iff.mp hmap
    cases heq
    exact hx _ hw₁
  unfold Work.flushLocked at hw
  split_ifs at hw
  · cases hw
    exact h
  · exact hmap (fun _ => h.emptied) hw
  · cases f with
    | committed | landed | fenced => exact hmap (fun _ => h.emptied) hw
    | keyLost => exact hmap (fun _ => h.forgetKeyLocked) hw
    | unstored | failed | rejected =>
      cases hw
      exact h

theorem Evens.dropCachedLock (h : Evens e w) {f : FlushOutcome} {invalidated ok : Bool}
    (hw : w.dropCachedLock f invalidated = some (ok, w')) : Evens e w' := by
  obtain ⟨⟨yields, w₁⟩, hprepare, hw⟩ := bind_eq_some_iff.mp hw
  obtain ⟨⟨b, w₂⟩, hflush, heq⟩ := map_eq_some_iff.mp hprepare
  obtain ⟨-, rfl⟩ := Prod.mk.inj heq
  have h₁ := h.flushLocked hflush
  cases yields with
  | true =>
    obtain ⟨w₃, hforget, heq⟩ := map_eq_some_iff.mp hw
    cases heq
    exact h₁.forgetKeyLocked hforget
  | false =>
    cases hw
    exact h₁

theorem Evens.bufferWrite (h : Evens e w) {cap : Nat} {a : BufferArgs} {f : FlushOutcome}
    (hw : w.bufferWrite cap a f = some w') : Evens e w' := by
  have hheld : held (some (w.entry.pending.getD .none)) = held w.entry.pending := by
    cases w.entry.pending <;> rfl
  have hmade : Evens e (w.setPending (w.entry.pending.getD .none)) := hheld.trans h
  simp only [Work.bufferWrite] at hw
  split_ifs at hw
  · obtain ⟨⟨ok, w₁⟩, hflush, rfl⟩ := map_eq_some_iff.mp hw
    exact hmade.flushLocked hflush
  · cases hw
    refine hmade.moved ?_
    simp [held, Work.setPending, Pending.add]

theorem Evens.run {cap : Nat} {sec : Section} (hw : sec.run cap (.start e) = some w) :
    Evens e w := by
  have h := evens_start e
  cases sec with
  | bufferWrite a f => exact h.bufferWrite hw
  | flush f =>
    obtain ⟨⟨ok, w₁⟩, hflush, rfl⟩ := map_eq_some_iff.mp hw
    exact h.flushLocked hflush
  | drop f invalidated =>
    obtain ⟨⟨ok, w₁⟩, hdrop, rfl⟩ := map_eq_some_iff.mp hw
    exact h.dropCachedLock hdrop
  | lastChance invalidated =>
    obtain ⟨w₁, hdiscard, hrelease⟩ := bind_eq_some_iff.mp hw
    have h₁ := h.emptied hdiscard
    unfold Work.releaseKeyLocked at hrelease
    split_ifs at hrelease
    · exact h₁.forgetKeyLocked hrelease
    · cases hrelease
      exact h₁
  | release invalidated =>
    simp only [Section.run, Work.releaseKeyLocked] at hw
    split_ifs at hw
    · exact h.forgetKeyLocked hw
    · cases hw
      exact h
  | keyLost => exact h.forgetKeyLocked hw
  | acquire =>
    cases hw
    exact h.setHeld _

end

/-! ## All entries -/

def counted (e : LockedEntry) : Int × Int := held e.entry.pending - (e.adds.getD []).sum

def Tallied (s : BufferTotals) : Prop := s.totals = (s.entries.map counted).sum

theorem Tallied.set {s : BufferTotals} (h : Tallied s) {i : Nat} {e e' : LockedEntry}
    (he : s.entries[i]? = some e) {a : Int × Int} (hcount : counted e' = counted e + a) :
    Tallied { s.set i e' with totals := s.totals + a } := by
  obtain ⟨hi, rfl⟩ := List.getElem?_eq_some_iff.mp he
  change s.totals + a = ((s.entries.set i e').map counted).sum
  rw [map_set, sum_set', dif_pos (by rwa [List.length_map]), List.getElem_map, hcount, h]
  abel

theorem Tallied.step {cap : Nat} {s t : BufferTotals} {a : TotalsStep} (h : Tallied s)
    (hstep : (bufferTotals cap).step s a = some t) : Tallied t := by
  -- Only `add` changes the totals; the other steps leave what is counted of an entry.
  have hkeep : ∀ {i e e'}, s.entries[i]? = some e → counted e' = counted e →
      Tallied (s.set i e') := by
    intro i e e' he hcount
    have hset := h.set he (a := 0) (by rw [hcount, add_zero])
    rwa [add_zero] at hset
  cases a with
  | create =>
    cases hstep
    change s.totals = ((s.entries ++ [_]).map counted).sum
    rw [map_append, sum_append, ← h]
    exact (add_zero _).symm
  | lock i sec =>
    simp only [bufferTotals] at hstep
    split at hstep
    · next e he =>
      obtain ⟨w, hw, rfl⟩ := map_eq_some_iff.mp hstep
      refine hkeep he ?_
      have heven := Evens.run hw
      change held w.entry.pending - w.adds.sum = held e.pending - 0
      rw [heven]
      abel
    · cases hstep
  | add i =>
    simp only [bufferTotals] at hstep
    split at hstep
    · next e a adds he =>
      cases hstep
      refine h.set he ?_
      change held e.pending - adds.sum = held e.pending - (a :: adds).sum + a
      rw [sum_cons]
      abel
    · cases hstep
  | unlock i =>
    simp only [bufferTotals] at hstep
    split at hstep
    · next e he =>
      cases hstep
      exact hkeep he rfl
    · cases hstep

def bufferedKeys (es : List LockedEntry) : Nat :=
  (es.map fun e => e.entry.pending.elim 0 fun p => p.ops.length).sum

def bufferedBytes (es : List LockedEntry) : Nat :=
  (es.map fun e => e.entry.pending.elim 0 Pending.bytes).sum

theorem sum_counted {es : List LockedEntry} (hfree : ∀ e ∈ es, e.adds = none) :
    (es.map counted).sum = ((bufferedKeys es : Int), (bufferedBytes es : Int)) := by
  induction es with
  | nil => rfl
  | cons e es ih =>
    have hcount : counted e = held e.entry.pending := by
      rw [counted, hfree e mem_cons_self]
      exact sub_zero _
    rw [map_cons, sum_cons, hcount, ih fun e he => hfree e (mem_cons_of_mem _ he)]
    cases hp : e.entry.pending <;> simp [bufferedKeys, bufferedBytes, hp, held]

/-- Whenever no lock is held, the totals are what all the buffers hold. -/
theorem totals_eq_buffered (cap : Nat) {steps : List TotalsStep} {s : BufferTotals}
    (hrun : (bufferTotals cap).exec .start steps = some s)
    (hfree : ∀ e ∈ s.entries, e.adds = none) :
    s.totals = ((bufferedKeys s.entries : Int), (bufferedBytes s.entries : Int)) := by
  have hstart : Tallied .start := rfl
  have htally : Tallied s :=
    Machine.Along.invariant (fun _ _ _ h _ hstep => Tallied.step h hstep) hstart
      (Machine.along_true _ steps) hrun
  rw [htally, sum_counted hfree]

def sampleBuffered : BufferArgs := ⟨[], [.delete (.inode 3), .delete (.inode 4)], [], 10, [], []⟩

def sampleSteps : List TotalsStep :=
  [.create, .create, .lock 0 .acquire, .unlock 0, .lock 0 (.bufferWrite sampleBuffered .failed),
    .lock 1 (.bufferWrite sampleBuffered .failed), .add 1, .add 0, .add 0, .unlock 0,
    .lock 0 (.flush .committed), .add 0, .add 1, .add 0, .unlock 1, .unlock 0]

theorem totals_eq_buffered_sample : ∃ s, (bufferTotals 100).exec .start sampleSteps = some s ∧
    s.totals = ((bufferedKeys s.entries : Int), (bufferedBytes s.entries : Int)) ∧
      s.totals = (2, 10) := by
  have hrun : ((bufferTotals 100).exec .start sampleSteps).isSome = true := by decide +kernel
  have hend : ∀ s ∈ (bufferTotals 100).exec .start sampleSteps,
      (∀ e ∈ s.entries, e.adds = none) ∧ s.totals = (2, 10) := by decide +kernel
  obtain ⟨s, hs⟩ := isSome_iff_exists.mp hrun
  obtain ⟨hfree, htotals⟩ := hend s hs
  exact ⟨s, hs, totals_eq_buffered 100 hs hfree, htotals⟩

/-! ## Shutdown -/

section

variable {e : BufEntry} {w w' : Work}

theorem emptied_eq (h : w.entry.pending ≠ none) :
    ∃ w', w.emptied = some w' ∧ w'.isEmpty = true := by
  obtain ⟨p, hp⟩ := ne_none_iff_exists'.mp h
  exact ⟨_, by rw [Work.emptied, hp, map_some], rfl⟩

theorem pending_of_not_isEmpty (h : ¬ w.isEmpty = true) : w.entry.pending ≠ none := by
  intro hnone
  rw [Work.isEmpty, hnone] at h
  exact h rfl

theorem forgetKeyLocked_eq (w : Work) : ∃ w', w.forgetKeyLocked = some w' ∧ w'.isEmpty = true := by
  unfold Work.forgetKeyLocked
  split_ifs with hempty
  · exact ⟨_, rfl, hempty⟩
  · exact emptied_eq (pending_of_not_isEmpty hempty)

theorem pending_of_emptied (h : w.emptied = some w') : w'.entry.pending ≠ none := by
  obtain ⟨p, -, rfl⟩ := map_eq_some_iff.mp h
  exact some_ne_none _

/-- A flush never meets a nil buffer, and leaves none where there was none before. -/
theorem flushLocked_eq (w : Work) (f : FlushOutcome) : ∃ ok w', w.flushLocked f = some (ok, w') ∧
    (w.entry.pending ≠ none → w'.entry.pending ≠ none) := by
  have hmap : ∀ {x : Option Work} (b : Bool), (∃ w', x = some w' ∧ w'.entry.pending ≠ none) →
      ∃ ok w', (x.map fun w => (b, w)) = some (ok, w') ∧
        (w.entry.pending ≠ none → w'.entry.pending ≠ none) := by
    rintro x b ⟨w', rfl, hw'⟩
    exact ⟨b, w', rfl, fun _ => hw'⟩
  unfold Work.flushLocked
  split_ifs with hempty hheld
  · exact ⟨true, w, rfl, id⟩
  all_goals
    have hpending := pending_of_not_isEmpty hempty
    have hemptied : ∃ w', w.emptied = some w' ∧ w'.entry.pending ≠ none := by
      obtain ⟨w', hw', -⟩ := emptied_eq hpending
      exact ⟨w', hw', pending_of_emptied hw'⟩
  · exact hmap true hemptied
  · cases f with
    | committed | landed | fenced => exact hmap _ hemptied
    | keyLost =>
      refine hmap false ?_
      rw [Work.keyLostLocked, Work.forgetKeyLocked, if_neg hempty]
      obtain ⟨w', hw', -⟩ := emptied_eq (w := w.setHeld false) hpending
      exact ⟨w', hw', pending_of_emptied hw'⟩
    | unstored | failed | rejected => exact ⟨false, w, rfl, id⟩

theorem lastChance_eq (h : w.entry.pending ≠ none) (invalidated : Bool) :
    ∃ w', w.lastChance invalidated = some w' ∧ w'.isEmpty = true := by
  obtain ⟨w₁, hdiscard, hempty⟩ := emptied_eq h
  rw [Work.lastChance, Work.discardPending, hdiscard, bind_some, Work.releaseKeyLocked]
  split_ifs
  · exact forgetKeyLocked_eq w₁
  · exact ⟨w₁, rfl, hempty⟩

theorem releaseCachedLock_eq {f : ReleaseFate} (h : e.pending = none → f.invalidated = true) :
    ∃ e', releaseCachedLock e f = some e' ∧ e'.pending.all Pending.isEmpty = true := by
  obtain ⟨ok, w₁, hflush, hkept⟩ := flushLocked_eq (.start e) f.flush
  rw [releaseCachedLock, Work.dropCachedLock, Work.prepareDropLocked, hflush]
  simp only [map_some, bind_some]
  by_cases hyields : (if ok = false ∧ w₁.isEmpty = false then false else f.invalidated) = true
  · obtain ⟨w₂, hforget, hempty⟩ := forgetKeyLocked_eq w₁
    simp only [hyields, if_true, hforget, map_some, bind_some]
    exact ⟨w₂.entry, rfl, hempty⟩
  · -- The lock is not yielded: there is a buffer, or the pages stayed and so there is one.
    have hpending : w₁.entry.pending ≠ none := by
      split_ifs at hyields with hkeeps
      · refine pending_of_not_isEmpty ?_
        rw [hkeeps.2]
        exact Bool.false_ne_true
      · exact hkept fun hnone => hyields (h hnone)
    obtain ⟨w₂, hlast, hempty⟩ :=
      lastChance_eq (w := .start w₁.entry) hpending f.invalidatedAgain
    simp only [hyields, if_false, bind_some, hlast, map_some, Bool.false_eq_true]
    exact ⟨w₂.entry, rfl, hempty⟩

/-- The last chance of an entry without a buffer is a nil dereference. -/
theorem invalidated_of_releaseCachedLock {e' : BufEntry} {f : ReleaseFate}
    (h : releaseCachedLock e f = some e') (hnone : e.pending = none) : f.invalidated = true := by
  obtain ⟨held, pending⟩ := e
  cases hnone
  by_contra hpages
  simp [releaseCachedLock, Work.dropCachedLock, Work.prepareDropLocked, Work.flushLocked,
    Work.start, Work.isEmpty, Work.lastChance, Work.discardPending, Work.emptied, hpages] at h

end

/-- The release of all locks comes to its end, and leaves every buffer empty, exactly if every
entry without a buffer has its pages invalidated. -/
theorem releaseCachedLocks_empties (entries : List (BufEntry × ReleaseFate)) :
    (∃ es, releaseCachedLocks entries = some es ∧ es.length = entries.length ∧
      ∀ e ∈ es, e.pending.all Pending.isEmpty = true) ↔
    ∀ ef ∈ entries, ef.1.pending = none → ef.2.invalidated = true := by
  unfold releaseCachedLocks
  induction entries with
  | nil => simp
  | cons ef entries ih =>
    rw [forall_mem_cons, ← ih]
    constructor
    · rintro ⟨es, hes, hlen, hall⟩
      simp only [mapM_cons, bind_eq_bind, bind_eq_some_iff, Option.pure_def, some.injEq] at hes
      obtain ⟨e, he, es, hes, rfl⟩ := hes
      exact ⟨invalidated_of_releaseCachedLock he, es, hes, Nat.succ.inj hlen,
        (forall_mem_cons.mp hall).2⟩
    · rintro ⟨hpages, es, hes, hlen, hall⟩
      obtain ⟨e, he, hempty⟩ := releaseCachedLock_eq hpages
      exact ⟨e :: es, by simp [he, hes], congrArg Nat.succ hlen, forall_mem_cons.mpr ⟨hempty, hall⟩⟩

/-- An entry that never buffered a write, whose pages are not invalidated: its buffer, which
does not exist, is discarded. -/
theorem nil_buffer_discarded :
    releaseCachedLocks [(⟨true, none⟩, ⟨.committed, false, true⟩)] = none := rfl

end EtcFS.Correctness
