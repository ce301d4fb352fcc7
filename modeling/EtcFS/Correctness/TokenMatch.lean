import EtcFS.Ipc.LockTable

/-!
# The key a write is published under

A buffered write is published under the lock key of its entry's holder, which may go between the
reading of the metadata and the buffering.
-/

namespace EtcFS.Correctness

open EtcFS.Core Metadata Ipc List

def ComparesKey (p : Publication) : Prop :=
  ∀ w ∈ p.writes, w.under ≠ none ∧ p.compared = w.under

def PublishedUnderKey (s : LockTable) : Prop := ∀ p ∈ s.log, ComparesKey p

def JoinsUnderKey (x : LockEntry) : EntryAct → Prop
  | .join _ under => x.holder ≠ none ∧ under = x.holder
  | .commit _ _ r => r = .failed ∨ r = .refused
  | .lock _ _ | .unlock _ _ _ | .ensure _ _ _ _ | .setMeta _ | .flush _ | .drop _ _
  | .dropForLease _ | .seed _ => True

instance (x : LockEntry) : (a : EntryAct) → Decidable (JoinsUnderKey x a)
  | .join _ _ => inferInstanceAs (Decidable (_ ∧ _))
  | .commit _ _ _ => inferInstanceAs (Decidable (_ ∨ _))
  | .lock _ _ | .unlock _ _ _ | .ensure _ _ _ _ | .setMeta _ | .flush _ | .drop _ _
  | .dropForLease _ | .seed _ => .isTrue trivial

def Bound (x : LockEntry) : Prop := ∀ w ∈ x.pending, w.under ≠ none ∧ x.holder = w.under

section

variable {x : LockEntry}

theorem Bound.of_empty (h : x.pending = []) : Bound x := by
  intro w hw
  rw [h] at hw
  cases hw

theorem Bound.pending_eq_nil (hx : Bound x) (h : x.holder = none) : x.pending = [] := by
  refine List.eq_nil_iff_forall_not_mem.mpr fun w hw => ?_
  obtain ⟨hunder, hheld⟩ := hx w hw
  exact hunder (hheld.symm.trans h)

theorem flush_bound (log : List Publication) (hx : Bound x) (r : FlushReply) :
    Bound (x.flush log r).entry ∧ ∀ p ∈ (x.flush log r).log, ComparesKey p := by
  have hpublished : ∀ h, x.holder = some h → ∀ p ∈ [(⟨x.pending, some h⟩ : Publication)],
      ComparesKey p := by
    intro h hheld p hp w hw
    obtain rfl := mem_singleton.mp hp
    obtain ⟨hunder, hsame⟩ := hx w hw
    exact ⟨hunder, hheld.symm.trans hsame⟩
  have hend := flush_shape log x r
  generalize x.flush log r = y at hend ⊢
  cases hend with
  | empty | kept => exact ⟨hx, fun _ h => by cases h⟩
  | unkeyed | fenced | gone | adopted => exact ⟨.of_empty rfl, fun _ h => by cases h⟩
  | unheard hheld => exact ⟨hx, hpublished _ hheld⟩
  | committed hheld => exact ⟨.of_empty rfl, hpublished _ hheld⟩

theorem run_bound (log : List Publication) {a : EntryAct} (hx : Bound x) (ha : JoinsUnderKey x a) :
    Bound (x.run log a).entry ∧ ∀ p ∈ (x.run log a).log, ComparesKey p := by
  cases a with
  | lock b mode => cases mode <;> exact ⟨hx, fun _ h => by cases h⟩
  | unlock b mode dropMeta => cases mode <;> exact ⟨hx, fun _ h => by cases h⟩
  | ensure mode session invalidated reply =>
    have hend := ensure_shape log x mode session invalidated reply
    generalize x.run log _ = y at hend ⊢
    cases hend with
    | same => exact ⟨hx, fun _ h => by cases h⟩
    | given | replaced => exact ⟨.of_empty rfl, fun _ h => by cases h⟩
    | taken hheld => exact ⟨.of_empty (hx.pending_eq_nil hheld), fun _ h => by cases h⟩
  | setMeta under => exact ⟨hx, fun _ h => by cases h⟩
  | join id under =>
    obtain ⟨hheld, rfl⟩ := ha
    refine ⟨fun w hw => ?_, fun _ h => by cases h⟩
    rcases mem_append.mp hw with hw | hw
    · exact hx w hw
    · rw [mem_singleton.mp hw]
      exact ⟨hheld, rfl⟩
  | flush r => exact flush_bound log hx r
  | drop r invalidated =>
    obtain ⟨hflush, hlog⟩ := flush_bound log hx r
    unfold LockEntry.run LockEntry.drop
    dsimp only
    split
    · exact ⟨hflush, hlog⟩
    · exact ⟨.of_empty rfl, hlog⟩
  | dropForLease lease =>
    refine ⟨?_, fun _ h => by cases h⟩
    unfold LockEntry.run
    dsimp only
    split
    · exact .of_empty rfl
    · exact hx
  | seed h =>
    refine ⟨?_, fun _ h => by cases h⟩
    unfold LockEntry.run LockEntry.seed
    dsimp only
    split
    case isTrue hheld => exact .of_empty (hx.pending_eq_nil hheld)
    case isFalse => exact hx
  | commit id under r =>
    rcases ha with rfl | rfl <;> exact ⟨hx, fun _ h => by cases h⟩

end

theorem step_bound {s s' : LockTable} {act : TableAct}
    (hs : (∀ e, Bound (s.entries e)) ∧ PublishedUnderKey s)
    (hc : ∀ w ∈ s.work act, JoinsUnderKey (s.entries w.1) w.2) (h : s.step act = some s') :
    (∀ e, Bound (s'.entries e)) ∧ PublishedUnderKey s' := by
  obtain ⟨hbound, hlog⟩ := hs
  rcases step_work h with ⟨-, hentries, hlog', -⟩ | ⟨e, work, hwork, hentries, hlog', -⟩
  · rw [PublishedUnderKey, hentries, hlog']
    exact ⟨hbound, hlog⟩
  · obtain ⟨hrun, hnew⟩ := run_bound s.log (hbound e) (hc (e, work) hwork)
    rw [PublishedUnderKey, hentries, hlog']
    refine ⟨fun e' => ?_, fun p hp => ?_⟩
    · by_cases he : e' = e
      · subst he
        rw [LockTable.run_entries_self]
        exact hrun
      · rw [LockTable.run_entries_of_ne he]
        exact hbound e'
    · exact (mem_append.mp hp).elim (hlog p) (hnew p)

/-- In every run in which each write joins the buffer under the token that its metadata was
read under, and none is committed on its own, every transaction that publishes a write
compares the lock key of that token. -/
theorem along_publishedUnderKey {acts : List TableAct}
    (hc : lockTable.Along (fun s act _ => ∀ w ∈ s.work act, JoinsUnderKey (s.entries w.1) w.2)
      .start acts) : lockTable.Along (fun _ _ s => PublishedUnderKey s) .start acts := by
  have hstart : (∀ e, Bound (LockTable.start.entries e)) ∧ PublishedUnderKey .start :=
    ⟨fun _ => .of_empty rfl, fun _ h => by cases h⟩
  refine Machine.Along.of_invariant (I := fun s => (∀ e, Bound (s.entries e)) ∧
    PublishedUnderKey s) ?_ hstart hc
  intro s act s' hs hc h
  have hs' := step_bound hs hc h
  exact ⟨hs', hs'.2⟩

/-- A write is buffered under its key and published by a recall. -/
theorem along_publishedUnderKey_recalled :
    lockTable.Along (fun _ _ s => PublishedUnderKey s) .start
      (planWrite 0 0 ⟨0, 0⟩ ++ joinBuffer 0 ++ [.thread 1 (.recall false), .thread 1 .lock,
        .thread 1 (.drop .committed true), .thread 1 .unlock]) := by
  apply along_publishedUnderKey
  decide +kernel

def plannedUnderLostKey : List TableAct :=
  planWrite 0 0 ⟨0, 0⟩ ++ [.sessionEnds, .dropForLease 0 0] ++ joinBuffer 0 ++
    arrive 1 (.write 1) ++ takeKey 1 ⟨1, 1⟩ ++ [.thread 1 (.flush .committed)]

def committedAtOnce : List TableAct :=
  planWrite 0 0 ⟨0, 0⟩ ++ [.thread 0 .settle, .thread 0 (.commit (.committed true))]

/-- The first write is published under the key of a later token, the second one under
none. -/
theorem publishes_under_other_key :
    (lockTable.exec .start plannedUnderLostKey).map (fun s => s.log) =
      some [⟨[⟨0, some ⟨0, 0⟩⟩], some ⟨1, 1⟩⟩] ∧
    (lockTable.exec .start committedAtOnce).map (fun s => s.log) =
      some [⟨[⟨0, some ⟨0, 0⟩⟩], none⟩] := by
  decide +kernel

end EtcFS.Correctness
