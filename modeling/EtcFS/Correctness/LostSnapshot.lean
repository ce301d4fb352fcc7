import EtcFS.Ipc.HeldOps

/-!
# The snapshot behind a buffer

An entry with writes in its buffer has to keep the snapshot they were planned over. A call under the
exclusive lock that fails drops it, and strands what a failed flush or none has left in the buffer.
-/

namespace EtcFS.Correctness

open EtcFS.Core Metadata Ipc Option

def SnapshotBehind (e : LockEntry) : Prop :=
  ∀ h, e.pending ≠ [] → e.holder = some h → ∃ m, e.cachedMeta = some m ∧ m.under = some h

def KeepsSnapshot (s : LockEntry × List Publication) (call : InodeCall)
    (t : LockEntry × List Publication) : Prop :=
  SnapshotBehind t.1 ∧ (call.held s.2 s.1).lost = false

/-- The flush leaves the buffer as it is: it is not heard of, or it is refused while the lock key
stands and no earlier attempt is seen to have landed. -/
def Sticks (log : List Publication) (pending : List BufferedWrite) : FlushReply → Prop
  | .failed | .unheard => True
  | .committed | .fenced => False
  | .refused read gone => ¬ (read = true ∧ ∀ w ∈ pending, InLog log w.id) ∧ gone = false

/-- A write over a non-empty buffer that returns early: a synchronous one if the flush before it
sticks, another if it finds no record or no space, or if it can neither join the buffer nor empty
it. -/
def WriteFate.Strands (log : List Publication) (pending : List BufferedWrite) (f : WriteFate) :
    Prop :=
  if f.sync = true then Sticks log pending f.syncFlush
  else f.present = false ∨ f.allocated = false ∨
    if f.defers = false then Sticks log pending f.commitFlush
    else f.stored = false ∨ f.full = true ∧ Sticks log pending f.fullFlush

/-- The entry has the exclusive key, under the session the call runs in. -/
def HoldsFor (e : LockEntry) (k : KeyReply) : Prop :=
  e.stale k.session = false ∧ e.mode = .exclusive

/-- A call that fails under the exclusive key over a buffer that it finds and leaves there. -/
def Strands (s : LockEntry × List Publication) : InodeCall → Prop
  | .write k f => HoldsFor s.1 k ∧ s.1.pending ≠ [] ∧ WriteFate.Strands s.2 s.1.pending f
  | .resize k r _ => HoldsFor s.1 k ∧ s.1.pending ≠ [] ∧ Sticks s.2 s.1.pending r
  | _ => False

/-! ## What the sections keep -/

structure Backed (e : LockEntry) : Prop where
  own : ∀ m, e.cached = some m → m.under = some m.metaFor
  behind : e.pending ≠ [] → ∃ k, e.holder = some k ∧ e.cached = some ⟨some k, k⟩

section

variable {e : LockEntry} {log : List Publication}

theorem own_none (m : KeyedMeta) (h : (none : Option KeyedMeta) = some m) :
    m.under = some m.metaFor := absurd h (some_ne_none m).symm

theorem backed_of_empty (hc : e.cached = none) (hp : e.pending = []) : Backed e :=
  ⟨fun m hm => own_none m (hc ▸ hm), fun hne => absurd hp hne⟩

theorem Backed.emptied (h : Backed e) : Backed { e with pending := [] } :=
  ⟨h.own, fun hne => absurd rfl hne⟩

theorem Backed.cachedMeta_eq (h : Backed e) {m : KeyedMeta} (hm : e.cachedMeta = some m) :
    ∃ k, e.holder = some k ∧ e.cached = some ⟨some k, k⟩ := by
  obtain ⟨hc, hk⟩ := filter_eq_some_iff.mp hm
  have hown := h.own m hc
  refine ⟨m.metaFor, of_decide_eq_true hk, ?_⟩
  rw [hc, ← hown]

theorem cachedMeta_of_eq {k : Holder} (hk : e.holder = some k)
    (hc : e.cached = some ⟨some k, k⟩) : e.cachedMeta = some ⟨some k, k⟩ := by
  simp [LockEntry.cachedMeta, hc, hk]

theorem Backed.snapshotBehind (h : Backed e) : SnapshotBehind e := by
  intro k hne hk
  obtain ⟨k', hk', hc⟩ := h.behind hne
  obtain rfl : k = k' := some.inj (hk.symm.trans hk')
  exact ⟨_, cachedMeta_of_eq hk hc, rfl⟩

theorem flush_backed (log : List Publication) (h : Backed e) (r : FlushReply) :
    Backed (e.flush log r).entry ∧
    ((e.flush log r).ok = true → (e.flush log r).entry.pending = [] ∧
      (e.flush log r).entry.holder = e.holder) ∧
    ((e.flush log r).entry.pending ≠ [] ↔ e.pending ≠ [] ∧ Sticks log e.pending r) := by
  unfold LockEntry.flush
  split
  · rename_i hempty
    exact ⟨h, fun _ => ⟨hempty, rfl⟩, fun hne => absurd hempty hne, fun hb => hb.1⟩
  · rename_i hne
    obtain ⟨k, hk, -⟩ := h.behind hne
    rw [hk]
    cases r with
    | failed => exact ⟨h, (absurd · Bool.false_ne_true), by simp [LockEntry.publish, Sticks, hne]⟩
    | unheard => exact ⟨h, (absurd · Bool.false_ne_true), by simp [LockEntry.publish, Sticks, hne]⟩
    | committed => exact ⟨h.emptied, fun _ => ⟨rfl, hk⟩, by simp [LockEntry.publish, Sticks]⟩
    | fenced => exact ⟨backed_of_empty rfl rfl, (absurd · Bool.false_ne_true), by simp [
        LockEntry.publish, LockEntry.discardPending, Sticks]⟩
    | refused read gone =>
      simp only [LockEntry.publish, Sticks]
      split
      · rename_i hlanded
        exact ⟨h.emptied, fun _ => ⟨rfl, hk⟩, iff_of_false (fun hc => hc rfl)
          fun hc => hc.2.1 hlanded⟩
      · rename_i hlanded
        split
        · rename_i hgone
          exact ⟨backed_of_empty rfl rfl, (absurd · Bool.false_ne_true), iff_of_false
            (fun hc => hc rfl) fun hc => Bool.false_ne_true (hc.2.2.symm.trans hgone)⟩
        · rename_i hgone
          exact ⟨h, (absurd · Bool.false_ne_true), iff_of_true hne
            ⟨hne, hlanded, Bool.eq_false_iff.mpr hgone⟩⟩

theorem checkLease_backed (h : Backed e) (session : Nat) : Backed (e.checkLease session) := by
  unfold LockEntry.checkLease
  split
  · exact backed_of_empty rfl rfl
  · exact h

theorem releaseKey_backed (h : Backed e) : e.releaseKey.pending = [] ∧
    ∀ m, e.releaseKey.cached = some m → m.under = some m.metaFor := by
  unfold LockEntry.releaseKey
  split
  · rename_i hnone
    refine ⟨?_, h.own⟩
    by_contra hne
    obtain ⟨k, hk, -⟩ := h.behind hne
    rw [hnone] at hk
    cases hk
  · exact ⟨rfl, own_none⟩

theorem ensure_backed (log : List Publication) (h : Backed e) (mode : LockMode) (k : KeyReply) :
    Backed (e.run log (.ensure mode k.session k.invalidated k.reply)).entry ∧
      ((e.run log (.ensure mode k.session k.invalidated k.reply)).ok = true → ∃ t,
        (e.run log (.ensure mode k.session k.invalidated k.reply)).entry.holder = some t) := by
  have hc := checkLease_backed h k.session
  obtain ⟨hempty, hown⟩ := releaseKey_backed hc
  simp only [LockEntry.run, LockEntry.acquire]
  split
  · rename_i hheld
    exact ⟨hc, fun _ => ne_none_iff_exists'.mp hheld.1⟩
  · split
    · exact ⟨hc, fun hok => nomatch hok⟩
    · cases k.reply with
      | some t => exact ⟨⟨hown, fun hne => absurd hempty hne⟩, fun _ => ⟨t, rfl⟩⟩
      | none =>
        exact ⟨⟨hown, fun hne => absurd hempty hne⟩, fun hok => nomatch hok⟩

theorem ensure_held (log : List Publication) (h : Backed e) {k : KeyReply} (hk : HoldsFor e k)
    (hne : e.pending ≠ []) :
    e.run log (.ensure .exclusive k.session k.invalidated k.reply) = ⟨e, [], [], true⟩ := by
  obtain ⟨t, ht, -⟩ := h.behind hne
  have hsame : e.checkLease k.session = e := if_neg (by simp [hk.1])
  simp [LockEntry.run, LockEntry.acquire, hsame, ht, covers, hk.2]

theorem ensure_empties (log : List Publication) (h : Backed e) {k : KeyReply}
    (hnot : ¬ (HoldsFor e k ∧ e.pending ≠ []))
    (hok : (e.run log (.ensure .exclusive k.session k.invalidated k.reply)).ok = true) :
    (e.run log (.ensure .exclusive k.session k.invalidated k.reply)).entry.pending = [] := by
  obtain ⟨hempty, -⟩ := releaseKey_backed (checkLease_backed h k.session)
  simp only [LockEntry.run, LockEntry.acquire] at hok ⊢
  split
  · -- The key is there: it is another session's, or there was no buffer.
    rename_i hheld
    cases hstale : e.stale k.session with
    | true =>
      rw [LockEntry.checkLease, if_pos hstale]
      rfl
    | false =>
      have hsame : e.checkLease k.session = e := if_neg (by simp [hstale])
      rw [hsame] at hheld ⊢
      exact not_not.mp fun hne => hnot ⟨⟨hstale, by simpa [covers] using hheld.2⟩, hne⟩
  · rename_i hnot
    rw [if_neg hnot] at hok
    split
    · rename_i hkept
      rw [if_pos hkept] at hok
      cases hok
    · split <;> exact hempty

theorem drop_backed (h : Backed e) (r : FlushReply) (invalidated : Bool) :
    Backed (e.drop log r invalidated).entry := by
  unfold LockEntry.drop
  split
  · exact (flush_backed log h r).1
  · exact backed_of_empty rfl rfl

end

/-! ## Operations -/

structure Concluded (stranded : Prop) (h : HeldLock) : Prop where
  found : h.lost = false
  keyed : h.entry.pending ≠ [] → ∃ k, h.entry.holder = some k
  backed : h.published = true → Backed h.entry
  left : h.published = false ∧ h.entry.pending ≠ [] ↔ stranded

structure Underway (k : Holder) (published : Bool) (h : HeldLock) : Prop where
  backed : Backed h.entry
  holder : h.entry.holder = some k
  found : h.lost = false
  published : h.published = published

section

variable {k : Holder} {b : Bool} {h : HeldLock} {next : HeldLock → HeldLock} {stranded : Prop}

variable {e : LockEntry} {log : List Publication}

theorem Backed.keyed (h : Backed e) (hne : e.pending ≠ []) : ∃ k, e.holder = some k := by
  obtain ⟨k, hk, -⟩ := h.behind hne
  exact ⟨k, hk⟩

theorem Concluded.congr {q : Prop} (hc : Concluded stranded h) (hiff : stranded ↔ q) :
    Concluded q h := ⟨hc.found, hc.keyed, hc.backed, hc.left.trans hiff⟩

theorem concluded_of_published (hb : Backed h.entry) (hl : h.lost = false)
    (hp : h.published = true) : Concluded False h where
  found := hl
  keyed := hb.keyed
  backed := fun _ => hb
  left := iff_of_false (fun hc => Bool.false_ne_true (hc.1.symm.trans hp)) not_false

theorem concluded_of_empty (hb : Backed h.entry) (hl : h.lost = false)
    (hempty : h.entry.pending = []) : Concluded False h where
  found := hl
  keyed := hb.keyed
  backed := fun _ => hb
  left := iff_of_false (fun hc => hc.2 hempty) not_false

theorem Underway.fail (hu : Underway k false h) : Concluded (h.entry.pending ≠ []) h.fail where
  found := hu.found
  keyed := hu.backed.keyed
  backed := fun _ => hu.backed
  left := and_iff_right hu.published

theorem Underway.flush (hu : Underway k false h) (r : FlushReply)
    (hnext : ∀ h', Underway k false h' → h'.entry.pending = [] → Concluded False (next h')) :
    Concluded (h.entry.pending ≠ [] ∧ Sticks h.log h.entry.pending r) (h.flush r next) := by
  obtain ⟨hkeep, hok, hleft⟩ := flush_backed h.log hu.backed r
  unfold HeldLock.flush
  simp only
  split
  · rename_i hyes
    obtain ⟨hempty, hholder⟩ := hok hyes
    have hu' : Underway k false { h with
        entry := (h.entry.flush h.log r).entry, log := h.log ++ (h.entry.flush h.log r).log } :=
      ⟨hkeep, hholder.trans hu.holder, hu.found, hu.published⟩
    refine (hnext _ hu' hempty).congr ?_
    exact iff_of_false not_false fun hc => hleft.mpr hc hempty
  · exact ⟨hu.found, hkeep.keyed, fun _ => hkeep, (and_iff_right hu.published).trans hleft⟩

/-- The metadata are found, since they are behind the buffer or the buffer is empty. -/
theorem Underway.readMeta (hu : Underway k b h) (answered : Bool)
    (hfail : h.entry.pending = [] → Concluded stranded h.fail)
    (hnext : ∀ h', Underway k b h' → h'.entry.cached = some ⟨some k, k⟩ → h'.log = h.log →
      h'.entry.pending = h.entry.pending → Concluded stranded (next h')) :
    Concluded stranded (h.readMeta answered next) := by
  unfold HeldLock.readMeta
  split
  · rename_i hhit
    obtain ⟨m, hm⟩ := ne_none_iff_exists'.mp hhit
    obtain ⟨k', hk', hc⟩ := hu.backed.cachedMeta_eq hm
    obtain rfl : k = k' := some.inj (hu.holder.symm.trans hk')
    exact hnext h hu hc rfl rfl
  · rename_i hmiss
    split
    · rename_i hne
      obtain ⟨k', hk', hc⟩ := hu.backed.behind hne
      rw [cachedMeta_of_eq hk' hc] at hmiss
      exact absurd (some_ne_none _) hmiss
    · rename_i hempty
      split
      · have hset : (h.entry.setMeta h.entry.holder).cached = some ⟨some k, k⟩ := by
          rw [LockEntry.setMeta, hu.holder]
          rfl
        refine hnext _ ⟨⟨fun m hm => ?_, fun hne => absurd (not_not.mp hempty) hne⟩, hu.holder,
          hu.found, hu.published⟩ hset rfl rfl
        rw [← some.inj (hset.symm.trans hm)]
      · exact hfail (not_not.mp hempty)

theorem Underway.publishMeta (hu : Underway k b h) (hempty : h.entry.pending = []) :
    Concluded False h.publishMeta := by
  have hset : (h.entry.setMeta h.entry.holder).cached = some ⟨some k, k⟩ := by
    rw [LockEntry.setMeta, hu.holder]
    rfl
  refine concluded_of_published ⟨fun m hm => ?_, fun hne => absurd hempty hne⟩ hu.found rfl
  rw [← some.inj (hset.symm.trans hm)]

theorem Underway.join (hu : Underway k b h) (hc : h.entry.cached = some ⟨some k, k⟩)
    (f : WriteFate) : Concluded False (HeldLock.join f h) := by
  have hjoin : (h.entry.join f.id h.entry.holder).cached = some ⟨some k, k⟩ := by
    rw [LockEntry.join, hc, hu.holder]
    rfl
  refine concluded_of_published ⟨fun m hm => ?_, fun _ => ⟨k, hu.holder, hjoin⟩⟩ hu.found rfl
  rw [← some.inj (hjoin.symm.trans hm)]

theorem Underway.commitNow (hu : Underway k b h) (hempty : h.entry.pending = []) (f : WriteFate) :
    Concluded False (HeldLock.commitNow f h) := by
  have hfail : Concluded False h.fail := concluded_of_empty hu.backed hu.found hempty
  unfold HeldLock.commitNow
  split
  · exact hfail
  · -- The entry is as it was, and only the log has grown.
    have hu' : Underway k b
        { h with log := h.log ++ (h.entry.commit f.id h.entry.holder f.reply).log } :=
      ⟨hu.backed, hu.holder, hu.found, hu.published⟩
    simp only
    split
    · exact hu'.publishMeta hempty
    all_goals exact concluded_of_empty hu.backed hu.found hempty

theorem Underway.commitWriteOp (hu : Underway k false h) (f : WriteFate) :
    Concluded (h.entry.pending ≠ [] ∧ Sticks h.log h.entry.pending f.commitFlush)
      (HeldLock.commitWriteOp f h) := by
  unfold HeldLock.commitWriteOp
  split
  · refine hu.flush f.commitFlush fun h' hu' hempty => ?_
    split
    · exact hu'.commitNow hempty f
    · exact concluded_of_empty hu'.backed hu'.found hempty
  · rename_i hempty
    refine (hu.commitNow (not_not.mp hempty) f).congr (iff_of_false not_false ?_)
    exact fun hc => hempty hc.1

theorem Underway.bufferWriteOp (hu : Underway k false h) (hc : h.entry.cached = some ⟨some k, k⟩)
    (f : WriteFate) (hsync : f.sync = true → h.entry.pending = []) :
    Concluded (h.entry.pending ≠ [] ∧ if f.defers = false then
        Sticks h.log h.entry.pending f.commitFlush
      else f.stored = false ∨ f.full = true ∧ Sticks h.log h.entry.pending f.fullFlush)
      (HeldLock.bufferWriteOp f h) := by
  unfold HeldLock.bufferWriteOp
  by_cases hnow : f.sync = true ∨ f.defers = false
  · rw [if_pos hnow]
    refine (hu.commitWriteOp f).congr (and_congr_right fun hne => ?_)
    rw [if_pos (hnow.resolve_left fun hs => hne (hsync hs))]
  · have hdefers : ¬ f.defers = false := fun hd => hnow (.inr hd)
    rw [if_neg hnow, if_neg hdefers]
    split
    · rename_i hstored
      exact hu.fail.congr (iff_of_eq (by simp [hstored]))
    · rename_i hstored
      split
      · rename_i hfull
        refine (hu.flush f.fullFlush fun h₁ hu₁ hempty₁ => hu₁.readMeta f.answered
          (fun _ => concluded_of_empty hu₁.backed hu₁.found hempty₁)
          fun h₂ hu₂ hc₂ _ hp₂ => ?_).congr (iff_of_eq (by simp [hstored, hfull.2]))
        have hempty₂ := hp₂.trans hempty₁
        have hfail : Concluded False h₂.fail := concluded_of_empty hu₂.backed hu₂.found hempty₂
        split
        · exact hfail
        · split
          · exact (hu₂.commitWriteOp f).congr (iff_of_false (fun hc => hc.1 hempty₂) not_false)
          · split
            · exact hfail
            · exact hu₂.join hc₂ f
      · rename_i hroom
        refine (hu.join hc f).congr (iff_of_false not_false ?_)
        rintro ⟨hne, hs | ⟨hfull, -⟩⟩
        · exact hstored hs
        · exact hroom ⟨hne, hfull⟩

theorem Underway.handleWrite (hu : Underway k false h) (f : WriteFate) :
    Concluded (h.entry.pending ≠ [] ∧ WriteFate.Strands h.log h.entry.pending f)
      (HeldLock.handleWrite f h) := by
  have hplan : ∀ h', Underway k false h' → (f.sync = true → h'.entry.pending = []) →
      Concluded (h'.entry.pending ≠ [] ∧ WriteFate.Strands h'.log h'.entry.pending f)
        (h'.readMeta f.answered fun h =>
          if f.present = false ∨ f.allocated = false then h.fail
          else HeldLock.bufferWriteOp f h) := by
    intro h' hu' hsync
    have hstrands : ∀ hne : h'.entry.pending ≠ [], WriteFate.Strands h'.log h'.entry.pending f ↔
        f.present = false ∨ f.allocated = false ∨
          if f.defers = false then Sticks h'.log h'.entry.pending f.commitFlush
          else f.stored = false ∨ f.full = true ∧ Sticks h'.log h'.entry.pending f.fullFlush :=
      fun hne => by rw [WriteFate.Strands, if_neg fun hs => hne (hsync hs)]
    refine hu'.readMeta f.answered (fun hempty => ?_) fun h₁ hu₁ hc₁ hlog hp => ?_
    · exact hu'.fail.congr (iff_of_false (not_not.mpr hempty) fun hc => hc.1 hempty)
    · rw [← hp, ← hlog] at hstrands ⊢
      split
      · rename_i hearly
        exact hu₁.fail.congr ⟨fun hne => ⟨hne, (hstrands hne).mpr
          (hearly.imp_right .inl)⟩, fun hc => hc.1⟩
      · rename_i hgoes
        refine (hu₁.bufferWriteOp hc₁ f fun hs => hp.trans (hsync hs)).congr
          (and_congr_right fun hne => ((hstrands hne).trans ?_).symm)
        rw [not_or] at hgoes
        rw [or_iff_right hgoes.1, or_iff_right hgoes.2]
  unfold HeldLock.handleWrite
  simp only
  split
  · rename_i hsync
    refine (hu.flush f.syncFlush fun h' hu' hempty => ?_).congr (and_congr_right fun _ => ?_)
    · exact (hplan h' hu' fun _ => hempty).congr (iff_of_false (fun hc => hc.1 hempty) not_false)
    · rw [WriteFate.Strands, if_pos hsync.1]
  · rename_i hsync
    exact hplan h hu fun hs => not_not.mp fun hne => hsync ⟨hs, hne⟩

theorem Underway.handleResize (hu : Underway k false h) (r : FlushReply) (done : Bool) :
    Concluded (h.entry.pending ≠ [] ∧ Sticks h.log h.entry.pending r)
      (HeldLock.handleResize r done h) := by
  refine hu.flush r fun h' hu' hempty => ?_
  split
  · exact concluded_of_empty hu'.backed hu'.found hempty
  · exact concluded_of_empty hu'.backed hu'.found hempty

theorem concluded_flush (hb : Backed e) (r : FlushReply) :
    Concluded False (HeldLock.flush ⟨e, log, true, false, false⟩ r id) := by
  have hkeep := (flush_backed log hb r).1
  unfold HeldLock.flush
  simp only
  split
  · exact concluded_of_published hkeep rfl rfl
  · exact concluded_of_published hkeep rfl rfl

theorem concluded_underLock (hb : Backed e) (mode : LockMode) (key : KeyReply)
    (op : HeldLock → HeldLock) (hop : ∀ k e', Backed e' → e'.holder = some k →
      Concluded False (op ⟨e', log, false, false, false⟩)) :
    Concluded False (underLock log e mode key op) := by
  obtain ⟨hkeep, hok⟩ := ensure_backed log hb mode key
  unfold underLock
  simp only
  split
  · rename_i hyes
    obtain ⟨k, hk⟩ := hok hyes
    exact hop k _ hkeep hk
  · exact concluded_of_published hkeep rfl rfl

theorem concluded_exclusive {b : List BufferedWrite → Prop} (hb : Backed e) (key : KeyReply)
    (op : HeldLock → HeldLock) (hop : ∀ k e', Backed e' → e'.holder = some k →
      Concluded (e'.pending ≠ [] ∧ b e'.pending) (op ⟨e', log, false, false, false⟩)) :
    Concluded (HoldsFor e key ∧ e.pending ≠ [] ∧ b e.pending)
      (underLock log e .exclusive key op) := by
  obtain ⟨hkeep, hok⟩ := ensure_backed log hb .exclusive key
  unfold underLock
  by_cases hheld : HoldsFor e key ∧ e.pending ≠ []
  · have hrun := ensure_held log hb hheld.1 hheld.2
    obtain ⟨k, hk⟩ := hb.keyed hheld.2
    simp only [hrun, if_true]
    exact (hop k e hb hk).congr (and_iff_right hheld.1).symm
  · have hnone : ¬ (HoldsFor e key ∧ e.pending ≠ [] ∧ b e.pending) :=
      fun hc => hheld ⟨hc.1, hc.2.1⟩
    simp only
    split
    · rename_i hyes
      obtain ⟨k, hk⟩ := hok hyes
      refine (hop k _ hkeep hk).congr (iff_of_false (fun hc => hc.1 ?_) hnone)
      exact ensure_empties log hb hheld hyes
    · exact (concluded_of_published hkeep rfl rfl).congr (iff_of_false not_false hnone)

theorem concluded_held (log : List Publication) (hb : Backed e) (call : InodeCall) :
    Concluded (Strands (e, log) call) (call.held log e) := by
  cases call with
  | read key answered =>
    refine concluded_underLock hb .shared key
      (fun h => HeldLock.readMeta { h with published := true } answered id) fun k e' hb' hk => ?_
    have hu : Underway k true ⟨e', log, true, false, false⟩ := ⟨hb', hk, rfl, rfl⟩
    exact hu.readMeta answered (fun _ => concluded_of_published hb' rfl rfl)
      fun h' hu' _ _ _ => concluded_of_published hu'.backed hu'.found hu'.published
  | write key f =>
    refine concluded_exclusive (b := fun p => WriteFate.Strands log p f) hb key
      (HeldLock.handleWrite f) fun k e' hb' hk => ?_
    exact Underway.handleWrite (h := ⟨e', log, false, false, false⟩) ⟨hb', hk, rfl, rfl⟩ f
  | resize key r done =>
    refine concluded_exclusive (b := fun p => Sticks log p r) hb key
      (HeldLock.handleResize r done) fun k e' hb' hk => ?_
    exact Underway.handleResize (h := ⟨e', log, false, false, false⟩) ⟨hb', hk, rfl, rfl⟩ r done
  | setattr => exact concluded_of_published hb rfl rfl
  | fsync key r =>
    simp only [InodeCall.held]
    split
    · exact concluded_of_published hb rfl rfl
    · refine concluded_underLock hb .exclusive key
        (fun h => HeldLock.flush { h with published := true } r id) fun k e' hb' _ => ?_
      exact concluded_flush hb' r
  | sweep r => exact concluded_flush hb r
  | «recall» r invalidated => exact concluded_of_published (drop_backed hb r invalidated) rfl rfl
  | sessionLost lease =>
    refine concluded_of_published ?_ rfl rfl
    simp only [InodeCall.held, LockEntry.run]
    split
    · exact backed_of_empty rfl rfl
    · exact hb

end

/-! ## Letting go -/

section

variable {h : HeldLock} {stranded : Prop}

theorem Concluded.release_backed (hs : Concluded stranded h) (hnot : ¬ stranded) :
    Backed h.release := by
  unfold HeldLock.release
  split
  · rename_i hpub
    exact hs.backed hpub
  · rename_i hpub
    refine backed_of_empty rfl (not_not.mp fun hne => hnot (hs.left.mp ⟨?_, hne⟩))
    exact Bool.eq_false_iff.mpr hpub

theorem Concluded.not_behind (hs : Concluded stranded h) (hbad : stranded) :
    ¬ SnapshotBehind h.release := by
  intro hb
  obtain ⟨hpub, hne⟩ := hs.left.mpr hbad
  obtain ⟨k, hk⟩ := hs.keyed hne
  have hrel : h.release = { h.entry with cached := none } :=
    if_neg fun hp => Bool.false_ne_true (hpub.symm.trans hp)
  rw [hrel] at hb
  obtain ⟨m, hm, -⟩ := hb k hne hk
  exact absurd hm (some_ne_none m).symm

end

theorem backed_new : Backed LockEntry.new := backed_of_empty rfl rfl

/-- In every run of calls on an inode, the buffer has its snapshot after each call
and no call misses it, exactly if no write or size change returns early over a buffer
that it finds under the exclusive key and does not publish. -/
theorem snapshot_kept_iff (calls : List InodeCall) :
    inodeCalls.Along KeepsSnapshot (LockEntry.new, []) calls ↔
      inodeCalls.Along (fun s call _ => ¬ Strands s call) (LockEntry.new, []) calls := by
  refine Machine.along_iff (I := fun s => Backed s.1) ?_ ?_ backed_new calls
  · rintro s call t hb hc hs
    cases hs
    exact (concluded_held s.2 hb call).release_backed hc
  · rintro s call t hb hs
    cases hs
    have hend := concluded_held s.2 hb call
    constructor
    · rintro ⟨hbehind, -⟩ hbad
      exact hend.not_behind hbad hbehind
    · intro hc
      exact ⟨(hend.release_backed hc).snapshotBehind, hend.found⟩

/-! ## A write without space -/

def firstKey : KeyReply := ⟨1, true, some ⟨1, 1⟩⟩

def bufferedWrite : WriteFate where
  id := 0
  sync := false
  answered := true
  present := true
  allocated := true
  defers := true
  defersAgain := true
  full := false
  stored := true
  storedAgain := true
  syncFlush := .committed
  fullFlush := .committed
  commitFlush := .committed
  extentsRead := true
  written := true
  reply := .committed true

def noSpaceWrite : WriteFate := { bufferedWrite with id := 1, allocated := false }

def afterNoSpace : LockEntry :=
  ⟨some ⟨1, 1⟩, .exclusive, none, [⟨0, some ⟨1, 1⟩⟩], none, []⟩

/-- The write without space drops the snapshot behind the buffered one, and a read
finds it lost. -/
theorem noSpace_loses_snapshot :
    inodeCalls.exec (LockEntry.new, [])
      [.write firstKey bufferedWrite, .write firstKey noSpaceWrite] = some (afterNoSpace, []) ∧
    ¬ SnapshotBehind afterNoSpace ∧
    ((InodeCall.read firstKey true).held [] afterNoSpace).lost = true := by
  refine ⟨by decide +kernel, fun h => ?_, by decide +kernel⟩
  obtain ⟨m, hm, -⟩ := h ⟨1, 1⟩ (by decide) rfl
  exact absurd hm (some_ne_none m).symm

end EtcFS.Correctness
