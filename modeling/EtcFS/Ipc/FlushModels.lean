import EtcFS.Ipc.LockTable
import EtcFS.Ipc.Sections
import EtcFS.Ipc.Sweep

/-!
# The models of a flush

A flush is modelled with the faults it may meet, in a sweep, for the totals and for the lock table.
Here each is related to the next.
-/

namespace EtcFS.Ipc

open EtcFS.Core Metadata Arena List Function

/-! ## With faults and in a sweep -/

/-- The entry of a delegation as a sweep meets it. -/
def Delegation.entry (s : Delegation) : CacheEntry :=
  ⟨.exclusive, if s.held then some s.file.holder else none, s.file.pending, s.file.cached,
    s.file.freed⟩

namespace Delegation

variable (c : FileConfig) (s : Delegation)

theorem entry_discardPending : s.discardPending.entry = s.entry.discardPending := by
  rw [CacheEntry.discardPending, append_assoc]
  rfl

theorem entry_keyLost : s.keyLost.entry = s.entry.keyLost := by
  unfold keyLost CacheEntry.keyLost
  split
  case isTrue hempty => exact (if_pos (show s.entry.pending.isEmpty = true from hempty)).symm
  case isFalse hempty =>
    rw [entry_discardPending]
    exact (if_neg (show ¬s.entry.pending.isEmpty = true from hempty)).symm

theorem rejected_answered :
    let t := s.rejected c ⟨true, .answered, true, some 0, true⟩
    t.file.etcd = s.file.etcd ∧ t.entry = if c.node.fenced s.file.etcd then s.entry.discardPending
      else s.entry.flushRejected c.ino s.file.holder s.file.etcd := by
  have hlisting : s.listing c 0 = some (getExtents s.file.etcd c.ino) := rfl
  simp only [rejected, true_and, Option.bind_some, hlisting, CacheEntry.flushRejected]
  split
  · exact ⟨rfl, s.entry_discardPending⟩
  · change _ ∧ _ = if s.file.pending.alreadyLanded (getExtents s.file.etcd c.ino) = true then _
      else if s.file.etcd.get (.lock c.ino .exclusive s.file.holder) = none then _ else _
    cases hlanded : s.file.pending.alreadyLanded (getExtents s.file.etcd c.ino) with
    | true =>
      rw [Option.filter_some_pos hlanded]
      exact ⟨rfl, rfl⟩
    | false =>
      rw [Option.filter_some_neg hlanded, if_neg Bool.false_ne_true]
      split_ifs
      · exact ⟨by unfold keyLost; split_ifs <;> rfl, s.entry_keyLost⟩
      · exact ⟨rfl, rfl⟩

/-- A flush under faults that meets none is the flush of a sweep. -/
theorem flush_answered :
    let t := s.flush c ⟨true, .answered, true, some 0, true⟩
    (t.file.etcd, t.entry) = flushLocked c.node c.ino true s.file.etcd s.entry := by
  by_cases hempty : s.file.pending.isEmpty = true
  · simp [Delegation.flush, flushLocked, entry, hempty]
  cases hheld : s.held with
  | false =>
    simp only [Delegation.flush, if_neg hempty, hheld, if_true, entry_discardPending]
    simp [flushLocked, entry, hempty, hheld, CacheEntry.proposeFlush]
    rfl
  | true =>
    have hflush : Flushable s.entry true s.file.holder :=
      ⟨Bool.not_eq_true _ ▸ hempty, by rw [entry, hheld]; rfl, Bool.or_true _⟩
    have htxn : s.file.etcd.txn (c.node.guard :: (s.entry.pending.flushTxn c.ino s.entry.mode
        s.file.holder).1) s.entry.pending.ops = s.storeData.publish c := rfl
    simp only [Delegation.flush, if_neg hempty, hheld, reduceCtorEq, if_false, hflush.flushLocked,
      Delegation.submit, htxn]
    cases s.storeData.publish c with
    | some t => rfl
    | none =>
      obtain ⟨hetcd, hentry⟩ := s.storeData.rejected_answered c
      exact Prod.ext hetcd hentry

end Delegation

/-! ## In a sweep and one at a time -/

namespace SweepState

variable {n : Node} {stored : Nat → Bool} {st : SweepState} {b : FlushBatch} {inos : List Nat}
  {s : Etcd}

theorem commitFlushBatch_applied (stored : Nat → Bool) (st : SweepState)
    (hnodup : (b.entries.map FlushEntry.ino).Nodup)
    (h : (b.submitted n).foldlM (fun s t => s.txn t.1 t.2) st.etcd = some s) :
    (st.commitFlushBatch n stored b).etcd = s ∧ ∀ i, i ∉ b.entries.map FlushEntry.ino →
      (st.commitFlushBatch n stored b).entry i = st.entry i := by
  rw [FlushBatch.submitted] at h
  rw [commitFlushBatch]
  split_ifs at h ⊢ with hempty
  · exact ⟨Option.some.inj h, fun i _ => rfl⟩
  · have htxn : st.etcd.txn (n.guard :: b.cmps) b.ops = some s := by
      simpa [Node.guarded] using h
    simp only [commitAnswered_eq, htxn]
    obtain ⟨hetcd, -, hout⟩ := mapEntries_spec { st with etcd := s } hnodup fun ino e =>
      e.flushCommitted (FileState.refresh b.ops ino s.revision)
    exact ⟨hetcd, hout⟩

theorem map_member_congr {st' : SweepState} (h : ∀ i ∈ inos, st'.entry i = st.entry i) :
    inos.map (st'.member stored) = inos.map (st.member stored) :=
  map_congr_left fun i hi => by rw [member, member, h i hi]

theorem propose_ready {ino : Nat} {holder : Holder}
    (h : Flushable (st.entry ino) (stored ino) holder) :
    (if (st.member stored ino).pending.isEmpty then none else (st.member stored ino).propose) =
      some ((st.entry ino).pending.flushTxn ino (st.entry ino).mode holder) := by
  simp [member, FlushEntry.propose, h.buffered, h.held, h.payload]

theorem propose_unsent {ino : Nat} {e : CacheEntry}
    (h : Unsent (st.entry ino) (stored ino) e) :
    (if (st.member stored ino).pending.isEmpty then none else (st.member stored ino).propose) =
      none := by
  cases h with
  | idle hempty => exact if_pos hempty
  | unkeyed hbuffered hheld => simp [member, FlushEntry.propose, hheld]
  | unstored hbuffered hheld hdata => simp [member, FlushEntry.propose, hdata]

/-- A sweep whose transactions all go through submits those that are listed for it. -/
theorem flushEntries_applied (hnodup : (b.entries.map FlushEntry.ino ++ inos).Nodup)
    (h : (Ipc.flushEntries n b (inos.map (st.member stored))).foldlM (fun s t => s.txn t.1 t.2)
      st.etcd = some s) :
    (st.flushEntries n stored inos b).etcd = s := by
  induction inos generalizing b st with
  | nil => exact (commitFlushBatch_applied stored st (by simpa using hnodup) h).1
  | cons ino inos ih =>
    have hino : ino ∉ inos := (nodup_cons.mp hnodup.of_append_right).1
    have hset : ∀ e, inos.map ((st.setEntry ino e).member stored) = inos.map (st.member stored) :=
      fun e => map_member_congr fun i hi => update_of_ne (fun heq : i = ino => hino (heq ▸ hi)) ..
    have hskip : (b.entries.map FlushEntry.ino ++ inos).Nodup :=
      hnodup.sublist ((sublist_cons_self ..).append_left _)
    rw [map_cons, Ipc.flushEntries] at h
    rcases flushable_or (st.entry ino) (stored ino) with ⟨holder, hready⟩ | ⟨e, hunsent⟩
    · rw [flushEntries_ready hready]
      rw [propose_ready hready] at h
      simp only at h ⊢
      split_ifs at h ⊢ with hfits
      · refine ih ?_ ((hset _).symm ▸ h)
        rw [FlushBatch.add, map_append, append_assoc]
        exact hnodup
      · rw [foldlM_append] at h
        obtain ⟨etcd, hsubmitted, h⟩ := Option.bind_eq_some_iff.mp h
        obtain ⟨hetcd, hout⟩ := commitFlushBatch_applied stored
          (st.setEntry ino ((st.entry ino).setData [])) hnodup.of_append_left hsubmitted
        refine ih hnodup.of_append_right ?_
        rw [hetcd, map_member_congr fun i hi => hout i ?_, hset]
        · exact h
        · exact fun hmem => hskip.disjoint hmem hi
    · rw [flushEntries_unsent hunsent]
      rw [propose_unsent hunsent] at h
      exact ih hskip ((hset e).symm ▸ h)

end SweepState

/-! ## By outcome -/

def CacheEntry.work (e : CacheEntry) : Work := .start ⟨e.holder.isSome, some e.pending⟩

/-- What a flush leaves of an entry is, but for the payload, what one of the outcomes leaves. -/
theorem flushLocked_work (n : Node) (ino : Nat) (stored : Bool) (s : Etcd) (e : CacheEntry) :
    ∃ f ok w data, e.work.flushLocked f = some (ok, w) ∧
      w.entry = ((flushLocked n ino stored s e).2.setData data).work.entry := by
  rcases flushable_or e stored with ⟨holder, h⟩ | ⟨e', h⟩
  · have hempty : ¬e.work.isEmpty = true := Bool.eq_false_iff.mp h.buffered
    have hheld : ¬e.work.entry.held = false := by simp [CacheEntry.work, Work.start, h.held]
    have hforget : e.work.keyLostLocked = (e.work.setHeld false).discardPending := if_neg hempty
    simp only [Work.flushLocked, if_neg hempty, if_neg hheld, h.flushLocked, hforget]
    cases s.txn (n.guard :: (e.pending.flushTxn ino e.mode holder).1) e.pending.ops with
    | some t => exact ⟨.committed, _, _, [], rfl, rfl⟩
    | none =>
      simp only [CacheEntry.flushRejected, CacheEntry.keyLost]
      split_ifs with hfenced hlanded hlock hnone
      · exact ⟨.fenced, _, _, [], rfl, rfl⟩
      · exact ⟨.landed, _, _, [], rfl, rfl⟩
      · exact absurd hnone hempty
      · exact ⟨.keyLost, _, _, [], rfl, rfl⟩
      · exact ⟨.rejected, _, _, e.pending.data, rfl, rfl⟩
  · rw [h.flushLocked]
    cases h with
    | idle hidle => exact ⟨.failed, true, e.work, e.pending.data, if_pos hidle, rfl⟩
    | unkeyed hbuffered hnone =>
      have hempty : ¬e.work.isEmpty = true := Bool.eq_false_iff.mp hbuffered
      have hheld : e.work.entry.held = false := by simp [CacheEntry.work, Work.start, hnone]
      simp only [Work.flushLocked, if_neg hempty, if_pos hheld]
      exact ⟨.failed, _, _, [], rfl, rfl⟩
    | unstored hbuffered hsome hdata =>
      have hempty : ¬e.work.isEmpty = true := Bool.eq_false_iff.mp hbuffered
      have hheld : ¬e.work.entry.held = false := by simp [CacheEntry.work, Work.start, hsome]
      simp only [Work.flushLocked, if_neg hempty, if_neg hheld]
      exact ⟨.unstored, _, _, e.pending.data, rfl, rfl⟩

/-! ## In the lock table -/

/-- The entry of the lock table and the buffer are those of one inode. -/
structure Shadows (e : LockEntry) (w : Work) : Prop where
  held : w.entry.held = e.holder.isSome
  empty : w.isEmpty = true ↔ e.pending = []

theorem Shadows.emptied {e : LockEntry} {w : Work} (h : Shadows e w) (hbuf : e.pending ≠ [])
    (next : LockEntry) (hholder : next.holder = e.holder) (hpending : next.pending = []) :
    ∃ w', w.emptied = some w' ∧ Shadows next w' := by
  cases hp : w.entry.pending with
  | none =>
    refine absurd (h.empty.mp ?_) hbuf
    rw [Work.isEmpty, hp]
    rfl
  | some p =>
    refine ⟨_, by rw [Work.emptied, hp, Option.map_some], ?_, fun _ => hpending, fun _ => rfl⟩
    rw [hholder]
    exact h.held

/-- Whatever the reply, what a flush does to the entry of the lock table is what one of the
outcomes does to the buffer. -/
theorem LockEntry.flush_shadows {e : LockEntry} {w : Work} (h : Shadows e w)
    (log : List Publication) (r : FlushReply) :
    ∃ f w', w.flushLocked f = some ((e.flush log r).ok, w') ∧
      Shadows (e.flush log r).entry w' := by
  by_cases hbuf : e.pending = []
  · refine ⟨.failed, w, ?_, ?_⟩
    · rw [LockEntry.flush, if_pos hbuf]
      exact if_pos (h.empty.mpr hbuf)
    · rwa [LockEntry.flush, if_pos hbuf]
  have hempty : ¬w.isEmpty = true := fun hw => hbuf (h.empty.mp hw)
  simp only [Work.flushLocked, if_neg hempty, LockEntry.flush, if_neg hbuf]
  cases hholder : e.holder with
  | none =>
    have hheld : w.entry.held = false := by rw [h.held, hholder]; rfl
    simp only [if_pos hheld]
    obtain ⟨w', hw', hs⟩ := h.emptied hbuf e.discardPending rfl rfl
    exact ⟨.failed, w', by rw [Work.discardPending, hw']; rfl, hs⟩
  | some holder =>
    have hheld : ¬w.entry.held = false := by rw [h.held, hholder]; simp
    simp only [if_neg hheld]
    obtain ⟨kept, hkept, hsame⟩ := h.emptied hbuf { e with pending := [] } rfl rfl
    have hunheld : Shadows { e with holder := none } (w.setHeld false) := ⟨rfl, h.empty⟩
    obtain ⟨lost, hlost, hgone⟩ := hunheld.emptied hbuf e.forgetKey rfl rfl
    have hforget : w.keyLostLocked = some lost := (if_neg hempty).trans hlost
    rw [LockEntry.publish.eq_def]
    split
    case h_1 | h_2 => exact ⟨.failed, w, rfl, h⟩
    case h_3 => exact ⟨.committed, kept, by rw [Work.flushCommitted, hkept]; rfl, hsame⟩
    case h_4 => exact ⟨.fenced, kept, by rw [Work.discardPending, hkept]; rfl, hsame.1, hsame.2⟩
    case h_5 =>
      split_ifs
      · exact ⟨.landed, kept, by rw [Work.flushCommitted, hkept]; rfl, hsame⟩
      · exact ⟨.keyLost, lost, by rw [hforget]; rfl, hgone⟩
      · exact ⟨.rejected, w, rfl, h⟩

end EtcFS.Ipc
