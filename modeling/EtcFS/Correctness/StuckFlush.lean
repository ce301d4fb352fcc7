import EtcFS.Correctness.TxnShape
import EtcFS.Ipc.Landing

/-!
# Flushes that are answered

A flush whose reply was lost is refused by its own work next time, and has to find its buffer
published. A request that arrives late, or is larger than etcd takes, is a refusal of another kind.
-/

namespace EtcFS.Correctness

open EtcFS.Core Metadata Arena Ipc List Option

def PublishesBuffer (s : Delegation) (act : DelegationAct) (t : Delegation) : Prop :=
  ∀ f, act = .flush f → f.stored = true → f.reply = .answered →
    t.file.pending.ops = [] ∧ ∀ k x, effect k s.file.pending.ops = some x →
      (t.file.etcd.get k).map Versioned.value = x

def Uninterrupted (c : FileConfig) (s : Delegation) : DelegationAct → Prop
  | .keyLost | .release | .shutDown | .acquire _ => False
  | .other ops => ∀ op ∈ ops, op.key ≠ .inode c.ino ∧ (∀ chunk, op.key ≠ .extent c.ino chunk) ∧
    op.key ≠ .lock c.ino .exclusive s.file.holder ∧ op.key ≠ .gen c.node.id
  | .read _ | .plan | .buffer _ | .abandon | .flush _ | .scrub _ _ => True

def SeesPresent (c : FileConfig) (s : Delegation) : DelegationAct → Prop
  | .read age => ∀ etcd ∈ (s.file.etcd :: s.past)[age]?,
    getInode etcd c.ino = getInode s.file.etcd c.ino ∧
      getExtents etcd c.ino = getExtents s.file.etcd c.ino
  | .buffer a => s.landed = false ∧ a.runs.length + 2 ≤ etcdMaxTxnOps
  | .flush f => s.landed = true → f.age.bind (s.listing c) = some (getExtents s.file.etcd c.ino)
  | .scrub chunk revision =>
    s.file.etcd.modRevision (.extent c.ino chunk) = revision → s.file.cached = none
  | .plan | .abandon | .keyLost | .release | .shutDown | .acquire _ | .other _ => True

/-- A delayed request that etcd still applies is the one the present buffer would make. -/
def ArrivesPresent (c : FileConfig) (s : LateFlushes) : LateAct → Prop
  | .arrive k => ∀ x ∈ s.delayed[k]?, s.entry.file.etcd.txn x.1 x.2 ≠ none → x = s.entry.request c
  | .entry _ | .delay => True

/-- What is asked of the entry's own steps, at a step of the entry. -/
def OfEntry (P : Delegation → DelegationAct → Prop) (s : LateFlushes) : LateAct → Prop
  | .entry act => P s.entry act
  | .delay | .arrive _ => True

def InodeKey (c : FileConfig) (k : Key) : Prop :=
  k = .inode c.ino ∨ ∃ chunk, k = .extent c.ino chunk

structure Drafted (c : FileConfig) (st : FileState) : Prop where
  file : ∃ rec, getInode st.shown c.ino = some rec
  keys_nodup : (st.pending.ops.map Op.key).Nodup
  key_mem : ∀ k, effect k st.pending.ops ≠ none → InodeKey c k
  cached : ∀ m, st.cached = some m → Snapshot c st m
  idle : st.cached = none → st.pending.ops = []
  emptied : st.pending.ops = [] → st.pending = .none

namespace Drafted

variable {c : FileConfig} {st st' : FileState}

theorem of_planning (h : Planning c st) : Drafted c st :=
  ⟨h.file, h.keys_nodup, h.key_mem, h.cached, h.idle, h.emptied⟩

theorem planning (h : Drafted c st) (hcmps : ∀ x ∈ st.pending.cmps, st.etcd.holds x = true) :
    Planning c st :=
  ⟨h.file, h.keys_nodup, h.key_mem, hcmps, h.cached, h.idle, h.emptied⟩

theorem value_shown (st : FileState) (k : Key) : (st.shown.get k).map Versioned.value =
    (effect k st.pending.ops).elim ((st.etcd.get k).map Versioned.value) id :=
  Store.commit_value _ _ k

theorem frame (h : Drafted c st) (hops : st'.pending.ops = st.pending.ops)
    (hcached : st'.cached = st.cached)
    (hget : ∀ k, InodeKey c k → effect k st.pending.ops = none → st'.etcd.get k = st.etcd.get k)
    (hemptied : st'.pending.ops = [] → st'.pending = .none) : Drafted c st' := by
  have hvalue : ∀ k, InodeKey c k →
      (st'.shown.get k).map Versioned.value = (st.shown.get k).map Versioned.value := by
    intro k hk
    rw [value_shown, value_shown, hops]
    cases heff : effect k st.pending.ops with
    | none => rw [elim_none, elim_none, hget k hk heff]
    | some x => rfl
  have hrecord : getInode st'.shown c.ino = getInode st.shown c.ino := hvalue _ (.inl rfl)
  refine ⟨?_, ?_, ?_, ?_, ?_, hemptied⟩
  · rw [hrecord]
    exact h.file
  · rw [hops]
    exact h.keys_nodup
  · rw [hops]
    exact h.key_mem
  · intro m hm
    obtain ⟨hrec, hdesc, hord, hrev⟩ := h.cached m (hcached ▸ hm)
    refine ⟨hrecord.trans hrec, ⟨hdesc.distinct, fun chunk v => ?_⟩, hord, ?_⟩
    · rw [hvalue _ (.inr ⟨chunk, rfl⟩)]
      exact hdesc.get_iff chunk v
    · intro e he heff
      rw [hops] at heff
      rw [hget _ (.inr ⟨_, rfl⟩) heff]
      exact hrev e he heff
  · rw [hcached, hops]
    exact h.idle

theorem of_empty (hfile : ∃ rec, getInode st'.etcd c.ino = some rec)
    (hpending : st'.pending = .none) (hcached : ∀ m, st'.cached = some m → Snapshot c st' m) :
    Drafted c st' := by
  have hops : st'.pending.ops = [] := by rw [hpending]; rfl
  refine ⟨?_, ?_, ?_, hcached, fun _ => hops, fun _ => hpending⟩
  · obtain ⟨rec, hrec⟩ := hfile
    rw [getInode, ← get_shown_of_empty hops] at hrec
    exact ⟨rec, hrec⟩
  · rw [hops]
    exact nodup_nil
  · intro k hk
    rw [hops] at hk
    exact absurd rfl hk

end Drafted

def ExtentCmp (c : FileConfig) (x : Cmp Val) : Prop :=
  ∃ chunk, x = .absent (.extent c.ino chunk) ∨ ∃ rev, x = .modRevisionEq (.extent c.ino chunk) rev

theorem ExtentCmp.holds_congr {c : FileConfig} {x : Cmp Val} (h : ExtentCmp c x) {s t : Etcd}
    (hget : ∀ chunk, t.get (.extent c.ino chunk) = s.get (.extent c.ino chunk)) :
    t.holds x = s.holds x := by
  obtain ⟨chunk, rfl | ⟨rev, rfl⟩⟩ := h
  · exact Store.holds_congr rfl (hget chunk)
  · exact Store.holds_congr rfl (hget chunk)

theorem holds_guard_congr {n : Node} {s t : Etcd} (h : t.get (.gen n.id) = s.get (.gen n.id)) :
    t.holds n.guard = s.holds n.guard := Store.holds_congr rfl h

structure Undisturbed (c : FileConfig) (s : Delegation) : Prop extends Drafted c s.file where
  held : s.held = true
  guard : s.file.etcd.holds c.node.guard = true
  lock : (s.file.etcd.get (.lock c.ino .exclusive s.file.holder)).isSome = true
  planned : ∀ m, s.planned = some m → s.file.cached = some m
  compares : ∀ x ∈ s.file.pending.cmps, ExtentCmp c x
  /-- The listing can tell: a buffer writes some extent. -/
  writes : s.file.pending.ops ≠ [] → ∃ chunk, effect (.extent c.ino chunk) s.file.pending.ops ≠ none
  fresh : s.landed = false → ∀ x ∈ s.file.pending.cmps, s.file.etcd.holds x = true
  lands : s.landed = true → ∀ k x, effect k s.file.pending.ops = some x →
    (s.file.etcd.get k).map Versioned.value = x

section

variable {c : FileConfig} {s t : Delegation} {f : FlushFaults}

theorem alreadyLanded_of_lands (hs : Undisturbed c s) (hlanded : s.landed = true)
    (hops : s.file.pending.ops ≠ []) :
    s.file.pending.alreadyLanded (getExtents s.file.etcd c.ino) = true :=
  alreadyLanded_of_values hs.keys_nodup hs.key_mem (hs.writes hops)
    fun _ x heff => hs.lands hlanded _ x heff

theorem value_of_lands (hs : Undisturbed c s) (hlanded : s.landed = true) (k : Key) :
    (s.file.etcd.get k).map Versioned.value = (s.file.shown.get k).map Versioned.value := by
  rw [Drafted.value_shown]
  cases heff : effect k s.file.pending.ops with
  | none => rfl
  | some x => exact hs.lands hlanded k x heff

theorem get_adoptRevision {etcd : Etcd} {ino : Nat} {e : Extent}
    (h : (etcd.get (.extent ino e.chunk)).map Versioned.value = some e.toExtentValue) :
    etcd.get (.extent ino e.chunk) =
      some ⟨e.toExtentValue, (adoptRevision (getExtents etcd ino) e).modRevision⟩ := by
  obtain ⟨⟨value, rev⟩, hget, rfl⟩ := map_eq_some_iff.mp h
  have hmem : (⟨e.toExtentValue, e.chunk, rev⟩ : Extent) ∈ getExtents etcd ino :=
    mem_getExtents.mpr hget
  unfold adoptRevision
  split
  case h_1 x hx =>
    have hchunk : decide (x.chunk = e.chunk) = true :=
      find?_some (p := fun x : Extent => decide (x.chunk = e.chunk)) hx
    have hchunk := of_decide_eq_true hchunk
    have hx := mem_getExtents.mp (mem_of_find?_eq_some hx)
    rw [hchunk, hget] at hx
    rw [hget, (Versioned.mk.inj (some.inj hx)).2]
  case h_2 hnone =>
    have hne := find?_eq_none.mp hnone _ hmem
    exact absurd (decide_eq_true rfl) hne

namespace Undisturbed

theorem storeData (hs : Undisturbed c s) : Undisturbed c s.storeData where
  toDrafted := hs.toDrafted.frame rfl rfl (fun _ _ _ => rfl) fun h =>
    congrArg (fun p : Pending => { p with data := [] }) (hs.emptied h)
  held := hs.held
  guard := hs.guard
  lock := hs.lock
  planned := hs.planned
  compares := hs.compares
  writes := hs.writes
  fresh := hs.fresh
  lands := hs.lands

theorem publish_of_fresh (hs : Undisturbed c s) (hlanded : s.landed = false) :
    s.publish c = some s.file.shown := by
  refine Store.txn_of_holds _ fun x hx => ?_
  rcases mem_cons.mp hx with rfl | hx
  · exact hs.guard
  rcases mem_append.mp hx with hx | hx
  · exact hs.fresh hlanded x (mem_txn_cmps hx)
  · rw [mem_singleton.mp hx]
    exact hs.lock

theorem get_shown_of_ne (hs : Undisturbed c s) {k : Key} (hk : ¬InodeKey c k) :
    s.file.shown.get k = s.file.etcd.get k := by
  have hnone : effect k s.file.pending.ops = none := by
    by_contra hne
    exact hk (hs.key_mem k hne)
  rw [get_shown, hnone, elim_none]

theorem guard_shown (hs : Undisturbed c s) : s.file.shown.holds c.node.guard = true := by
  rw [holds_guard_congr (hs.get_shown_of_ne (by rintro (h | ⟨_, h⟩) <;> cases h))]
  exact hs.guard

theorem lock_shown (hs : Undisturbed c s) :
    (s.file.shown.get (.lock c.ino .exclusive s.file.holder)).isSome = true := by
  rw [hs.get_shown_of_ne (by rintro (h | ⟨_, h⟩) <;> cases h)]
  exact hs.lock

theorem getInode_of_empty (hs : Undisturbed c s) (hops : s.file.pending.ops = []) :
    ∃ rec, getInode s.file.etcd c.ino = some rec := by
  obtain ⟨rec, hrec⟩ := hs.file
  rw [getInode, get_shown_of_empty hops] at hrec
  exact ⟨rec, hrec⟩

theorem of_empty (hfile : ∃ rec, getInode t.file.etcd c.ino = some rec)
    (hpending : t.file.pending = .none)
    (hcached : ∀ m, t.file.cached = some m → Snapshot c t.file m)
    (hheld : t.held = true) (hguard : t.file.etcd.holds c.node.guard = true)
    (hlock : (t.file.etcd.get (.lock c.ino .exclusive t.file.holder)).isSome = true)
    (hplanned : t.planned = none) : Undisturbed c t := by
  refine ⟨.of_empty hfile hpending hcached, hheld, hguard, hlock, ?_, ?_, ?_, ?_, ?_⟩
  · intro m hm
    rw [hplanned] at hm
    cases hm
  · intro x hx
    rw [hpending] at hx
    cases hx
  · intro hne
    rw [hpending] at hne
    exact absurd rfl hne
  · intro _ x hx
    rw [hpending] at hx
    cases hx
  · intro _ k x heff
    rw [hpending] at heff
    cases heff

theorem landed (hs : Undisturbed c s) :
    Undisturbed c { s.commit s.file.shown with landed := true } where
  toDrafted := by
    refine hs.toDrafted.frame rfl rfl (fun k _ heff => ?_) hs.emptied
    have hget := get_shown s.file k
    rw [show effect k s.file.pending.ops = none from heff] at hget
    exact hget
  held := hs.held
  guard := hs.guard_shown
  lock := hs.lock_shown
  planned := hs.planned
  compares := hs.compares
  writes := hs.writes
  fresh := fun h => by cases h
  lands := by
    intro _ k x heff
    have hvalue := Drafted.value_shown s.file k
    rw [show effect k s.file.pending.ops = some x from heff] at hvalue
    exact hvalue

theorem committed (hs : Undisturbed c s) (hplanned : s.planned = none) :
    Undisturbed c (s.storeData.flushCommitted c s.file.shown) := by
  refine of_empty hs.file rfl ?_ hs.held hs.guard_shown hs.lock_shown hplanned
  intro m hm
  obtain ⟨m₀, hm₀, rfl⟩ := map_eq_some_iff.mp hm
  exact (hs.cached m₀ hm₀).flushed rfl rfl

theorem adopted (hs : Undisturbed c s) (hplanned : s.planned = none) (hlanded : s.landed = true) :
    Undisturbed c (s.storeData.adopt (getExtents s.file.etcd c.ino)) := by
  have hvalue := value_of_lands hs hlanded
  refine of_empty ?_ rfl ?_ hs.held hs.guard hs.lock hplanned
  · obtain ⟨rec, hrec⟩ := hs.file
    exact ⟨rec, (hvalue (.inode c.ino)).trans hrec⟩
  · intro m hm
    obtain ⟨m₀, hm₀, rfl⟩ := map_eq_some_iff.mp hm
    have hm₀ := hs.cached m₀ hm₀
    have hempty : ∀ k, (s.storeData.adopt (getExtents s.file.etcd c.ino)).file.shown.get k =
        s.file.etcd.get k := get_shown_of_empty rfl
    have hshown : ∀ k, ((s.storeData.adopt (getExtents s.file.etcd c.ino)).file.shown.get k).map
        Versioned.value = (s.file.shown.get k).map Versioned.value := by
      intro k
      rw [hempty, hvalue]
    refine hm₀.relabel (adoptRevision_eq _) (hshown (.inode c.ino)) (fun _ => hshown _)
      fun e he _ => ?_
    exact get_adoptRevision ((hvalue _).trans (hm₀.describes.get_of_mem he))

theorem flush (hs : Undisturbed c s) (hplanned : s.planned = none)
    (hsees : SeesPresent c s (.flush f)) :
    Undisturbed c (s.flush c f) ∧ PublishesBuffer s (.flush f) (s.flush c f) := by
  have hrefused : s.publish c = none → s.landed = true := by
    intro htxn
    by_contra hlanded
    rw [hs.publish_of_fresh (Bool.not_eq_true _ ▸ hlanded)] at htxn
    cases htxn
  have hend := s.flush_end c f
  generalize s.flush c f = t at hend ⊢
  cases hend with
  | idle hempty =>
    refine ⟨hs, fun _ _ _ _ => ?_⟩
    have hops := Pending.isEmpty_iff.mp hempty
    rw [hops]
    exact ⟨rfl, fun k x hx => by cases hx⟩
  | unheld hheld => exact absurd (hs.held.symm.trans hheld) Bool.noConfusion
  | unstored hstored =>
    refine ⟨hs, fun _ hf hstored' _ => ?_⟩
    cases hf
    exact absurd (hstored.symm.trans hstored') Bool.noConfusion
  | untold hreply =>
    refine ⟨hs.storeData, fun _ hf _ hreply' => ?_⟩
    cases hf
    exact absurd hreply' hreply
  | landed hreply htxn =>
    obtain ⟨-, rfl⟩ := Store.txn_eq_some_iff.mp htxn
    refine ⟨hs.storeData.landed, fun _ hf _ hreply' => ?_⟩
    cases hf
    exact absurd (hreply.symm.trans hreply') Reply.noConfusion
  | committed hreply htxn =>
    obtain ⟨-, rfl⟩ := Store.txn_eq_some_iff.mp htxn
    exact ⟨hs.committed hplanned, fun _ _ _ _ => ⟨rfl, hs.landed.lands rfl⟩⟩
  | fenced hreply htxn hfenced =>
    have hguard := hs.guard
    simp only [Node.guard, Store.holds, beq_iff_eq] at hguard
    simp [Node.fenced, hguard] at hfenced
  | adopted hreply htxn hage hread hlisted =>
    have hlanded := hrefused htxn
    have hpresent := hsees hlanded
    rw [hage, bind_some, hread] at hpresent
    cases hpresent
    exact ⟨hs.adopted hplanned hlanded, fun _ _ _ _ => ⟨rfl, hs.lands hlanded⟩⟩
  | keyLost hreply htxn hlock =>
    have hpresent := hs.lock
    rw [hlock] at hpresent
    cases hpresent
  | stuck hreply htxn hread =>
    have hlanded := hrefused htxn
    obtain ⟨age, hage, hlisted⟩ := bind_eq_some_iff.mp (hsees hlanded)
    by_cases hops : s.file.pending.ops = []
    · refine ⟨hs.storeData, fun _ _ _ _ => ⟨hops, ?_⟩⟩
      rw [hops]
      exact fun k x hx => by cases hx
    · have hfound := alreadyLanded_of_lands hs hlanded hops
      rw [hread age _ hage hlisted] at hfound
      cases hfound

theorem buffer {a : WriteAct} (hs : Undisturbed c s) (hlanded : s.landed = false)
    (h : s.buffer c a = some t) : Undisturbed c t := by
  obtain ⟨m, hplanned, h⟩ := bind_eq_some_iff.mp h
  simp only [ite_none_right_eq_some] at h
  obtain ⟨⟨hino, ⟨hr, -⟩, -, hdef, -⟩, h⟩ := h
  obtain ⟨replay, hreplay, rfl⟩ := map_eq_some_iff.mp h
  have hcached := hs.planned m hplanned
  have hm := hs.cached m hcached
  have ht : Tracks c.node a.req.ino a.req.offset a.req.stop m.extents s.file.shown _ m.extents
      (proposal c.node a.req a.runs m.record m.extents) :=
    tracks_proposal (by rw [hino]; exact hm.describes) hr
  have hdraft : Drafted c (s.file.reserve a.blocks) :=
    hs.toDrafted.frame rfl rfl (fun _ _ _ => rfl) hs.emptied
  have hplan := hdraft.planning (hs.fresh hlanded)
  obtain ⟨hplan, hbuf⟩ := bufferWrite_spec hplan hcached hino hr hdef hreplay
    (a.heldBytes (a.hold 0)) (a.heldData (a.hold 0))
  refine ⟨.of_planning hplan, hs.held, hs.guard, hs.lock, ?_, ?_, ?_, fun _ => hplan.cmps, ?_⟩
  · intro m hm
    cases hm
  · intro x hx
    dsimp only at hx
    rw [bufferWrite_cmps] at hx
    rcases mem_add_cmps hx with hx | ⟨hx, -⟩
    · exact hs.compares x hx
    · rcases ht.cmp_mem x hx with ⟨k, rfl, -⟩ | ⟨e, -, rfl⟩
      · exact ⟨k, .inl (by rw [hino])⟩
      · exact ⟨e.chunk, .inr ⟨e.modRevision, by rw [hino]⟩⟩
  · intro _
    by_contra hnone
    push Not at hnone
    -- without an extent in the buffer the file would be what it was
    refine live_ne_of_overlay hbuf.written.overlay
      (congrArg (map Extent.toExtentValue) (getExtents_congr fun chunk => ?_))
    have hnew := hnone chunk
    have hold := (foldl_setOp hs.keys_nodup _).2 (.extent c.ino chunk) ▸ hnew
    rw [effect_append] at hold
    rw [get_shown, get_shown, hnew, show effect _ (s.file.reserve a.blocks).pending.ops = none from
      (or_eq_none_iff.mp hold).2]
    rfl
  · intro h
    exact absurd (hlanded.symm.trans h) Bool.noConfusion

theorem commit {etcd : Etcd} (hs : Undisturbed c s)
    (hkeys : ∀ k, InodeKey c k ∨ k = .lock c.ino .exclusive s.file.holder ∨ k = .gen c.node.id →
      etcd.get k = s.file.etcd.get k) : Undisturbed c (s.commit etcd) where
  toDrafted := hs.toDrafted.frame rfl rfl (fun k hk _ => hkeys k (.inl hk)) hs.emptied
  held := hs.held
  guard := (holds_guard_congr (hkeys _ (.inr (.inr rfl)))).trans hs.guard
  lock := (congrArg Option.isSome (hkeys _ (.inr (.inl rfl)))).trans hs.lock
  planned := hs.planned
  compares := hs.compares
  writes := hs.writes
  fresh := by
    intro hlanded x hx
    rw [← hs.fresh hlanded x hx]
    exact (hs.compares x hx).holds_congr fun chunk => hkeys _ (.inl (.inr ⟨chunk, rfl⟩))
  lands := by
    intro hlanded k x heff
    rw [← hs.lands hlanded k x heff]
    have hk := hs.key_mem k fun hnone => by
      rw [show effect k s.file.pending.ops = some x from heff] at hnone
      cases hnone
    exact congrArg (Option.map Versioned.value) (hkeys k (.inl hk))

theorem scrub {chunk revision : Nat} (hs : Undisturbed c s)
    (hsees : SeesPresent c s (.scrub chunk revision)) :
    Undisturbed c (s.scrub c chunk revision) := by
  unfold Delegation.scrub
  split
  case h_2 => exact hs
  case h_1 etcd htxn =>
    obtain ⟨hholds, rfl⟩ := Store.txn_eq_some_iff.mp htxn
    have hrev := hholds (.modRevisionEq (.extent c.ino chunk) revision) (by simp)
    have hcached := hsees (Store.holds_modRevisionEq.mp hrev)
    have hpending := hs.emptied (hs.idle hcached)
    have hother : ∀ k, k ≠ .extent c.ino chunk →
        (s.file.etcd.commit [.delete (.extent c.ino chunk)]).get k = s.file.etcd.get k := by
      intro k hk
      refine Store.get_commit_of_untouched fun op hop => ?_
      rw [mem_singleton.mp hop]
      exact hk.symm
    refine of_empty ?_ hpending ?_ hs.held ?_ ?_ ?_
    · obtain ⟨rec, hrec⟩ := hs.getInode_of_empty (hs.idle hcached)
      rw [getInode, ← hother (.inode c.ino) Key.noConfusion] at hrec
      exact ⟨rec, hrec⟩
    · intro m hm
      cases hcached.symm.trans hm
    · exact (holds_guard_congr (hother _ Key.noConfusion)).trans hs.guard
    · exact (congrArg isSome (hother _ Key.noConfusion)).trans hs.lock
    · cases hplanned : s.planned with
      | none => exact hplanned
      | some m => cases hcached.symm.trans (hs.planned m hplanned)

theorem step {act : DelegationAct} (hs : Undisturbed c s) (hu : Uninterrupted c s act)
    (hsees : SeesPresent c s act) (h : s.step c act = some t) :
    Undisturbed c t ∧ PublishesBuffer s act t := by
  cases act with
  | keyLost | release | shutDown | acquire => exact hu.elim
  | read age =>
    obtain ⟨⟨hplanned, -, -, hempty⟩, h⟩ := ite_none_right_eq_some.mp h
    obtain ⟨etcd, hetcd, h⟩ := bind_eq_some_iff.mp h
    obtain ⟨record, hrecord, h⟩ := bind_eq_some_iff.mp h
    cases h
    have hops := Pending.isEmpty_iff.mp hempty
    obtain ⟨hinode, hextents⟩ := hsees etcd hetcd
    rw [hinode] at hrecord
    have hsnap : Snapshot c s.file ⟨record, getExtents etcd c.ino⟩ := by
      rw [hextents]
      exact snapshot_read hops hrecord
    refine ⟨of_empty (hs.getInode_of_empty hops) (hs.emptied hops) ?_ hs.held hs.guard hs.lock
      hplanned, fun _ hf => by cases hf⟩
    rintro m ⟨⟩
    exact ⟨hsnap.record, hsnap.describes, hsnap.ordered, hsnap.revision⟩
  | plan =>
    obtain ⟨-, h⟩ := ite_none_right_eq_some.mp h
    obtain ⟨m, hm, rfl⟩ := map_eq_some_iff.mp h
    refine ⟨⟨hs.toDrafted, hs.held, hs.guard, hs.lock, ?_, hs.compares, hs.writes, hs.fresh,
      hs.lands⟩, fun _ hf => by cases hf⟩
    rintro m ⟨⟩
    exact hm
  | buffer a => exact ⟨hs.buffer hsees.1 h, fun _ hf => by cases hf⟩
  | abandon =>
    cases h
    refine ⟨⟨hs.toDrafted, hs.held, hs.guard, hs.lock, ?_, hs.compares, hs.writes, hs.fresh,
      hs.lands⟩, fun _ hf => by cases hf⟩
    intro m hm
    cases hm
  | flush f =>
    obtain ⟨hplanned, rfl⟩ := ite_some_none_eq_some.mp h
    exact hs.flush hplanned hsees
  | scrub chunk revision =>
    cases h
    exact ⟨hs.scrub hsees, fun _ hf => by cases hf⟩
  | other ops =>
    cases h
    refine ⟨hs.commit fun k hk => ?_, fun _ hf => by cases hf⟩
    refine Store.get_commit_of_untouched fun op hop => ?_
    obtain ⟨hinode, hextent, hlock, hgen⟩ := hu op hop
    rcases hk with (rfl | ⟨chunk, rfl⟩) | rfl | rfl
    · exact hinode
    · exact hextent chunk
    · exact hlock
    · exact hgen

end Undisturbed

end

/-! ## The size of a flush -/

section

variable {c : FileConfig} {s t : Delegation}

theorem delegation_flush_pending (f : FlushFaults) : (s.flush c f).file.pending = .none ∨
    ∃ data, (s.flush c f).file.pending = { s.file.pending with data := data } := by
  have hend := s.flush_end c f
  generalize s.flush c f = t at hend ⊢
  have hlost : s.storeData.keyLost.file.pending = .none ∨
      ∃ data, s.storeData.keyLost.file.pending = { s.file.pending with data := data } := by
    unfold Delegation.keyLost
    split
    · exact .inr ⟨[], rfl⟩
    · exact .inl rfl
  cases hend with
  | idle | unstored => exact .inr ⟨s.file.pending.data, rfl⟩
  | untold | landed | stuck => exact .inr ⟨[], rfl⟩
  | unheld | committed | fenced | adopted => exact .inl rfl
  | keyLost => exact hlost

theorem roomy_step (hs : Roomy c.ino s.file.pending) {act : DelegationAct}
    (hu : Uninterrupted c s act) (hsees : SeesPresent c s act) (h : s.step c act = some t) :
    Roomy c.ino t.file.pending := by
  cases act with
  | keyLost | release | shutDown | acquire => exact hu.elim
  | read age =>
    obtain ⟨-, h⟩ := ite_none_right_eq_some.mp h
    obtain ⟨etcd, -, h⟩ := bind_eq_some_iff.mp h
    obtain ⟨record, -, h⟩ := bind_eq_some_iff.mp h
    cases h
    exact hs
  | plan =>
    obtain ⟨-, h⟩ := ite_none_right_eq_some.mp h
    obtain ⟨m, -, rfl⟩ := map_eq_some_iff.mp h
    exact hs
  | buffer a =>
    obtain ⟨m, -, h⟩ := bind_eq_some_iff.mp h
    simp only [ite_none_right_eq_some] at h
    obtain ⟨⟨hino, -, -, -, hfull⟩, h⟩ := h
    obtain ⟨replay, -, rfl⟩ := map_eq_some_iff.mp h
    rw [← hino] at hs ⊢
    have hjoin := hs.join (a.heldBytes (a.hold 0)) hsees.2 (roomy_of_not_full hfull)
    exact ⟨hjoin.ops_nodup, hjoin.owned, hjoin.ops_of, hjoin.ops_le, hjoin.cmps_le⟩
  | abandon =>
    cases h
    exact hs
  | flush f =>
    obtain ⟨-, rfl⟩ := ite_some_none_eq_some.mp h
    rcases delegation_flush_pending f with hnone | ⟨data, hsame⟩
    · rw [hnone]
      exact (Accumulated.none (n := c.node)).roomy
    · rw [hsame]
      exact ⟨hs.ops_nodup, hs.owned, hs.ops_of, hs.ops_le, hs.cmps_le⟩
  | scrub chunk revision =>
    cases h
    unfold Delegation.scrub
    split <;> exact hs
  | other ops =>
    cases h
    exact hs

end

structure JustTaken (c : FileConfig) (s : Delegation) : Prop where
  file : (getInode s.file.etcd c.ino).isSome = true
  pending : s.file.pending = .none
  cached : s.file.cached = none
  planned : s.planned = none
  held : s.held = true
  guard : s.file.etcd.holds c.node.guard = true
  lock : (s.file.etcd.get (.lock c.ino .exclusive s.file.holder)).isSome = true

theorem arrive_undisturbed {c : FileConfig} {s : LateFlushes} {x : FlushTxn}
    (hs : Undisturbed c s.entry)
    (hpresent : s.entry.file.etcd.txn x.1 x.2 ≠ none → x = s.entry.request c) :
    Undisturbed c (s.arrive x) ∧ (s.arrive x).file.pending = s.entry.file.pending := by
  unfold LateFlushes.arrive
  split
  case h_2 => exact ⟨hs, rfl⟩
  case h_1 etcd hetcd =>
    obtain ⟨-, htxn⟩ := ite_none_right_eq_some.mp hetcd
    obtain rfl := hpresent (by rw [htxn]; exact some_ne_none etcd)
    obtain ⟨-, rfl⟩ := Store.txn_eq_some_iff.mp htxn
    exact ⟨hs.landed, rfl⟩

/-- In every uninterrupted run in which the snapshots and the listings after a lost
reply are read from the present store, no record goes under the snapshot, no write
joins a buffer that got in unheard or has more runs than etcd takes, and no request
arrives for a buffer that has changed since, every flush that is answered publishes the
buffer or finds it published. -/
theorem along_publishesBuffer {c : FileConfig} {s : Delegation} (hs : JustTaken c s)
    {acts : List LateAct}
    (hc : (lateFlushes c).Along (fun s act _ => OfEntry (Uninterrupted c) s act ∧
      OfEntry (SeesPresent c) s act ∧ ArrivesPresent c s act) ⟨s, []⟩ acts) :
    (lateFlushes c).Along (fun s act t => ∀ a, act = .entry a → PublishesBuffer s.entry a t.entry)
      ⟨s, []⟩ acts := by
  have hstart : Undisturbed c s := by
    refine .of_empty (isSome_iff_exists.mp hs.file) hs.pending ?_ hs.held hs.guard hs.lock
      hs.planned
    intro m hm
    cases hs.cached.symm.trans hm
  have hroom : Roomy c.ino s.file.pending := by
    rw [hs.pending]
    exact (Accumulated.none (n := c.node)).roomy
  refine Machine.Along.of_invariant
    (I := fun s => Undisturbed c s.entry ∧ Roomy c.ino s.entry.file.pending) ?_
    ⟨hstart, hroom⟩ hc
  rintro s act t ⟨hs, hroom⟩ ⟨hu, hsees, harrives⟩ h
  cases act with
  | entry act =>
    have hquiet : Undisturbed c { s.entry with discarded := none } :=
      ⟨hs.toDrafted, hs.held, hs.guard, hs.lock, hs.planned, hs.compares, hs.writes, hs.fresh,
        hs.lands⟩
    -- what is buffered fits, so no flush is refused for its size
    have hsub : Submittable (s.entry.request c) :=
      (hroom.publishable .exclusive s.entry.file.holder).guarded
    have hfits : (s.entry.request c).fits = true := by
      rw [FlushTxn.fits, Bool.and_eq_true]
      exact ⟨decide_eq_true hsub.cmps_le, decide_eq_true hsub.ops_le⟩
    have hsized : s.sized c act = act := by
      cases act with
      | flush f => rw [LateFlushes.sized, if_pos hfits]
      | _ => rfl
    obtain ⟨e, he, rfl⟩ := map_eq_some_iff.mp h
    rw [hsized] at he
    obtain ⟨hs', hpub⟩ := hquiet.step hu hsees he
    refine ⟨⟨hs', roomy_step (s := { s.entry with discarded := none }) hroom hu hsees he⟩, ?_⟩
    rintro a ⟨⟩
    exact hpub
  | delay =>
    obtain ⟨-, rfl⟩ := ite_some_none_eq_some.mp h
    refine ⟨⟨hs.storeData, ?_⟩, fun a ha => by cases ha⟩
    exact ⟨hroom.ops_nodup, hroom.owned, hroom.ops_of, hroom.ops_le, hroom.cmps_le⟩
  | arrive k =>
    obtain ⟨x, hx, rfl⟩ := map_eq_some_iff.mp h
    obtain ⟨hs', hsame⟩ := arrive_undisturbed hs (harrives x hx)
    refine ⟨⟨hs', ?_⟩, fun a ha => by cases ha⟩
    rw [hsame]
    exact hroom

theorem soloDelegation_justTaken : JustTaken soloConfig soloDelegation :=
  ⟨rfl, rfl, rfl, rfl, rfl, by decide, rfl⟩

instance (c : FileConfig) (s : Delegation) : (act : DelegationAct) → Decidable (SeesPresent c s act)
  | .read _ => inferInstanceAs (Decidable (∀ etcd ∈ _, _ ∧ _))
  | .buffer _ => inferInstanceAs (Decidable (_ ∧ _))
  | .flush _ | .scrub _ _ => inferInstanceAs (Decidable (_ → _))
  | .plan | .abandon | .keyLost | .release | .shutDown | .acquire _ | .other _ => .isTrue trivial

instance (P : Delegation → DelegationAct → Prop) [∀ s act, Decidable (P s act)] (s : LateFlushes) :
    (act : LateAct) → Decidable (OfEntry P s act)
  | .entry act => inferInstanceAs (Decidable (P s.entry act))
  | .delay | .arrive _ => .isTrue trivial

/-- One attempt never gets to etcd, the next gets in unheard, and the last finds it. -/
theorem along_publishesBuffer_retried :
    (lateFlushes soloConfig).Along (fun s act t => ∀ a, act = .entry a →
        PublishesBuffer s.entry a t.entry) ⟨soloDelegation, []⟩
      ((.read 0 :: bufferSolo 0).map .entry ++
        [.delay, .entry (flushSolo .lost), .entry (flushSolo .answered)]) := by
  apply along_publishesBuffer soloDelegation_justTaken
  apply Machine.Along.and
  · apply Machine.along_of_forall
    simp [bufferSolo, flushSolo, OfEntry, Uninterrupted]
  apply Machine.Along.and
  · decide +kernel
  · apply Machine.along_of_forall
    simp [bufferSolo, ArrivesPresent]

def writeAfterLost : List LateAct :=
  (.read 0 :: bufferSolo 0 ++ flushSolo .lost :: bufferSolo 1 ++ [flushSolo .answered]).map .entry

/-- The attempt is answered and refused under the lock, and the buffer stays. -/
theorem write_after_lost_sticks :
    (lateFlushes soloConfig).Along (fun s act _ => OfEntry (Uninterrupted soloConfig) s act)
      ⟨soloDelegation, []⟩ writeAfterLost ∧
    ((lateFlushes soloConfig).exec ⟨soloDelegation, []⟩ writeAfterLost).map
      (fun t => (t.entry.held, t.entry.file.pending.ops.length, t.entry.discarded,
        (t.entry.file.etcd.get (.lock 7 .exclusive t.entry.file.holder)).isSome)) =
      some (true, 3, none, true) := by
  constructor
  · apply Machine.along_of_forall
    simp [writeAfterLost, bufferSolo, flushSolo, OfEntry, Uninterrupted]
  · decide +kernel

end EtcFS.Correctness
