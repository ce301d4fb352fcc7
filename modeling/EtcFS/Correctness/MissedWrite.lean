import EtcFS.Ipc.SharedFile

/-!
# The snapshot under a lock key

A node that has just taken the key reads the file's record and extents. Nothing makes that read as
recent as the key.
-/

namespace EtcFS.Correctness

open EtcFS.Core Metadata Arena Ipc List Option Core.Store

def SnapshotsShow (s : SharedState) : Prop :=
  ∀ n, (s.entries n).mode ≠ none → ∀ m ∈ (s.entries n).file.cached,
    ∀ w ∈ (s.entries n).before,
      w.ShownBy m.record.size (m.extents.map Extent.toExtentValue)

def LoadsPresent (c : SharedConfig) (s : SharedState) (step : SharedStep) (_ : SharedState) :
    Prop :=
  match step with
  | .load _ age => ∀ old ∈ (s.etcd :: s.past)[age]?,
      getInode old c.ino = getInode s.etcd c.ino ∧
        getExtents old c.ino = getExtents s.etcd c.ino
  | _ => True

instance (c : SharedConfig) (s : SharedState) (step : SharedStep) (t : SharedState) :
    Decidable (LoadsPresent c s step t) := by
  unfold LoadsPresent
  split <;> infer_instance

/-! ## The invariant -/

structure EntryInv (c : SharedConfig) (s : SharedState) (n : Nat) : Prop where
  before : ∀ w ∈ (s.entries n).before, w ∈ s.published
  key : ∀ mode, (s.entries n).mode = some mode →
    (s.etcd.get (.lock c.ino mode (s.entries n).file.holder)).isSome = true
  /-- Only an exclusive holder has writes in its buffer. -/
  idle : (s.entries n).mode ≠ some .exclusive →
    (s.entries n).file.pending = .none ∧ (s.entries n).writes = []
  /-- A reader's snapshot is what etcd has. -/
  shared : (s.entries n).mode = some .shared → ∀ m, (s.entries n).file.cached = some m →
    getInode s.etcd c.ino = some m.record ∧ m.extents = getExtents s.etcd c.ino
  /-- A writer's snapshot is what etcd will have once its buffer is published, with every
  write in it. -/
  exclusive : (s.entries n).mode = some .exclusive → Coherent (c.file n) (s.view n) ∧
    ∀ w ∈ s.published ++ (s.entries n).writes, StoreShows c.ino (s.view n).shown w
  alone : (s.entries n).mode = some .exclusive → ∀ n', n' ≠ n → (s.entries n').mode = none

structure SharedFileInv (c : SharedConfig) (s : SharedState) : Prop where
  file : ∃ record, getInode s.etcd c.ino = some record
  published : ∀ w ∈ s.published, StoreShows c.ino s.etcd w
  entries : ∀ n, EntryInv c s n
  /-- No two nodes have one key. -/
  distinct : ∀ n n' mode, n ≠ n' → (s.entries n).mode = some mode →
    (s.entries n').mode = some mode → (s.entries n).file.holder ≠ (s.entries n').file.holder

section

variable {c : SharedConfig} {s t : SharedState} {n : Nat}

theorem SharedFileInv.snapshotsShow (h : SharedFileInv c s) : SnapshotsShow s := by
  intro n hmode m hm w hw
  have he := h.entries n
  have hpub := he.before w hw
  cases hmode' : (s.entries n).mode with
  | none => exact absurd hmode' hmode
  | some mode =>
    cases mode with
    | shared =>
      obtain ⟨hrec, hext⟩ := he.shared hmode' m hm
      obtain ⟨record, hrec', hshown⟩ := h.published w hpub
      obtain rfl := some.inj (hrec.symm.trans hrec')
      rw [hext]
      exact hshown
    | exclusive =>
      obtain ⟨hcoh, hshow⟩ := he.exclusive hmode'
      exact (hcoh.cached m hm).shownBy (hshow w (mem_append_left _ hpub))

structure Spares (c : SharedConfig) (s : SharedState) (etcd : Etcd) (n : Nat) : Prop where
  not_writer : (s.entries n).mode ≠ some .exclusive
  key : ∀ mode, (s.entries n).mode = some mode →
    (etcd.get (.lock c.ino mode (s.entries n).file.holder)).isSome = true
  file : (s.entries n).mode = some .shared → getInode etcd c.ino = getInode s.etcd c.ino ∧
    getExtents etcd c.ino = getExtents s.etcd c.ino

theorem Spares.of_none {etcd : Etcd} (h : (s.entries n).mode = none) : Spares c s etcd n := by
  refine ⟨?_, ?_, ?_⟩ <;> simp [h]

theorem EntryInv.frame (h : EntryInv c s n) (hs : Spares c s t.etcd n)
    (hentry : t.entries n = s.entries n) (hpub : ∀ w ∈ s.published, w ∈ t.published) :
    EntryInv c t n where
  before := by
    rw [hentry]
    exact fun w hw => hpub w (h.before w hw)
  key := by
    rw [hentry]
    exact hs.key
  idle := by
    rw [hentry]
    exact h.idle
  shared := by
    rw [hentry]
    intro hmode m hm
    obtain ⟨hrec, hext⟩ := hs.file hmode
    rw [hrec, hext]
    exact h.shared hmode m hm
  exclusive := by
    rw [hentry]
    exact fun hmode => absurd hmode hs.not_writer
  alone := by
    rw [hentry]
    exact fun hmode => absurd hmode hs.not_writer

theorem SharedFileInv.after (h : SharedFileInv c s) {file : FileState} {entry : NodeEntry}
    {published : List PlannedWrite} (hpub : ∀ w ∈ s.published, w ∈ published)
    (hfile : ∃ record, getInode file.etcd c.ino = some record)
    (hstored : ∀ w ∈ published, StoreShows c.ino file.etcd w)
    (hself : EntryInv c (s.after n file entry published) n)
    (hothers : ∀ n', n' ≠ n → Spares c s file.etcd n')
    (hdistinct : ∀ n', n' ≠ n → ∀ mode, entry.mode = some mode →
      (s.entries n').mode = some mode → file.holder ≠ (s.entries n').file.holder) :
    SharedFileInv c (s.after n file entry published) where
  file := hfile
  published := hstored
  entries := by
    intro n'
    by_cases hn : n' = n
    · rw [hn]
      exact hself
    · exact (h.entries n').frame (hothers n' hn) (SharedState.after_entries_of_ne hn) hpub
  distinct := by
    intro k k' mode hne hk hk'
    by_cases hkn : k = n
    · subst hkn
      have hkn' : k' ≠ k := fun he => hne he.symm
      rw [SharedState.after_entries_of_ne hkn'] at hk' ⊢
      rw [SharedState.after_entries_self] at hk ⊢
      exact hdistinct k' hkn' mode hk hk'
    · rw [SharedState.after_entries_of_ne hkn] at hk ⊢
      by_cases hkn' : k' = n
      · subst hkn'
        rw [SharedState.after_entries_self] at hk' ⊢
        exact (hdistinct k hkn mode hk' hk).symm
      · rw [SharedState.after_entries_of_ne hkn'] at hk' ⊢
        exact h.distinct k k' mode hne hk hk'

theorem SharedFileInv.own (h : SharedFileInv c s) (hmode : (s.entries n).mode = some .exclusive)
    {file : FileState} {entry : NodeEntry} {published : List PlannedWrite}
    (hentry : entry.mode = some .exclusive) (hbefore : entry.before = (s.entries n).before)
    (hpub : ∀ w ∈ s.published, w ∈ published) (hcoh : Coherent (c.file n) file)
    (hshow : ∀ w ∈ published ++ entry.writes, StoreShows c.ino file.shown w)
    (hfile : ∃ record, getInode file.etcd c.ino = some record)
    (hstored : ∀ w ∈ published, StoreShows c.ino file.etcd w) :
    SharedFileInv c (s.after n file entry published) := by
  have hnone := (h.entries n).alone hmode
  refine h.after hpub hfile hstored ?_ (fun n' hn => .of_none (hnone n' hn)) ?_
  · refine ⟨?_, ?_, ?_, ?_, ?_, ?_⟩ <;> rw [SharedState.after_entries_self]
    · rw [hbefore]
      exact fun w hw => hpub w ((h.entries n).before w hw)
    · intro mode hm
      obtain rfl := some.inj (hentry.symm.trans hm)
      exact hcoh.lock
    · exact fun hne => absurd hentry hne
    · intro hm
      rw [hentry] at hm
      cases hm
    · rw [SharedState.after_view]
      exact fun _ => ⟨hcoh, hshow⟩
    · intro _ n' hn
      rw [SharedState.after_entries_of_ne hn]
      exact hnone n' hn
  · intro n' hn mode _ hm
    rw [hnone n' hn] at hm
    cases hm

variable {mode : LockMode}

theorem SharedFileInv.not_writer (h : SharedFileInv c s)
    (hmode : (s.entries n).mode = some mode) {n' : Nat} (hn : n' ≠ n) :
    (s.entries n').mode ≠ some .exclusive := by
  intro hm
  rw [(h.entries n').alone hm n hn.symm] at hmode
  cases hmode

/-! ## The steps -/

theorem SharedFileInv.buffer (h : SharedFileInv c s) {a : WriteAct}
    (hstep : (sharedFile c).step s (.buffer n a) = some t) : SharedFileInv c t := by
  obtain ⟨hmode, hstep⟩ := ite_none_right_eq_some.mp hstep
  obtain ⟨m, hm, hstep⟩ := bind_eq_some_iff.mp hstep
  obtain ⟨file, hb, hstep⟩ := bind_eq_some_iff.mp hstep
  cases hstep
  obtain ⟨hcoh, hshow⟩ := (h.entries n).exclusive hmode
  obtain ⟨hplan, hbuf⟩ := buffered_spec hcoh.toPlanning hb
  have hlock : (file.etcd.get (.lock c.ino .exclusive file.holder)).isSome = true := by
    obtain ⟨m', replay, -, -, -, -, -, -, rfl⟩ := buffered_eq hb
    exact hcoh.lock
  refine h.own hmode hmode rfl (fun w hw => hw) ⟨hplan, hlock⟩ ?_ ?_ ?_
  · intro w hw
    rw [← append_assoc] at hw
    rcases mem_append.mp hw with hw | hw
    · exact hbuf.written.storeShows (hshow w hw)
    · obtain rfl := mem_singleton.mp hw
      obtain ⟨record, hrec⟩ := hcoh.file
      rw [(hcoh.cached m hm).nextSeq_eq]
      exact hbuf.written.storeShows_self hrec
  · rw [hbuf.etcd]
    exact h.file
  · rw [hbuf.etcd]
    exact h.published

theorem SharedFileInv.flush (h : SharedFileInv c s) (hmode : (s.entries n).mode = some .exclusive)
    {file : FileState} (hf : (s.view n).flush (c.file n) = some file) :
    SharedFileInv c (s.flushed n file) := by
  obtain ⟨hcoh, hshow⟩ := (h.entries n).exclusive hmode
  obtain ⟨file', hf', hflushed⟩ := flush_spec hcoh
  obtain rfl : file = file' := Option.some.inj (hf.symm.trans hf')
  have hstored : ∀ w ∈ s.published ++ (s.entries n).writes, StoreShows c.ino file.etcd w :=
    fun w hw => (hshow w hw).congr (congrArg (Option.map Versioned.value) (hflushed.get _))
      (getExtents_congr fun _ => hflushed.get _)
  refine h.own hmode hmode rfl (fun w hw => mem_append_left _ hw) hflushed.coherent ?_
    hflushed.getInode hstored
  intro w hw
  rw [append_nil] at hw
  exact (storeShows_shown_iff hflushed.empty).mpr (hstored w hw)

theorem SharedFileInv.commit (h : SharedFileInv c s) {a : WriteAct} {relist : Bool}
    (hstep : (sharedFile c).step s (.commit n a relist) = some t) : SharedFileInv c t := by
  obtain ⟨⟨hmode, hempty, hino, hr⟩, hstep⟩ := ite_none_right_eq_some.mp hstep
  obtain ⟨m, hm, hstep⟩ := bind_eq_some_iff.mp hstep
  obtain ⟨r, hpub, hstep⟩ := bind_eq_some_iff.mp hstep
  cases hstep
  obtain ⟨hcoh, hshow⟩ := (h.entries n).exclusive hmode
  have hops : (s.view n).pending.ops = [] := Pending.isEmpty_iff.mp hempty
  have hsnap : Snapshot (c.file n) (s.view n) m := hcoh.cached m hm
  have hext : m.extents = getExtents s.etcd c.ino := hsnap.extents_eq hops
  have hlist : (if relist then getExtents s.etcd c.ino else m.extents) =
      getExtents s.etcd c.ino := by
    split
    · rfl
    · exact hext
  rw [hlist] at hpub ⊢
  have hrec : getInode (s.view n).etcd c.ino = some m.record :=
    (getInode_shown_of_empty hops _).symm.trans hsnap.record
  obtain ⟨file, blocks, hcommit, hcoh', hdone⟩ :=
    commitWrite_spec hcoh (hcoh.emptied hops) hrec hino hr
  have hfile : (s.view n).afterCommit (c.file n) a m.record (getExtents s.etcd c.ino) r = file := by
    simp only [FileState.commitWrite, SharedState.view, SharedConfig.file, hpub, map_some,
      some_or] at hcommit
    exact some.inj hcommit
  rw [hfile]
  have hops' : file.pending.ops = [] := congrArg Pending.ops hdone.pending
  have hold : ∀ w ∈ s.published ++ (s.entries n).writes, StoreShows c.ino file.shown w :=
    fun w hw => hdone.written.storeShows (hshow w hw)
  have hnew : StoreShows c.ino file.shown ⟨a.req, nextSeq (getExtents s.etcd c.ino)⟩ := by
    rw [← hext, hsnap.nextSeq_eq]
    exact hdone.written.storeShows_self hsnap.record
  refine h.own hmode hmode rfl (fun w hw => mem_append_left _ hw) hcoh' ?_ ?_ ?_
  · intro w hw
    rcases mem_append.mp hw with hw | hw
    · rcases mem_append.mp hw with hw | hw
      · exact hold w (mem_append_left _ hw)
      · obtain rfl := mem_singleton.mp hw
        exact hnew
    · exact hold w (mem_append_right _ hw)
  · obtain ⟨record, hrecord⟩ := hcoh'.file
    exact ⟨record, (getInode_shown_of_empty hops' _).symm.trans hrecord⟩
  · intro w hw
    refine (storeShows_shown_iff hops').mp ?_
    rcases mem_append.mp hw with hw | hw
    · exact hold w (mem_append_left _ hw)
    · obtain rfl := mem_singleton.mp hw
      exact hnew

theorem lockOp_frame (etcd : Etcd) {ino ino' : Nat} {holder : Holder}
    (op : Op Val) (hop : op.key = .lock ino mode holder) :
    (∀ k, k ≠ .lock ino mode holder → (etcd.commit [op]).get k = etcd.get k) ∧
      getInode (etcd.commit [op]) ino' = getInode etcd ino' ∧
      getExtents (etcd.commit [op]) ino' = getExtents etcd ino' := by
  have hget : ∀ k, k ≠ .lock ino mode holder → (etcd.commit [op]).get k = etcd.get k := by
    intro k hk
    refine get_commit_of_untouched ?_
    intro x hx
    rw [mem_singleton.mp hx, hop]
    exact hk.symm
  exact ⟨hget, congrArg (Option.map Versioned.value) (hget _ (by simp)),
    getExtents_congr fun _ => hget _ (by simp)⟩

theorem SharedFileInv.acquire (h : SharedFileInv c s) {token : Holder}
    (hstep : (sharedFile c).step s (.acquire n mode token) = some t) : SharedFileInv c t := by
  obtain ⟨⟨hnone, hfresh⟩, hstep⟩ := ite_none_right_eq_some.mp hstep
  obtain ⟨etcd, htxn, rfl⟩ := map_eq_some_iff.mp hstep
  obtain ⟨hfree, rfl⟩ := txn_eq_some_iff.mp htxn
  have hfree := holds_rangeAbsent.mp (hfree _ (mem_singleton_self _))
  -- a key in the range would have refused the transaction
  have hblocked : ∀ n' mode', (s.entries n').mode = some mode' →
      ¬ (mode = .exclusive ∨ mode' = .exclusive) := by
    intro n' mode' hm hor
    have hkey := (h.entries n').key mode' hm
    rw [hfree _ (by simp [lockBlocks, hor])] at hkey
    cases hkey
  obtain ⟨hget, hrec, hext⟩ := lockOp_frame s.etcd (.put (.lock c.ino mode token) (c.node n).id) rfl
  have hput : ((s.etcd.commit [.put (.lock c.ino mode token) (c.node n).id]).get
      (.lock c.ino mode token)).isSome = true := by
    rw [get_commit]
    simp [effect]
  have hidle := (h.entries n).idle (by simp [hnone])
  have hfile : ∃ record, getInode
      (s.etcd.commit [.put (.lock c.ino mode token) (c.node n).id]) c.ino = some record := by
    rw [hrec]
    exact h.file
  have hstored : ∀ w ∈ s.published, StoreShows c.ino
      (s.etcd.commit [.put (.lock c.ino mode token) (c.node n).id]) w :=
    fun w hw => (h.published w hw).congr hrec hext
  -- the token is one that nobody holds
  have htoken : ∀ n' mode', (s.entries n').mode = some mode' →
      Key.lock c.ino mode' (s.entries n').file.holder ≠ .lock c.ino mode token := by
    intro n' mode' hm he
    have hkey := (h.entries n').key mode' hm
    rw [he, hfresh] at hkey
    cases hkey
  refine h.after (fun w hw => hw) hfile hstored ?_ ?_ ?_
  · refine ⟨?_, ?_, ?_, ?_, ?_, ?_⟩ <;> rw [SharedState.after_entries_self]
    · exact fun w hw => hw
    · intro mode' hm
      cases hm
      exact hput
    · exact fun _ => hidle
    · intro _ m hm
      cases hm
    · intro hm
      cases hm
      rw [SharedState.after_view]
      have hpending : (s.view n).pending = .none := hidle.1
      refine ⟨coherent_of_idle hpending rfl hput hfile, ?_⟩
      intro w hw
      rw [hidle.2, append_nil] at hw
      refine (storeShows_shown_iff ?_).mpr (hstored w hw)
      exact congrArg Pending.ops hpending
    · intro hm n' hn
      cases hm
      rw [SharedState.after_entries_of_ne hn]
      by_contra hne
      obtain ⟨mode', hm'⟩ := ne_none_iff_exists'.mp hne
      exact hblocked n' mode' hm' (.inl rfl)
  · intro n' _
    refine ⟨fun hm => hblocked n' _ hm (.inr rfl), ?_, fun _ => ⟨hrec, hext⟩⟩
    intro mode' hm
    rw [hget _ (htoken n' mode' hm)]
    exact (h.entries n').key mode' hm
  · intro n' _ mode' hm hm' he
    cases hm
    exact htoken n' mode hm' (congrArg _ he.symm)

theorem SharedFileInv.load (h : SharedFileInv c s) {age : Nat}
    (hpresent : LoadsPresent c s (.load n age) t)
    (hstep : (sharedFile c).step s (.load n age) = some t) : SharedFileInv c t := by
  obtain ⟨⟨hheld, -, hempty⟩, hstep⟩ := ite_none_right_eq_some.mp hstep
  obtain ⟨old, hold, hstep⟩ := bind_eq_some_iff.mp hstep
  obtain ⟨record, hrec, hstep⟩ := bind_eq_some_iff.mp hstep
  cases hstep
  obtain ⟨hsame, hext⟩ := hpresent old hold
  rw [hsame] at hrec
  rw [hext]
  have hops : (s.view n).pending.ops = [] := Pending.isEmpty_iff.mp hempty
  obtain ⟨mode, hmode⟩ := ne_none_iff_exists'.mp hheld
  cases mode with
  | exclusive =>
    obtain ⟨hcoh, hshow⟩ := (h.entries n).exclusive hmode
    exact h.own hmode hmode rfl (fun w hw => hw) (hcoh.withSnapshot (snapshot_read hops hrec))
      hshow h.file h.published
  | shared =>
    refine h.after (fun w hw => hw) h.file h.published ?_ ?_ ?_
    · refine ⟨?_, ?_, ?_, ?_, ?_, ?_⟩ <;> rw [SharedState.after_entries_self]
      · exact (h.entries n).before
      · exact (h.entries n).key
      · exact (h.entries n).idle
      · intro _ m hm
        cases hm
        exact ⟨hrec, rfl⟩
      · exact fun hm => absurd (hmode.symm.trans hm) (by simp)
      · exact fun hm => absurd (hmode.symm.trans hm) (by simp)
    · intro n' hn
      exact ⟨h.not_writer hmode hn, (h.entries n').key, fun _ => ⟨rfl, rfl⟩⟩
    · intro n' hn mode hm hm'
      exact h.distinct n n' mode hn.symm hm hm'

theorem SharedFileInv.release (h : SharedFileInv c s)
    (hmode : (s.entries n).mode = some mode) (hpending : (s.entries n).file.pending = .none)
    (hwrites : (s.entries n).writes = []) : SharedFileInv c (s.released c n mode) := by
  obtain ⟨hget, hrec, hext⟩ := lockOp_frame s.etcd
    (.delete (.lock c.ino mode (s.entries n).file.holder)) rfl
  refine h.after (fun w hw => hw) ?_ ?_ ?_ ?_ ?_
  · rw [hrec]
    exact h.file
  · exact fun w hw => (h.published w hw).congr hrec hext
  · refine ⟨?_, ?_, ?_, ?_, ?_, ?_⟩ <;> rw [SharedState.after_entries_self]
    · exact (h.entries n).before
    · intro mode' hm
      cases hm
    · exact fun _ => ⟨hpending, hwrites⟩
    · intro hm
      cases hm
    · intro hm
      cases hm
    · intro hm
      cases hm
  · intro n' hn
    refine ⟨h.not_writer hmode hn, ?_, fun _ => ⟨hrec, hext⟩⟩
    intro mode' hm
    rw [hget]
    · exact (h.entries n').key mode' hm
    · intro he
      obtain ⟨-, rfl, hholder⟩ := Key.lock.inj he
      exact h.distinct n' n mode' hn hm hmode hholder
  · intro n' _ mode' hm
    cases hm

theorem SharedFileInv.step (h : SharedFileInv c s) {step : SharedStep}
    (hpresent : LoadsPresent c s step t) (hstep : (sharedFile c).step s step = some t) :
    SharedFileInv c t := by
  cases step with
  | acquire n mode token => exact h.acquire hstep
  | load n age => exact h.load hpresent hstep
  | buffer n a => exact h.buffer hstep
  | flush n =>
    obtain ⟨hmode, hstep⟩ := ite_none_right_eq_some.mp hstep
    obtain ⟨file, hflush, rfl⟩ := map_eq_some_iff.mp hstep
    exact h.flush hmode hflush
  | commit n a relist => exact h.commit hstep
  | «recall» n =>
    simp only [sharedFile] at hstep
    split at hstep
    · cases hstep
    · rename_i hmode
      cases hstep
      obtain ⟨hpending, hwrites⟩ := (h.entries n).idle (by simp [hmode])
      exact h.release hmode hpending hwrites
    · rename_i hmode
      obtain ⟨file, hflush, rfl⟩ := map_eq_some_iff.mp hstep
      have hfile := h.flush hmode hflush
      refine hfile.release ?_ ?_ ?_
      all_goals rw [SharedState.flushed, SharedState.after_entries_self]
      · exact hmode
      · obtain ⟨file', hf', hflushed⟩ := flush_spec ((h.entries n).exclusive hmode).1
        obtain rfl : file = file' := some.inj (hflush.symm.trans hf')
        exact hflushed.pending

end

structure Unopened (c : SharedConfig) (s : SharedState) : Prop where
  file : ∃ record, getInode s.etcd c.ino = some record
  mode : ∀ n, (s.entries n).mode = none
  pending : ∀ n, (s.entries n).file.pending = .none
  writes : ∀ n, (s.entries n).writes = []
  before : ∀ n, (s.entries n).before = []
  published : s.published = []

theorem Unopened.inv {c : SharedConfig} {s : SharedState} (h : Unopened c s) :
    SharedFileInv c s where
  file := h.file
  published := by simp [h.published]
  entries := fun n => by
    refine ⟨?_, ?_, ?_, ?_, ?_, ?_⟩ <;> simp [h.mode, h.pending, h.writes, h.before]
  distinct := by simp [h.mode]

/-- Along every run whose snapshots are read from a store that has the file as it is, the
snapshot of every node that holds a key takes in each write published before. -/
theorem along_snapshotsShow {c : SharedConfig} {s : SharedState} (h : Unopened c s)
    {steps : List SharedStep} (hpresent : (sharedFile c).Along (LoadsPresent c) s steps) :
    (sharedFile c).Along (fun _ _ t => SnapshotsShow t) s steps := by
  refine Machine.Along.of_invariant (I := SharedFileInv c) ?_ h.inv hpresent
  intro s step t hs hp hstep
  have ht := hs.step hp hstep
  exact ⟨ht, ht.snapshotsShow⟩

def twoNodes : SharedConfig where
  ino := 7
  node n := ⟨if n = 0 then "a" else "b", 0, fun _ => true⟩
  flushMaxBytes := 2 ^ 20

def unopened : SharedState where
  etcd := freshFile 7
  past := []
  device := fun _ => 0
  entries _ := ⟨none, { soloFile with etcd := freshFile 7 }, [], []⟩
  published := []

theorem unopened_twoNodes : Unopened twoNodes unopened where
  file := ⟨regularFile 7, by decide⟩
  mode := fun _ => rfl
  pending := fun _ => rfl
  writes := fun _ => rfl
  before := fun _ => rfl
  published := rfl

def handOver (age : Nat) : List SharedStep :=
  [.acquire 1 .exclusive ⟨2, 1⟩, .load 1 0,
    .buffer 1 (soloWrite false 0 [1, 2, 3] 0 three_bytes_ne three_bytes_bound), .recall 1,
    .acquire 0 .shared ⟨1, 1⟩, .load 0 age]

/-- A member that has seen neither key change still has the file. -/
theorem along_snapshotsShow_handOver :
    (sharedFile twoNodes).Along (fun _ _ t => SnapshotsShow t) unopened (handOver 2) :=
  along_snapshotsShow unopened_twoNodes (by decide +kernel)

/-- A member that has not seen the publication answers with the empty file, under a key
that was acquired after it. -/
theorem stale_load_misses_write :
    ∃ t m, (sharedFile twoNodes).exec unopened (handOver 3) = some t ∧
      (t.entries 0).mode = some .shared ∧ (t.entries 0).file.cached = some m ∧
      m.record.size = 0 ∧ m.extents = [] ∧
      (t.entries 0).before.map (fun w => w.req.data) = [[1, 2, 3]] ∧ ¬ SnapshotsShow t := by
  have hrun : ((sharedFile twoNodes).exec unopened (handOver 3)).bind (fun t =>
      (t.entries 0).file.cached.map fun m =>
        ((t.entries 0).mode, m.record.size, m.extents,
          (t.entries 0).before.map fun w => w.req.data)) =
      some (some .shared, 0, [], [[1, 2, 3]]) := by
    decide +kernel
  obtain ⟨t, ht, hrun⟩ := bind_eq_some_iff.mp hrun
  obtain ⟨m, hm, hrun⟩ := map_eq_some_iff.mp hrun
  obtain ⟨hmode, hsize, hext, hbefore⟩ : (t.entries 0).mode = some .shared ∧
      m.record.size = 0 ∧ m.extents = [] ∧
      (t.entries 0).before.map (fun w => w.req.data) = [[1, 2, 3]] := by
    simpa using hrun
  refine ⟨t, m, ht, hmode, hm, hsize, hext, hbefore, ?_⟩
  intro hshow
  have hmem : [1, 2, 3] ∈ (t.entries 0).before.map fun w => w.req.data := by
    rw [hbefore]
    exact mem_singleton_self _
  obtain ⟨w, hw, hdata⟩ := mem_map.mp hmem
  have hstop := (hshow 0 (by simp [hmode]) m hm w hw).1
  rw [hsize, WriteReq.stop, hdata] at hstop
  simp at hstop

end EtcFS.Correctness
