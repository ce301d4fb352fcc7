import EtcFS.Ipc.Stages

/-!
# One file on many nodes

Each node has its lock key, its buffer, and a snapshot, which is a serializable read that a member
that is behind may answer.
-/

namespace EtcFS.Ipc

open EtcFS.Core Metadata Arena

structure PlannedWrite where
  req : WriteReq
  seq : Nat

structure NodeEntry where
  /-- The mode of the key the node holds, under the holder token of the file state. -/
  mode : Option LockMode
  file : FileState
  /-- The writes whose metadata is in the buffer. -/
  writes : List PlannedWrite
  /-- The writes that had been published when the key was acquired. -/
  before : List PlannedWrite

structure SharedState where
  etcd : Etcd
  past : List Etcd
  device : Bytes
  entries : Nat → NodeEntry
  published : List PlannedWrite

structure SharedConfig where
  ino : Nat
  node : Nat → Node
  flushMaxBytes : Nat

def SharedConfig.file (c : SharedConfig) (n : Nat) : FileConfig :=
  ⟨c.node n, c.ino, c.flushMaxBytes⟩

inductive SharedStep where
  /-- `AcquireLock` under a token that was never used. -/
  | acquire (n : Nat) (mode : LockMode) (token : Holder)
  /-- `meta` without a cached snapshot. The read may be answered from a store this many
  steps old. -/
  | load (n : Nat) (age : Nat)
  /-- A write joins the buffer. -/
  | buffer (n : Nat) (a : WriteAct)
  /-- The buffer is published. -/
  | flush (n : Nat)
  /-- A synchronous write commits, planned from the cached extents or from a fresh listing. -/
  | commit (n : Nat) (a : WriteAct) (relist : Bool)
  /-- The buffer is published, the key deleted and the snapshot dropped. -/
  | recall (n : Nat)

def lockBlocks (ino : Nat) (mode : LockMode) : Key → Bool
  | .lock i m _ => decide (i = ino ∧ (mode = .exclusive ∨ m = .exclusive))
  | _ => false

namespace SharedState

def view (s : SharedState) (n : Nat) : FileState :=
  { (s.entries n).file with etcd := s.etcd, device := s.device }

def after (s : SharedState) (n : Nat) (file : FileState) (entry : NodeEntry)
    (published : List PlannedWrite) : SharedState where
  etcd := file.etcd
  past := s.etcd :: s.past
  device := file.device
  entries := Function.update s.entries n { entry with file := file }
  published := published

variable {published : List PlannedWrite}

@[simp] theorem after_entries_self {s : SharedState} {n : Nat} {file : FileState}
    {entry : NodeEntry} :
    (s.after n file entry published).entries n = { entry with file := file } :=
  Function.update_self ..

theorem after_entries_of_ne {s : SharedState} {n n' : Nat} {file : FileState}
    {entry : NodeEntry} (h : n' ≠ n) :
    (s.after n file entry published).entries n' = s.entries n' :=
  Function.update_of_ne h ..

@[simp] theorem after_view {s : SharedState} {n : Nat} {file : FileState} {entry : NodeEntry}
    : (s.after n file entry published).view n = file := by
  rw [view, after_entries_self]
  rfl

def acquired (s : SharedState) (n : Nat) (mode : LockMode) (token : Holder) (etcd : Etcd) :
    SharedState :=
  s.after n { s.view n with etcd := etcd, holder := token, cached := none }
    { s.entries n with mode := some mode, before := s.published } s.published

def loaded (s : SharedState) (n : Nat) (m : InodeMeta) : SharedState :=
  s.after n { s.view n with cached := some m } (s.entries n) s.published

def drafted (s : SharedState) (n : Nat) (w : PlannedWrite) (file : FileState) : SharedState :=
  s.after n file { s.entries n with writes := (s.entries n).writes ++ [w] } s.published

def flushed (s : SharedState) (n : Nat) (file : FileState) : SharedState :=
  s.after n file { s.entries n with writes := [] } (s.published ++ (s.entries n).writes)

def committed (s : SharedState) (n : Nat) (w : PlannedWrite) (file : FileState) : SharedState :=
  s.after n file (s.entries n) (s.published ++ [w])

def released (c : SharedConfig) (s : SharedState) (n : Nat) (mode : LockMode) : SharedState :=
  s.after n
    { s.view n with
      etcd := s.etcd.commit [.delete (.lock c.ino mode (s.entries n).file.holder)]
      cached := none }
    { s.entries n with mode := none } s.published

end SharedState

def sharedFile (c : SharedConfig) : Machine SharedState SharedStep where
  step s
    | .acquire n mode token =>
      if (s.entries n).mode = none ∧ (s.etcd.get (.lock c.ino mode token)).isSome = false then
        (s.etcd.txn [.rangeAbsent (lockBlocks c.ino mode)]
          [.put (.lock c.ino mode token) (c.node n).id]).map (s.acquired n mode token)
      else none
    | .load n age =>
      if (s.entries n).mode ≠ none ∧ (s.entries n).file.cached.isSome = false ∧
          (s.entries n).file.pending.isEmpty = true then do
        let old ← (s.etcd :: s.past)[age]?
        let record ← getInode old c.ino
        pure (s.loaded n ⟨record, getExtents old c.ino⟩)
      else none
    | .buffer n a =>
      if (s.entries n).mode = some .exclusive then do
        let m ← (s.entries n).file.cached
        let file ← (s.view n).buffered (c.file n) a
        pure (s.drafted n ⟨a.req, nextSeq m.extents⟩ file)
      else none
    | .flush n =>
      if (s.entries n).mode = some .exclusive then
        ((s.view n).flush (c.file n)).map (s.flushed n)
      else none
    | .commit n a relist =>
      if (s.entries n).mode = some .exclusive ∧ (s.entries n).file.pending.isEmpty = true ∧
          a.req.ino = c.ino ∧ RunsFor a.req.data.length a.runs then do
        let m ← (s.entries n).file.cached
        let extents := if relist then getExtents s.etcd c.ino else m.extents
        let r ← publishWrite (c.node n) a.req a.runs m.record extents s.etcd
        pure (s.committed n ⟨a.req, nextSeq extents⟩
          ((s.view n).afterCommit (c.file n) a m.record extents r))
      else none
    | .recall n =>
      match (s.entries n).mode with
      | none => none
      -- a reader buffers nothing
      | some .shared => some (s.released c n .shared)
      | some .exclusive => ((s.view n).flush (c.file n)).map fun file =>
        (s.flushed n file).released c n .exclusive

/-! ## What a store or a snapshot shows of a write -/

def PlannedWrite.ShownBy (w : PlannedWrite) (size : Nat) (vs : List ExtentValue) : Prop :=
  w.req.stop ≤ size ∧
    ∀ b, w.req.offset ≤ b → b < w.req.stop → ∃ e ∈ vs, e.Covers b ∧ w.seq ≤ e.seq

def StoreShows (ino : Nat) (etcd : Etcd) (w : PlannedWrite) : Prop :=
  ∃ record, getInode etcd ino = some record ∧ w.ShownBy record.size (extentsOf etcd ino)

theorem PlannedWrite.ShownBy.perm {w : PlannedWrite} {size : Nat} {vs vs' : List ExtentValue}
    (h : w.ShownBy size vs) (hp : vs.Perm vs') : w.ShownBy size vs' := by
  refine ⟨h.1, ?_⟩
  intro b hlo hhi
  obtain ⟨e, he, hcov⟩ := h.2 b hlo hhi
  exact ⟨e, hp.mem_iff.mp he, hcov⟩

theorem StoreShows.congr {ino : Nat} {s t : Etcd} {w : PlannedWrite} (h : StoreShows ino s w)
    (hrec : getInode t ino = getInode s ino) (hext : getExtents t ino = getExtents s ino) :
    StoreShows ino t w := by
  rw [StoreShows, hrec, extentsOf, hext]
  exact h

section

variable {c : FileConfig} {a : WriteAct} {st st' : FileState}

theorem getInode_shown_of_empty (hp : st.pending.ops = []) (ino : Nat) :
    getInode st.shown ino = getInode st.etcd ino :=
  congrArg (Option.map Versioned.value) (get_shown_of_empty hp _)

theorem storeShows_shown_iff (hp : st.pending.ops = []) {ino : Nat} {w : PlannedWrite} :
    StoreShows ino st.shown w ↔ StoreShows ino st.etcd w := by
  rw [StoreShows, StoreShows, getInode_shown_of_empty hp, extentsOf,
    getExtents_congr fun _ => get_shown_of_empty hp _]
  rfl

theorem Written.storeShows (h : Written c a st st') {w : PlannedWrite}
    (hw : StoreShows c.ino st.shown w) : StoreShows c.ino st'.shown w := by
  obtain ⟨record, hrec, hsize, hcov⟩ := hw
  refine ⟨_, h.record record hrec, hsize.trans (le_max_left ..), ?_⟩
  intro b hlo hhi
  obtain ⟨e, he, heb, hseq⟩ := hcov b hlo hhi
  by_cases hin : a.req.offset ≤ b ∧ b < a.req.stop
  · -- under the new write: its extents are newer
    obtain ⟨x, hx, hxb⟩ := h.overlay.cover b hin.1 hin.2
    exact ⟨x, h.overlay.mem_iff.mpr (.inl hx), hxb, hseq.trans (h.overlay.newer x hx e he).le⟩
  · have hout : b < a.req.offset ∨ a.req.stop ≤ b := by omega
    obtain ⟨y, hy, hyb⟩ := exists_cutBy_outside heb hout
    refine ⟨y, h.overlay.mem_iff.mpr (.inr ⟨e, he, hy⟩), hyb, ?_⟩
    rw [(cutBy_covers hy).1]
    exact hseq

theorem Written.storeShows_self (h : Written c a st st') {record : InodeRecord}
    (hrec : getInode st.shown c.ino = some record) :
    StoreShows c.ino st'.shown ⟨a.req, nextSeq (getExtents st.shown c.ino)⟩ := by
  refine ⟨_, h.record record hrec, le_max_right .., ?_⟩
  intro b hlo hhi
  obtain ⟨x, hx, hxb⟩ := h.overlay.cover b hlo hhi
  exact ⟨x, h.overlay.mem_iff.mpr (.inl hx), hxb, (newExtents_seq hx).ge⟩

theorem Snapshot.shownBy {m : InodeMeta} (h : Snapshot c st m) {w : PlannedWrite}
    (hw : StoreShows c.ino st.shown w) :
    w.ShownBy m.record.size (m.extents.map Extent.toExtentValue) := by
  obtain ⟨record, hrec, hshown⟩ := hw
  obtain rfl := Option.some.inj (h.record.symm.trans hrec)
  exact hshown.perm h.perm.symm

end

end EtcFS.Ipc
