import EtcFS.Correctness.LinkCounts
import EtcFS.Namespace.Descriptors

/-!
# Files that have lost their name and their descriptors

A last release between the mark of an unlink and its transaction finds a record that still has its
link.
-/

namespace EtcFS.Correctness

open EtcFS.Core Namespace Ipc List Option Core.Store
open Metadata hiding Key Val getInode

def OpensUnlinksReleases : DescStep → Prop
  | .name (.start _ op) => op.isUnlink = true
  | .name (.read _) | .name (.commit _ _) | .name (.giveUp _) | .plan _ | .retain _ | .release _
  | .readOrphan _ | .dropOrphan _ _ _ => True

instance : DecidablePred OpensUnlinksReleases
  | .name (.start _ op) => inferInstanceAs (Decidable (op.isUnlink = true))
  | .name (.read _) | .name (.commit _ _) | .name (.giveUp _) | .plan _ | .retain _ | .release _
  | .readOrphan _ | .dropOrphan _ _ _ => inferInstanceAs (Decidable True)

def regularFileOps (node : NodeID) : Machine DescState DescStep :=
  (descriptors node).only OpensUnlinksReleases

theorem exec_attempts {node : NodeID} {s t : DescState} {steps : List DescStep} {id : Nat}
    (hid : ∀ step ∈ steps, step.call ≠ some id) (h : (regularFileOps node).exec s steps = some t) :
    t.ns.attempts id = s.ns.attempts id := by
  induction steps generalizing s with
  | nil =>
    obtain rfl : s = t := some.inj h
    rfl
  | cons step steps ih =>
    obtain ⟨u, hu, ht⟩ := (Machine.exec_cons _).mp h
    rw [ih (fun step' hmem => hid step' (mem_cons_of_mem _ hmem)) ht]
    exact descAttempts_of_ne ((Machine.only_step _).mp hu).2 (hid step mem_cons_self)

def UnlinksFiles (s : DescState) : DescStep → Prop
  | .name step => StepRegular s.ns step
  | .plan _ | .retain _ | .release _ | .readOrphan _ | .dropOrphan _ _ _ => True

instance (s : DescState) : DecidablePred (UnlinksFiles s)
  | .name step => inferInstanceAs (Decidable (StepRegular s.ns step))
  | .plan _ | .retain _ | .release _ | .readOrphan _ | .dropOrphan _ _ _ =>
    inferInstanceAs (Decidable True)

def FindsMark (s : DescState) : DescStep → Prop
  | .name step => ∀ x ∈ s.ns.applied step, x.1.op.isHeld = true →
      ∀ ino ∈ x.1.op.asks x.1.read, s.files.orphaned ino = true ∨ ⟨ino, none⟩ ∈ s.orphans
  | .plan _ | .retain _ | .release _ | .readOrphan _ | .dropOrphan _ _ _ => True

instance (s : DescState) : DecidablePred (FindsMark s)
  | .name step => inferInstanceAs (Decidable (∀ x ∈ s.ns.applied step, _))
  | .plan _ | .retain _ | .release _ | .readOrphan _ | .dropOrphan _ _ _ =>
    inferInstanceAs (Decidable True)

structure NoneInFlight (s : DescState) : Prop where
  idle : ∀ id, s.ns.attempts id = none
  orphans : s.orphans = []

def FilesGone (node : NodeID) (s : DescState) : Prop :=
  ∀ ino, names (entries s.ns.tree) ino = 0 → s.files.count ino = 0 →
    (∀ rec, getInode s.ns.tree ino = some rec → IsDir rec) ∧
      s.ns.tree.get (.orphan node ino) = none

/-! ## What an unlink leaves -/

variable {rec : InodeRecord}

theorem put_of_unlinkInodeOps {r : InodeRecord} {now : Time} {i : Nat}
    (h : Op.put (.inode i) r ∈ unlinkInodeOps rec now) : r.nlink ≠ 0 := by
  rw [unlinkInodeOps] at h
  cases hleft : unlinkInode rec now with
  | none =>
    rw [hleft] at h
    rcases mem_cons.mp h with h | h
    · cases h
    · split at h
      · cases mem_singleton.mp h
      · cases h
  | some reduced =>
    rw [hleft] at h
    obtain ⟨-, rfl⟩ := Op.put.inj (mem_singleton.mp h)
    rw [unlinkInode] at hleft
    obtain ⟨-, hleft⟩ := ite_none_left_eq_some.mp hleft
    obtain ⟨hlt, rfl⟩ := ite_some_none_eq_some.mp hleft
    intro hzero
    have hzero : (rec.nlink - 1).toNat = 0 := congrArg UInt32.toNat hzero
    rw [UInt32.toNat_sub_of_le _ _ (UInt32.le_of_lt hlt)] at hzero
    have hlt : UInt32.toNat 1 < rec.nlink.toNat := UInt32.lt_iff_toNat_lt.mp hlt
    omega

theorem nlink_ne_zero_of_named {s : Tree} (hs : Sound s) {parent ino : Nat} {name : String}
    (hname : lookupDirent s parent name = some ino)
    (hrec : getInode s ino = some rec) (hdir : ¬ IsDir rec) : rec.nlink ≠ 0 := by
  intro hzero
  have hcount := hs.nlink ino rec hrec
  rw [expectedNlink, if_neg hdir, hzero] at hcount
  have hmem : (⟨parent, name, ino⟩ : Entry) ∈ entries s := mem_entries.mpr hname
  exact names_eq_zero.mp hcount.symm _ hmem rfl

structure Unlinked (node : NodeID) (s t : Tree) (a : Attempt) (ino : Nat) : Prop where
  linked : ∃ rec, getInode s ino = some rec ∧ rec.nlink ≠ 0
  others : ∀ i, i ≠ ino → getInode t i = getInode s i
  marks : ∀ i, i ≠ ino → t.get (.orphan node i) = s.get (.orphan node i)
  left : a.op.isHeld = true ∧ a.op.asks a.read = some ino ∨
    (∀ rec, getInode t ino = some rec → rec.nlink ≠ 0) ∧
      t.get (.orphan node ino) = s.get (.orphan node ino)

theorem unlink_keys {node : NodeID} {parent ino : Nat} {name : String} {held : Bool}
    {now : Time} (hown : rec.ino = ino) {o : Op Val}
    (ho : o ∈ Op.delete (.dirent parent name) ::
      if rec.nlink ≤ 1 ∧ ¬ IsDir rec ∧ held = true then
        [.put (.inode ino) { rec with nlink := 0, ctime := now }, .put (.orphan node ino) ()]
      else unlinkInodeOps rec now) :
    (∀ i, o.key = .inode i → i = ino) ∧ ∀ n i, o.key = .orphan n i →
      i = ino ∧ rec.nlink ≤ 1 ∧ ¬ IsDir rec ∧ held = true := by
  rcases mem_cons.mp ho with rfl | ho
  · simp [Op.key]
  · split at ho
    · next hheld =>
      rcases mem_cons.mp ho with rfl | ho
      · simp [Op.key, eq_comm]
      · obtain rfl := mem_singleton.mp ho
        refine ⟨by simp [Op.key], fun n i hk => ⟨(Key.orphan.inj hk).2.symm, hheld⟩⟩
    · rcases unlinkInodeOps_cases ho with ⟨r, rfl⟩ | rfl | rfl <;>
        simp [Op.key, hown, eq_comm]

theorem unlinked_of_applied (node : NodeID) {s : NsState} (h : CountsInv s) {step : NsStep}
    {a : Attempt} {tx : Txn} (happ : s.applied step = some (a, tx))
    (hop : a.op.isUnlink = true) (hfile : StepRegular s step) :
    ∃ ino, Unlinked node s.tree (s.tree.commit tx.ops) a ino := by
  obtain ⟨id, now, -, ha, hlen, hplan, -, hcmps⟩ := applied_eq_some happ
  have hreg := hfile _ happ
  have hread := h.readsTracked.reads_later ha hlen
  obtain ⟨op, reads⟩ := a
  cases op with
  | create | link | rmdir | rename | times => cases hop
  | unlink node' parent name held =>
    obtain ⟨ino, direntRev, rec, rev, hname, hget, rfl⟩ := atomicUnlink_txn hplan
    obtain ⟨hino, hrec⟩ := pinned_named (hread 0 (by simp [NsOp.needs]))
      (hread 1 (by simp [NsOp.needs])) hname hget (hcmps _ (by simp)) (hcmps _ (by simp))
    have hdir : ¬ IsDir rec :=
      hreg.2 ino (lookupDirent_of_get hname) rec (getInode_of_get hget)
    have hown := h.sound.own ino rec hrec
    have hlinked := nlink_ne_zero_of_named h.sound hino hrec hdir
    refine ⟨ino, ⟨rec, hrec, hlinked⟩, fun i hi => ?_, fun i hi => ?_, ?_⟩
    · rw [getInode, getInode, get_commit_of_untouched]
      exact fun o ho hk => hi ((unlink_keys hown ho).1 i hk)
    · rw [get_commit_of_untouched]
      exact fun o ho hk => hi ((unlink_keys hown ho).2 node i hk).1
    · by_cases hheld : rec.nlink ≤ 1 ∧ ¬ IsDir rec ∧ held = true
      · refine .inl ⟨hheld.2.2, ?_⟩
        rw [NsOp.asks_unlink hname hget, if_pos ⟨hheld.1, hdir⟩]
      · refine .inr ⟨fun rec' hrec' => ?_, ?_⟩
        · obtain ⟨v, hv, rfl⟩ := map_eq_some_iff.mp hrec'
          rcases get_commit_cases hv with ⟨hold, -⟩ | ⟨hput, -⟩
          · rw [getInode, hold, map_some] at hrec
            rwa [some.inj hrec]
          · rw [if_neg hheld] at hput
            rcases mem_cons.mp hput with hput | hput
            · cases hput
            · exact put_of_unlinkInodeOps hput
        · rw [get_commit_of_untouched]
          exact fun o ho hk => hheld ((unlink_keys hown ho).2 node ino hk).2

/-! ## What a `DeleteOrphan` leaves -/

theorem sound_of_dropped {s t : Tree} (hs : Sound s) (he : entries t = entries s)
    (hrec : ∀ i, getInode t i = getInode s i ∨
      getInode t i = none ∧ names (entries s) i = 0 ∧ isDirectory s i = false) : Sound t := by
  have hold : ∀ i rec, getInode t i = some rec → getInode s i = some rec := by
    intro i rec hi
    rcases hrec i with h | ⟨h, -⟩
    · rw [← h, hi]
    · rw [h] at hi
      cases hi
  have hdir : isDirectory t = isDirectory s := by
    funext i
    rcases hrec i with h | ⟨h, -, hfalse⟩
    · rw [isDirectory, isDirectory, h]
    · rw [isDirectory, h, hfalse, any_none]
  refine ⟨⟨fun i rec hi => ?_, fun e hmem => ?_⟩, fun i rec hi => hs.own i rec (hold i rec hi), ?_⟩
  · rw [he, hdir]
    exact hs.nlink i rec (hold i rec hi)
  · rw [he] at hmem
    rcases hrec e.ino with h | ⟨-, hzero, -⟩
    · rw [h]
      exact hs.named e hmem
    · exact absurd rfl (names_eq_zero.mp hzero e hmem)
  · intro i hi
    rw [he]
    rw [hdir] at hi
    exact hs.once i hi

theorem deleteOrphan_inert (node : NodeID) (ino : Nat) (read : Option InodeRecord) (now : Time) :
    Inert (deleteOrphan node ino read now) := by
  intro o ho
  rcases deleteOrphan_deletes ho with rfl | ⟨rec, -, -, rfl | ⟨rfl, -⟩⟩
  · exact .inl rfl
  · exact .inr ⟨rec.ino, rfl⟩
  · exact .inl rfl

theorem deleteOrphan_distinct (node : NodeID) (ino : Nat) (read : Option InodeRecord)
    (now : Time) : DistinctDeletes (deleteOrphan node ino read now) := by
  cases read with
  | none => exact pairwise_singleton _ _
  | some rec =>
    simp only [DistinctDeletes, deleteOrphan]
    split
    · next hzero =>
      rw [unlinkInodeOps_of_no_links hzero]
      split <;> simp [Op.key]
    · exact pairwise_singleton _ _

theorem entries_deleteOrphan (s : Tree) (node : NodeID) (ino : Nat) (read : Option InodeRecord)
    (now : Time) : entries (s.commit (deleteOrphan node ino read now)) = entries s := by
  have hacc : accepts ([] ++ deleteOrphan node ino read now) :=
    accepts_deleteOrphan node ino read now
  have h := entries_commit_names s hacc (by simp) List.Pairwise.nil
    (deleteOrphan_inert node ino read now) (deleteOrphan_distinct node ino read now)
  simpa using h

theorem getInode_deleteOrphan_self (s : Tree) (node : NodeID) {ino : Nat}
    (hown : rec.ino = ino) (hzero : rec.nlink = 0) (now : Time) :
    getInode (s.commit (deleteOrphan node ino (some rec) now)) ino = none := by
  refine gone_of_mem_deletedInodes (accepts_deleteOrphan node ino (some rec) now) ?_
  rw [mem_deletedInodes, deleteOrphan]
  simp only [if_pos hzero, unlinkInodeOps_of_no_links hzero, hown]
  simp

theorem mark_deleteOrphan (s : Tree) (node : NodeID) (ino : Nat) (read : Option InodeRecord)
    (now : Time) : (s.commit (deleteOrphan node ino read now)).get (.orphan node ino) = none := by
  have hmem : Op.delete (.orphan node ino) ∈ deleteOrphan node ino read now :=
    mem_cons_self
  rw [get_commit, effect_of_accepts_delete (accepts_deleteOrphan node ino read now) hmem]
  rfl

/-! ## Runs -/

def RecordCharged (s : DescState) (ino : Nat) : Prop :=
  s.files.orphaned ino = true ∨
    ∃ c ∈ s.orphans, c.ino = ino ∧ ∀ r, c.read = some r → ∃ rec, r = some rec ∧ rec.nlink = 0

def MarkCharged (s : DescState) (ino : Nat) : Prop :=
  s.files.orphaned ino = true ∨ ∃ c ∈ s.orphans, c.ino = ino

structure OrphansCharged (node : NodeID) (s : DescState) : Prop where
  counts : CountsInv s.ns
  unlinks : ∀ id a, s.ns.attempts id = some a → a.op.isUnlink = true
  marks : ∀ ino, s.files.orphaned ino = true → s.files.count ino ≠ 0
  calls : ∀ c ∈ s.orphans, ∀ r, c.read = some (some r) → r.nlink = 0 → r.ino = c.ino ∧
    ∀ cur, getInode s.ns.tree c.ino = some cur → cur.nlink = 0 ∧ ¬ IsDir cur
  records : ∀ ino rec, getInode s.ns.tree ino = some rec → ¬ IsDir rec → rec.nlink = 0 →
    RecordCharged s ino
  keys : ∀ ino, s.ns.tree.get (.orphan node ino) ≠ none → MarkCharged s ino

namespace OrphansCharged

variable {node : NodeID} {s : DescState}

theorem filesGone (h : OrphansCharged node s) (hquiet : s.orphans = []) : FilesGone node s := by
  intro ino hnames hcount
  have hmark : ¬ s.files.orphaned ino = true := fun hm => h.marks ino hm hcount
  refine ⟨fun rec hrec => ?_, ?_⟩
  · by_contra hdir
    have hzero := h.counts.sound.nlink ino rec hrec
    rw [expectedNlink, if_neg hdir, hnames] at hzero
    rcases h.records ino rec hrec hdir (UInt32.toNat_inj.mp hzero) with hm | ⟨c, hc, -⟩
    · exact hmark hm
    · rw [hquiet] at hc
      cases hc
  · by_contra hkey
    rcases h.keys ino hkey with hm | ⟨c, hc, -⟩
    · exact hmark hm
    · rw [hquiet] at hc
      cases hc

theorem unlinked (h : OrphansCharged node s) {t : Tree} {a : Attempt} {ino : Nat}
    (hu : Unlinked node s.ns.tree t a ino)
    (hfinds : a.op.isHeld = true → ∀ i ∈ a.op.asks a.read,
      s.files.orphaned i = true ∨ ⟨i, none⟩ ∈ s.orphans) :
    (∀ c ∈ s.orphans, ∀ r, c.read = some (some r) → r.nlink = 0 → r.ino = c.ino ∧
      ∀ cur, getInode t c.ino = some cur → cur.nlink = 0 ∧ ¬ IsDir cur) ∧
    (∀ i rec, getInode t i = some rec → ¬ IsDir rec → rec.nlink = 0 → RecordCharged s i) ∧
    ∀ i, t.get (.orphan node i) ≠ none → MarkCharged s i := by
  refine ⟨fun c hc r hr hzero => ?_, fun i rec hrec hdir hzero => ?_, fun i hkey => ?_⟩
  · obtain ⟨hown, hcur⟩ := h.calls c hc r hr hzero
    refine ⟨hown, fun cur hget => ?_⟩
    by_cases hne : c.ino = ino
    · -- what was read without a link has no name, so it is not what is unlinked
      obtain ⟨old, hold, hlinked⟩ := hu.linked
      exact absurd (hcur old (hne ▸ hold)).1 hlinked
    · rw [hu.others _ hne] at hget
      exact hcur cur hget
  · by_cases hne : i = ino
    · subst hne
      rcases hu.left with ⟨hheld, hasks⟩ | ⟨hlinked, -⟩
      · rcases hfinds hheld i hasks with hm | hc
        · exact .inl hm
        · exact .inr ⟨_, hc, rfl, by simp⟩
      · exact absurd hzero (hlinked rec hrec)
    · rw [hu.others i hne] at hrec
      exact h.records i rec hrec hdir hzero
  · by_cases hne : i = ino
    · subst hne
      rcases hu.left with ⟨hheld, hasks⟩ | ⟨-, hsame⟩
      · rcases hfinds hheld i hasks with hm | hc
        · exact .inl hm
        · exact .inr ⟨_, hc, rfl⟩
      · rw [hsame] at hkey
        exact h.keys i hkey
    · rw [hu.marks i hne] at hkey
      exact h.keys i hkey

theorem sound_deleteOrphan (h : OrphansCharged node s) {ino : Nat} {read : Option InodeRecord}
    (hmem : ⟨ino, some read⟩ ∈ s.orphans) (now : Time) :
    Sound (s.ns.tree.commit (deleteOrphan node ino read now)) := by
  refine sound_of_dropped h.counts.sound (entries_deleteOrphan ..) fun i => ?_
  cases hgone : getInode (s.ns.tree.commit (deleteOrphan node ino read now)) i with
  | some rec => exact .inl (getInode_deleteOrphan hgone).symm
  | none =>
    cases hbefore : getInode s.ns.tree i with
    | none => exact .inl rfl
    | some rec =>
      have hsome : (getInode s.ns.tree i).isSome := isSome_iff_exists.mpr ⟨rec, hbefore⟩
      have hdel := mem_deletedInodes.mp (mem_deletedInodes_of_gone hsome hgone)
      rcases deleteOrphan_deletes hdel with he | ⟨r, hr, hzero, he | ⟨he, -⟩⟩
      · cases he
      · obtain rfl : i = r.ino := Key.inode.inj (Op.delete.inj he)
        obtain ⟨hown, hcur⟩ := h.calls _ hmem r (congrArg some hr) hzero
        have hown : r.ino = ino := hown
        obtain ⟨hnlink, hdir⟩ := hcur rec (hown ▸ hbefore)
        have hcount := h.counts.sound.nlink _ rec hbefore
        rw [expectedNlink, if_neg hdir, hnlink] at hcount
        refine .inr ⟨rfl, hcount.symm, ?_⟩
        rw [isDirectory_of_get hbefore, decide_eq_false hdir]
      · cases he

theorem name (h : OrphansCharged node s) {step : NsStep} {ns : NsState}
    (hstart : ∀ id op, step = .start id op → op.isUnlink = true)
    (hfiles : StepRegular s.ns step) (hfinds : FindsMark s (.name step))
    (hstep : namespaceOps.step s.ns step = some ns) (planned : List (Nat × Option Nat)) :
    OrphansCharged node { s with ns := ns, planned := planned } := by
  have hunlink : ∀ x ∈ s.ns.applied step, x.1.op.isUnlink = true := by
    intro x hx
    obtain ⟨id, now, -, ha, -⟩ := applied_eq_some hx
    exact h.unlinks id _ ha
  have hcountable : StepCountable s.ns step := by
    intro x hx
    obtain ⟨⟨op, reads⟩, tx⟩ := x
    cases op with
    | unlink => simp [NsOp.Countable, NsOp.recounted, NsOp.raises]
    | create | link | rmdir | rename | times => cases hunlink _ hx
  have hcounts := countsInv_step h.counts hfiles hcountable hstep
  have hops := ops_step (P := fun op => op.isUnlink = true) hstep hstart h.unlinks
  cases happ : s.ns.applied step with
  | none =>
    have htree := tree_of_not_applied hstep happ
    refine ⟨hcounts, hops, h.marks, ?_, ?_, ?_⟩
    · rw [htree]
      exact h.calls
    · rw [htree]
      exact h.records
    · rw [htree]
      exact h.keys
  | some x =>
    obtain ⟨ino, hu⟩ := unlinked_of_applied node h.counts happ (hunlink x happ) hfiles
    have htree := tree_of_applied hstep happ
    rw [← htree] at hu
    obtain ⟨hcalls, hrecords, hkeys⟩ := h.unlinked hu (hfinds x happ)
    exact ⟨hcounts, hops, h.marks, hcalls, hrecords, hkeys⟩

theorem plan (h : OrphansCharged node s) {id : Nat} {a : Attempt} (ha : s.ns.attempts id = some a) :
    OrphansCharged node { s with
      ns := s.ns.setAttempt id (some ⟨a.op.told (s.answer a).1, a.reads⟩)
      files := (s.answer a).2
      planned := (id, s.denied a) :: s.planned } := by
  have hkept : ∀ ino, s.files.orphaned ino = true → (s.answer a).2.orphaned ino = true :=
    s.orphaned_answer a
  have hr := h.counts.tracked id a ha
  refine ⟨?_, ?_, ?_, h.calls, ?_, ?_⟩
  · refine h.counts.replace ha (a.op.number_told _) (a.op.source_told _)
      ⟨hr.reads, hr.order, ?_⟩
    rw [NsOp.source_told]
    exact hr.source
  · refine forall_setAttempt h.unlinks id fun b hb => ?_
    cases hb
    rw [NsOp.isUnlink_told]
    exact h.unlinks id a ha
  · intro ino hm
    rw [DescState.count_answer]
    rcases s.orphaned_answer_cases a hm with hold | hopen
    · exact h.marks ino hold
    · exact hopen
  · exact fun ino rec hrec hdir hzero => (h.records ino rec hrec hdir hzero).imp_left (hkept ino)
  · exact fun ino hkey => (h.keys ino hkey).imp_left (hkept ino)

theorem retain (h : OrphansCharged node s) (ino : Nat) :
    OrphansCharged node { s with files := s.files.retain ino } := by
  refine ⟨h.counts, h.unlinks, fun i hm => ?_, h.calls, h.records, h.keys⟩
  by_cases he : i = ino
  · subst he
    simp [OpenFiles.retain]
  · rw [OpenFiles.count_retain_of_ne _ _ _ he]
    exact h.marks i hm

theorem release (h : OrphansCharged node s) (ino : Nat) : OrphansCharged node { s with
      files := (s.files.release ino).2
      orphans := if (s.files.release ino).1 then ⟨ino, none⟩ :: s.orphans else s.orphans } := by
  have hsub : ∀ c ∈ s.orphans,
      c ∈ (if (s.files.release ino).1 then ⟨ino, none⟩ :: s.orphans else s.orphans) := by
    intro c hc
    split
    · exact mem_cons_of_mem _ hc
    · exact hc
  have hmark : ∀ i, s.files.orphaned i = true → (s.files.release ino).2.orphaned i = true ∨
      i = ino ∧ (s.files.release ino).1 = true := s.files.orphaned_release ino
  refine ⟨h.counts, h.unlinks, ?_, ?_, ?_, ?_⟩
  · exact fun i hm => s.files.count_of_orphaned_release ino h.marks hm
  · intro c hc
    split at hc
    · rcases mem_cons.mp hc with rfl | hc
      · intro r hr
        cases hr
      · exact h.calls c hc
    · exact h.calls c hc
  · intro i rec hrec hdir hzero
    rcases h.records i rec hrec hdir hzero with hm | ⟨c, hc, hcharge⟩
    · rcases hmark i hm with hm | ⟨rfl, hlast⟩
      · exact .inl hm
      · refine .inr ⟨⟨i, none⟩, ?_, rfl, by simp⟩
        rw [if_pos hlast]
        exact mem_cons_self
    · exact .inr ⟨c, hsub c hc, hcharge⟩
  · intro i hkey
    rcases h.keys i hkey with hm | ⟨c, hc, hcharge⟩
    · rcases hmark i hm with hm | ⟨rfl, hlast⟩
      · exact .inl hm
      · refine .inr ⟨⟨i, none⟩, ?_, rfl⟩
        rw [if_pos hlast]
        exact mem_cons_self
    · exact .inr ⟨c, hsub c hc, hcharge⟩

theorem readOrphan (h : OrphansCharged node s) {ino : Nat} : OrphansCharged node { s with
      orphans := ⟨ino, some (getInode s.ns.tree ino)⟩ :: s.orphans.erase ⟨ino, none⟩ } := by
  have hsplit : ∀ c ∈ s.orphans, c = ⟨ino, none⟩ ∨ c ∈ s.orphans.erase ⟨ino, none⟩ := by
    intro c hc
    by_cases he : c = ⟨ino, none⟩
    · exact .inl he
    · exact .inr ((mem_erase_of_ne he).mpr hc)
  refine ⟨h.counts, h.unlinks, h.marks, ?_, ?_, ?_⟩
  · refine forall_mem_cons.mpr ⟨fun r hr hzero => ?_,
      fun c hc => h.calls c (mem_of_mem_erase hc)⟩
    have hr : getInode s.ns.tree ino = some r := some.inj hr
    refine ⟨h.counts.sound.own ino r hr, fun cur hcur => ?_⟩
    obtain rfl := some.inj (hr.symm.trans hcur)
    refine ⟨hzero, fun hdir => ?_⟩
    have htwo := h.counts.sound.two_le hr hdir
    rw [hzero] at htwo
    cases htwo
  · intro i rec hrec hdir hzero
    rcases h.records i rec hrec hdir hzero with hm | ⟨c, hc, hino, hread⟩
    · exact .inl hm
    · rcases hsplit c hc with rfl | hc
      · obtain rfl : ino = i := hino
        refine .inr ⟨_, mem_cons_self, rfl, fun r hr => ⟨rec, ?_, hzero⟩⟩
        rw [← some.inj hr, hrec]
      · exact .inr ⟨c, mem_cons_of_mem _ hc, hino, hread⟩
  · intro i hkey
    rcases h.keys i hkey with hm | ⟨c, hc, hino⟩
    · exact .inl hm
    · rcases hsplit c hc with rfl | hc
      · exact .inr ⟨_, mem_cons_self, hino⟩
      · exact .inr ⟨c, mem_cons_of_mem _ hc, hino⟩

theorem dropOrphan (h : OrphansCharged node s) {ino : Nat} {read : Option InodeRecord}
    (hmem : ⟨ino, some read⟩ ∈ s.orphans) (now : Time) :
    OrphansCharged node { s with
      ns := { s.ns with tree := s.ns.tree.commit (deleteOrphan node ino read now) }
      orphans := s.orphans.erase ⟨ino, some read⟩ } := by
  have hold : ∀ i rec, getInode (s.ns.tree.commit (deleteOrphan node ino read now)) i = some rec →
      getInode s.ns.tree i = some rec := fun i rec => getInode_deleteOrphan
  have hdropped := h.sound_deleteOrphan hmem now
  refine ⟨h.counts.shrink hdropped ((Store.Later.refl _).commit _) hold, h.unlinks, h.marks,
    fun c hc r hr hzero => ?_, fun i rec hrec hdir hzero => ?_, fun i hkey => ?_⟩
  · obtain ⟨hown, hcur⟩ := h.calls c (mem_of_mem_erase hc) r hr hzero
    exact ⟨hown, fun cur hget => hcur cur (hold _ cur hget)⟩
  · rcases h.records i rec (hold i rec hrec) hdir hzero with hm | ⟨c, hc, hino, hread⟩
    · exact .inl hm
    · by_cases he : c = ⟨ino, some read⟩
      · subst he
        obtain ⟨r, rfl, hnone⟩ := hread read rfl
        obtain ⟨hown, -⟩ := h.calls _ hc r rfl hnone
        obtain rfl : ino = i := hino
        rw [getInode_deleteOrphan_self _ _ hown hnone] at hrec
        cases hrec
      · exact .inr ⟨c, (mem_erase_of_ne he).mpr hc, hino, hread⟩
  · have hne : i ≠ ino := by
      rintro rfl
      exact hkey (mark_deleteOrphan ..)
    have hbefore : s.ns.tree.get (.orphan node i) ≠ none := by
      intro hnone
      refine hkey ?_
      rw [get_commit_of_untouched ?_, hnone]
      intro o ho hk
      rcases deleteOrphan_deletes ho with rfl | ⟨rec, -, -, rfl | ⟨rfl, -⟩⟩
      · exact hne (Key.orphan.inj hk).2.symm
      · cases hk
      · cases hk
    rcases h.keys i hbefore with hm | ⟨c, hc, hino⟩
    · exact .inl hm
    · refine .inr ⟨c, (mem_erase_of_ne ?_).mpr hc, hino⟩
      rintro rfl
      exact hne hino.symm

end OrphansCharged

theorem orphansCharged_step {node : NodeID} {s t : DescState} {step : DescStep}
    (h : OrphansCharged node s) (hfiles : UnlinksFiles s step) (hfinds : FindsMark s step)
    (hstep : (regularFileOps node).step s step = some t) : OrphansCharged node t := by
  obtain ⟨hkind, hstep⟩ := (Machine.only_step _).mp hstep
  cases step with
  | name step =>
    obtain ⟨-, hstep⟩ := ite_none_right_eq_some.mp hstep
    obtain ⟨ns, hns, rfl⟩ := map_eq_some_iff.mp hstep
    refine h.name ?_ hfiles hfinds hns _
    rintro id op rfl
    exact hkind
  | plan id =>
    obtain ⟨a, ha, hstep⟩ := bind_eq_some_iff.mp hstep
    obtain ⟨-, rfl⟩ := ite_some_none_eq_some.mp hstep
    exact h.plan ha
  | retain ino =>
    cases hstep
    exact h.retain ino
  | release ino =>
    obtain ⟨-, ht⟩ := ite_none_left_eq_some.mp hstep
    cases ht
    exact h.release ino
  | readOrphan ino =>
    obtain ⟨-, rfl⟩ := ite_some_none_eq_some.mp hstep
    exact h.readOrphan
  | dropOrphan ino read now =>
    obtain ⟨hmem, rfl⟩ := ite_some_none_eq_some.mp hstep
    exact h.dropOrphan hmem now

structure FilesAtRest (node : NodeID) (s : DescState) : Prop where
  names : AtRest s.ns
  orphans : s.orphans = []
  unmarked : ∀ ino, s.files.orphaned ino = false
  keys : ∀ ino, s.ns.tree.get (.orphan node ino) = none
  linked : ∀ ino rec, getInode s.ns.tree ino = some rec → ¬ IsDir rec → rec.nlink ≠ 0

theorem FilesAtRest.orphansCharged {node : NodeID} {s : DescState} (h : FilesAtRest node s) :
    OrphansCharged node s := by
  refine ⟨h.names.countsInv, fun id a ha => ?_, fun ino hm => ?_, by simp [h.orphans],
    fun ino rec hrec hdir hzero => absurd hzero (h.linked ino rec hrec hdir),
    fun ino hkey => absurd (h.keys ino) hkey⟩
  · rw [h.names.idle id] at ha
    cases ha
  · rw [h.unmarked ino] at hm
    cases hm

/-- From files at rest, in every state of every run of opens, unlinks and releases with
nothing in flight, a file without a name and a descriptor is gone with its mark, if
every unlink that was told its file is open commits while somebody is yet to act on it. -/
theorem along_filesGone {node : NodeID} {s : DescState} (h : FilesAtRest node s)
    {steps : List DescStep}
    (hfiles : (regularFileOps node).Along (fun s step _ => UnlinksFiles s step) s steps)
    (hfinds : (regularFileOps node).Along (fun s step _ => FindsMark s step) s steps) :
    (regularFileOps node).Along (fun _ _ t => NoneInFlight t → FilesGone node t) s steps := by
  refine Machine.Along.of_invariant (I := OrphansCharged node) ?_ h.orphansCharged
    (hfiles.and hfinds)
  intro s step t hs hc hstep
  have ht := orphansCharged_step hs hc.1 hc.2 hstep
  exact ⟨ht, fun hquiet => ht.filesGone hquiet.orphans⟩

def oneFileTree : Tree :=
  freshRoot.tree.commit (createOps 1 "f" (newFile 2 0o100644 0 0 0) noExtra)

def oneFile : DescState where
  ns := ⟨oneFileTree, fun _ => none, [1, 2]⟩
  files := ⟨fun _ => 0, fun _ => false⟩
  planned := []
  orphans := []

theorem getInode_oneFile (ino : Nat) : getInode oneFileTree ino =
    if 2 = ino then some (newFile 2 0o100644 0 0 0).record
    else if 1 = ino then some rootRecord else none := by
  have hown : (newFile 2 0o100644 0 0 0).record.ino = 2 := rfl
  rw [oneFileTree, getInode_commit, effect_createOps, getInode_freshRoot, hown]
  by_cases h : 2 = ino
  · rw [if_pos h, if_pos h, getD_some]
  · rw [if_neg h, if_neg h, getD_none]

theorem oneFile_atRest : FilesAtRest "n" oneFile where
  names := by
    refine ⟨freshRoot_atRest.sound.create_file (by decide) (by decide) (by decide +kernel)
      (by decide +kernel), fun ino hsome => ?_, fun _ => rfl⟩
    rw [show getInode oneFile.ns.tree ino = _ from getInode_oneFile ino] at hsome
    split at hsome
    · next h => simp [oneFile, ← h]
    · split at hsome
      · next h => simp [oneFile, ← h]
      · cases hsome
  orphans := rfl
  unmarked _ := rfl
  keys ino := by
    rw [oneFile, oneFileTree, get_commit_of_untouched (by simp [createOps, noExtra, Op.key]),
      freshRoot, get_commit_of_untouched (by simp [Op.key]), get_empty]
  linked ino rec hrec hdir := by
    rw [show getInode oneFile.ns.tree ino = _ from getInode_oneFile ino] at hrec
    split at hrec
    · cases hrec
      decide
    · obtain ⟨-, rfl⟩ := ite_some_none_eq_some.mp hrec
      exact absurd (by decide) hdir

def unlinkedThenReleased : List DescStep :=
  [.retain 2, .retain 2, .name (.start 0 (.unlink "n" 1 "f" false)), .name (.read 0),
    .name (.read 0), .plan 0, .release 2, .name (.commit 0 1), .release 2, .readOrphan 2,
    .dropOrphan 2 (some { (newFile 2 0o100644 0 0 0).record with nlink := 0, ctime := 1 }) 2]

theorem unlinkedThenReleased_filesGone :
    (((regularFileOps "n").exec oneFile unlinkedThenReleased).any fun t =>
        (getInode t.ns.tree 2).isNone) = true ∧
      (regularFileOps "n").Along (fun _ _ t => NoneInFlight t → FilesGone "n" t) oneFile
        unlinkedThenReleased :=
  ⟨by decide +kernel, along_filesGone oneFile_atRest (by decide +kernel) (by decide +kernel)⟩

def releasedMeanwhile : List DescStep :=
  [.retain 2, .name (.start 0 (.unlink "n" 1 "f" false)), .name (.read 0), .name (.read 0),
    .plan 0, .release 2, .readOrphan 2, .dropOrphan 2 (some (newFile 2 0o100644 0 0 0).record) 1,
    .name (.commit 0 2)]

/-- Nothing is in flight, the file has no name and no descriptor, and its record and its
mark are there. -/
theorem releasedMeanwhile_leaks :
    (regularFileOps "n").Along (fun s step _ => UnlinksFiles s step) oneFile releasedMeanwhile ∧
      ∃ t, (regularFileOps "n").exec oneFile releasedMeanwhile = some t ∧ NoneInFlight t ∧
        names (entries t.ns.tree) 2 = 0 ∧ t.files.count 2 = 0 ∧
        (getInode t.ns.tree 2).isSome = true ∧ (t.ns.tree.get (.orphan "n" 2)).isSome = true ∧
        ¬ FilesGone "n" t := by
  refine ⟨by decide +kernel, ?_⟩
  have hrun : (((regularFileOps "n").exec oneFile releasedMeanwhile).any fun t =>
      (t.ns.attempts 0).isNone && decide (t.orphans = []) && names (entries t.ns.tree) 2 == 0 &&
        t.files.count 2 == 0 && (getInode t.ns.tree 2).isSome &&
        (t.ns.tree.get (.orphan "n" 2)).isSome) = true := by
    decide +kernel
  obtain ⟨t, ht, h⟩ := (Option.any_eq_true ..).mp hrun
  simp only [Bool.and_eq_true, isNone_iff_eq_none, decide_eq_true_eq, beq_iff_eq] at h
  obtain ⟨⟨⟨⟨⟨hidle, horphans⟩, hnames⟩, hclosed⟩, hrec⟩, hkey⟩ := h
  have hquiet : NoneInFlight t := by
    refine ⟨fun id => ?_, horphans⟩
    by_cases hid : id = 0
    · rw [hid, hidle]
    · refine exec_attempts ?_ ht
      simpa [releasedMeanwhile, DescStep.call, NsStep.call] using Ne.symm hid
  refine ⟨t, ht, hquiet, hnames, hclosed, hrec, hkey, fun hgone => ?_⟩
  rw [(hgone 2 hnames hclosed).2] at hkey
  cases hkey

end EtcFS.Correctness
