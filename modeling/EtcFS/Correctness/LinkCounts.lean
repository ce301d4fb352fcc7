import EtcFS.Namespace.Orphans

/-!
# Link counts under concurrent operations on names

Counts and entries agree in every state, away from parents that have no record when they are read
and from the end of the count's range.
-/

namespace EtcFS.Correctness

open EtcFS.Core Namespace Ipc List Option
open Metadata hiding Key Val getInode

def StepRegular (s : NsState) (step : NsStep) : Prop :=
  ∀ x ∈ s.applied step, x.1.op.Regular s.tree x.1.read
  deriving Decidable

def StepCountable (s : NsState) (step : NsStep) : Prop :=
  ∀ x ∈ s.applied step, x.1.op.Countable s.tree x.1.read
  deriving Decidable

structure InFlight (tree : Tree) (taken : List Nat) (a : Attempt) : Prop where
  reads : ∀ r ∈ a.reads, ReadFrom tree r
  order : a.reads.Pairwise fun r r' => r.revision ≤ r'.revision
  source : ∀ ino ∈ a.op.source, ino ∈ taken ∧ ∀ r ∈ a.reads, ∀ rec,
    getInode tree ino = some rec → isDirectory r ino = decide (IsDir rec)

structure CountsInv (s : NsState) : Prop extends Numbered s where
  sound : Sound s.tree
  tracked : ∀ id a, s.attempts id = some a → InFlight s.tree s.taken a
  apart : ∀ id id' a a' ino, s.attempts id = some a → s.attempts id' = some a' →
    a.op.number = some ino → a'.op.source ≠ some ino

namespace CountsInv

variable {s : NsState}

theorem readsTracked (h : CountsInv s) : ReadsTracked s :=
  ⟨h.sound.own, fun id a ha r hr => ((h.tracked id a ha).reads r hr).later⟩

theorem drop (h : CountsInv s) (id : Nat) : CountsInv (s.setAttempt id none) := by
  have hold : ∀ i a, (s.setAttempt id none).attempts i = some a → s.attempts i = some a :=
    fun i a hi => ((attempts_setAttempt.mp hi).resolve_left (by simp)).2
  refine ⟨h.toNumbered.setAttempt id (by simp), h.sound,
    fun i a hi => h.tracked i a (hold i a hi), ?_⟩
  exact fun i i' a a' ino hi hi' => h.apart i i' a a' ino (hold i a hi) (hold i' a' hi')

theorem replace (h : CountsInv s) {id : Nat} {a b : Attempt} (ha : s.attempts id = some a)
    (hnumber : b.op.number = a.op.number) (hsource : b.op.source = a.op.source)
    (hr : InFlight s.tree s.taken b) : CountsInv (s.setAttempt id (some b)) := by
  have hold : ∀ i c, (s.setAttempt id (some b)).attempts i = some c →
      ∃ c', s.attempts i = some c' ∧ c.op.number = c'.op.number ∧ c.op.source = c'.op.source := by
    intro i c hi
    rcases attempts_setAttempt.mp hi with ⟨rfl, hb⟩ | ⟨-, hi⟩
    · cases hb
      exact ⟨a, ha, hnumber, hsource⟩
    · exact ⟨c, hi, rfl, rfl⟩
  refine ⟨h.toNumbered.setAttempt id (by simp [ha, hnumber]), h.sound,
    forall_setAttempt h.tracked id (by simpa using hr), fun i i' c c' ino hi hi' hn => ?_⟩
  obtain ⟨d, hd, hnum, -⟩ := hold i c hi
  obtain ⟨d', hd', -, hsrc'⟩ := hold i' c' hi'
  exact hsrc' ▸ h.apart i i' d d' ino hd hd' (hnum ▸ hn)

theorem shrink (h : CountsInv s) {t : Tree} (hsound : Sound t) (hlater : s.tree.Later t)
    (hrec : ∀ ino rec, getInode t ino = some rec → getInode s.tree ino = some rec) :
    CountsInv { s with tree := t } := by
  refine ⟨h.toNumbered.shrink hrec, hsound, fun id a ha => ?_, h.apart⟩
  have ht := h.tracked id a ha
  exact ⟨fun r hr => ⟨(ht.reads r hr).later.trans hlater, (ht.reads r hr).sound⟩, ht.order,
    fun ino hino => ⟨(ht.source ino hino).1, fun r hr rec hrec' =>
      (ht.source ino hino).2 r hr rec (hrec ino rec hrec')⟩⟩

theorem start (h : CountsInv s) {id : Nat} {op : NsOp} (hop : op.Startable s) :
    CountsInv { s.setAttempt id (some ⟨op, []⟩) with taken := op.number.toList ++ s.taken } := by
  have hsource : ∀ ino ∈ op.source, (getInode s.tree ino).isSome := by
    cases op with
    | rename r =>
      intro ino hino
      cases hino
      exact h.sound.named r.old (mem_entries.mpr hop.2)
    | create | link | unlink | rmdir | times => simp [NsOp.source, NsOp.renameArgs]
  refine ⟨h.toNumbered.start hop, h.sound, ?_, ?_⟩
  · intro i a hi
    rcases attempts_setAttempt.mp hi with ⟨-, hi⟩ | ⟨-, hi⟩
    · cases hi
      exact ⟨by simp, List.Pairwise.nil,
        fun ino hino => ⟨mem_append_right _ (h.taken ino (hsource ino hino)), by simp⟩⟩
    · have ht := h.tracked i a hi
      exact ⟨ht.reads, ht.order,
        fun ino hino => ⟨mem_append_right _ (ht.source ino hino).1, (ht.source ino hino).2⟩⟩
  · intro i i' a a' ino hi hi' hn hn'
    rcases attempts_setAttempt.mp hi with ⟨rfl, hb⟩ | ⟨-, hb⟩ <;>
      rcases attempts_setAttempt.mp hi' with ⟨rfl, hb'⟩ | ⟨-, hb'⟩
    · cases hb
      cases hb'
      cases op <;> simp [NsOp.number, NsOp.source, NsOp.renameArgs] at hn hn'
    · cases hb
      exact absurd ((h.tracked i' a' hb').source ino hn').1 (number_not_mem_taken hop hn)
    · cases hb'
      have hsome := hsource ino hn'
      rw [(h.fresh i a hb ino hn).2] at hsome
      cases hsome
    · exact h.apart i i' a a' ino hb hb' hn hn'

theorem commit (h : CountsInv s) {id : Nat} {a : Attempt} {ops : List (Op Val)}
    (ha : s.attempts id = some a) (hk : a.op.Keeps s.tree (s.tree.commit ops))
    (hedit : ∀ o ∈ ops, Edit s.tree a.op ops o) :
    CountsInv { s.setAttempt id none with tree := s.tree.commit ops } := by
  obtain ⟨hsound, delta, died, hr⟩ := hk
  have hold : ∀ i b, (s.setAttempt id none).attempts i = some b → s.attempts i = some b :=
    fun i b hi => ((attempts_setAttempt.mp hi).resolve_left (by simp)).2
  refine ⟨h.toNumbered.commit ha hedit, hsound, fun i b hi => ?_, fun i i' b b' ino hi hi' =>
    h.apart i i' b b' ino (hold i b hi) (hold i' b' hi')⟩
  have ht := h.tracked i b (hold i b hi)
  refine ⟨fun r hmem => ⟨(ht.reads r hmem).later.commit ops, (ht.reads r hmem).sound⟩, ht.order,
    fun ino hino => ⟨(ht.source ino hino).1, fun r hmem rec hrec => ?_⟩⟩
  rcases hr.cases hrec with ⟨hb, -⟩ | ⟨-, rec₀, hrec₀, hm⟩
  · exact absurd hino (h.apart id i a b ino ha (hold i b hi) hb)
  · rw [(ht.source ino hino).2 r hmem rec₀ hrec₀, decide_eq_decide.mpr hm.isDir]

theorem keeps (h : CountsInv s) {id : Nat} {a : Attempt} (ha : s.attempts id = some a)
    (hlen : a.reads.length = a.op.needs) {now : Time} {tx : Txn} (hreg : a.op.Regular s.tree a.read)
    (hcount : a.op.Countable s.tree a.read) (hplan : a.op.plan a.read now = .txn tx)
    (hacc : accepts tx.ops) (hcmps : ∀ c ∈ tx.cmps, s.tree.holds c = true) :
    a.op.Keeps s.tree (s.tree.commit tx.ops) := by
  have ht := h.tracked id a ha
  have hget : ∀ i, (hi : i < a.op.needs) → a.read i = a.reads[i] := fun i hi => by
    rw [Attempt.read, getD_eq_getElem?_getD, getElem?_eq_getElem (hlen ▸ hi),
      getD_some]
  have hmem : ∀ i < a.op.needs, a.read i ∈ a.reads := fun i hi => a.read_mem (hlen ▸ hi)
  refine keeps_plan h.sound (fun i hi => ht.reads _ (hmem i hi)) (fun i j hij hj => ?_)
    (fun ino hino i hi => (ht.source ino hino).2 _ (hmem i hi)) hreg hcount hplan hacc hcmps
  rcases Nat.lt_or_eq_of_le hij with hlt | rfl
  · rw [hget i (by omega), hget j hj]
    exact pairwise_iff_getElem.mp ht.order i j _ _ hlt
  · exact le_refl _

end CountsInv

theorem countsInv_step {s t : NsState} {step : NsStep} (h : CountsInv s) (hreg : StepRegular s step)
    (hcount : StepCountable s step) (hstep : namespaceOps.step s step = some t) : CountsInv t := by
  cases step_end hstep with
  | started op _ hop => exact h.start hop
  | dropped => exact h.drop _
  | kept a reads ha hreads =>
    have hr := h.tracked _ a ha
    rcases hreads with rfl | rfl
    · exact h.replace ha rfl rfl ⟨by simp, List.Pairwise.nil,
        fun ino hino => ⟨(hr.source ino hino).1, by simp⟩⟩
    · refine h.replace ha rfl rfl ⟨fun r hmem => ?_, ?_,
        fun ino hino => ⟨(hr.source ino hino).1, fun r hmem rec hrec => ?_⟩⟩
      · rcases mem_append.mp hmem with hmem | hmem
        · exact hr.reads r hmem
        · obtain rfl := mem_singleton.mp hmem
          exact ⟨Store.Later.refl _, h.sound⟩
      · refine pairwise_append.mpr ⟨hr.order, pairwise_singleton _ _, ?_⟩
        intro r hmem r' hmem'
        obtain rfl := mem_singleton.mp hmem'
        exact (hr.reads r hmem).later.revision_le
      · rcases mem_append.mp hmem with hmem | hmem
        · exact (hr.source ino hino).2 r hmem rec hrec
        · obtain rfl := mem_singleton.mp hmem
          exact isDirectory_of_get hrec
  | applied a tx ha happ =>
    obtain ⟨id, now, -, ha, hlen, hplan, hacc, hcmps⟩ := applied_eq_some happ
    exact h.commit ‹_› (h.keeps ha hlen (hreg _ happ) (hcount _ happ) hplan hacc hcmps)
      (h.readsTracked.edits happ)

structure AtRest (s : NsState) : Prop where
  sound : Sound s.tree
  taken : ∀ ino, (getInode s.tree ino).isSome → ino ∈ s.taken
  idle : ∀ id, s.attempts id = none

theorem AtRest.countsInv {s : NsState} (h : AtRest s) : CountsInv s := by
  refine ⟨.of_idle h.taken h.idle, h.sound, ?_, ?_⟩ <;> intro id <;> simp [h.idle]

/-- From a namespace at rest, every state of every run has right counts and no
dangling entry, if the transactions that commit find missing parents still missing,
make no directory that already holds one, and raise no count past its range. -/
theorem along_counted {s : NsState} (h : AtRest s) {steps : List NsStep}
    (hreg : namespaceOps.Along (fun s step _ => StepRegular s step) s steps)
    (hcount : namespaceOps.Along (fun s step _ => StepCountable s step) s steps) :
    namespaceOps.Along (fun _ _ t => Counted t.tree) s steps := by
  refine Machine.Along.of_invariant (I := CountsInv) ?_ h.countsInv (hreg.and hcount)
  intro s step t hs hc hstep
  have ht := countsInv_step hs hc.1 hc.2 hstep
  exact ⟨ht, ht.sound.toCounted⟩

theorem getInode_freshRoot (ino : Nat) :
    getInode freshRoot.tree ino = if 1 = ino then some rootRecord else none := by
  rw [freshRoot, getInode_commit]
  by_cases h : 1 = ino <;> simp [h, getInode]

theorem entries_freshRoot : entries freshRoot.tree = 0 := by
  refine Multiset.eq_zero_of_forall_notMem fun e he => ?_
  have hname := mem_entries.mp he
  rw [lookupDirent, freshRoot, Store.get_commit_of_untouched (by simp [Op.key])] at hname
  simp at hname

theorem freshRoot_atRest : AtRest freshRoot := by
  have hroot : ∀ ino rec, getInode freshRoot.tree ino = some rec → ino = 1 ∧ rec = rootRecord := by
    intro ino rec hrec
    rw [getInode_freshRoot] at hrec
    obtain ⟨rfl, hrec⟩ := ite_none_right_eq_some.mp hrec
    exact ⟨rfl, (some.inj hrec).symm⟩
  refine ⟨⟨⟨fun ino rec hrec => ?_, by simp [entries_freshRoot]⟩, fun ino rec hrec => ?_, ?_⟩,
    fun ino hsome => ?_, fun _ => rfl⟩
  · obtain ⟨rfl, rfl⟩ := hroot ino rec hrec
    rw [entries_freshRoot, names_zero, subdirs_zero]
    decide
  · obtain ⟨rfl, rfl⟩ := hroot ino rec hrec
    rfl
  · simp [entries_freshRoot]
  · obtain ⟨rec, hrec⟩ := isSome_iff_exists.mp hsome
    obtain ⟨rfl, -⟩ := hroot ino rec hrec
    exact mem_singleton_self 1

def busyRun : List NsStep :=
  [.start 0 (.create 1 "d" (newDir 2 0o755 0 0 0) noExtra), .read 0, .commit 0 1,
    .start 0 (.create 1 "e" (newDir 3 0o755 0 0 0) noExtra), .read 0, .commit 0 2,
    .start 1 (.create 2 "f" (newFile 4 0o100644 0 0 0) noExtra), .commit 1 3,
    .start 1 (.link 4 1 "g"), .read 1,
    .start 2 (.rename ⟨1, "d", 1, "e", 2, 0, false⟩), .read 2, .read 2, .read 2, .read 2,
    .read 2, .read 2, .commit 1 4, .commit 2 5,
    .start 0 (.unlink "a" 2 "f" false), .read 0, .read 0, .commit 0 6]

theorem along_counted_busyRun :
    namespaceOps.Along (fun _ _ t => Counted t.tree) freshRoot busyRun :=
  along_counted freshRoot_atRest (by decide +kernel) (by decide +kernel)

def lateParent : List NsStep :=
  [.start 0 (.create 5 "x" (newDir 6 0o755 0 0 0) noExtra), .read 0, .commit 0 1,
    .start 0 (.create 1 "d" (newDir 5 0o755 0 0 0) noExtra), .read 0, .commit 0 2]

/-- Every operation is one that names are meant for, and the directory that was made
last holds a directory its count does not have. -/
theorem lateParent_miscounts :
    namespaceOps.Along (fun s step _ => StepRegular s step) freshRoot lateParent ∧
      ∃ t, namespaceOps.exec freshRoot lateParent = some t ∧
        ((getInode t.tree 5).map InodeRecord.nlink = some 2 ∧
          subdirs (isDirectory t.tree) (entries t.tree) 5 = 1) ∧ ¬ Counted t.tree := by
  refine ⟨by decide +kernel, ?_⟩
  have hrun : ((namespaceOps.exec freshRoot lateParent).any fun t =>
      (getInode t.tree 5).any (fun rec => rec.nlink == 2 && decide (IsDir rec)) &&
        subdirs (isDirectory t.tree) (entries t.tree) 5 == 1) = true := by
    decide +kernel
  obtain ⟨t, ht, h⟩ := (Option.any_eq_true ..).mp hrun
  simp only [Bool.and_eq_true, Option.any_eq_true, beq_iff_eq, decide_eq_true_eq] at h
  obtain ⟨⟨rec, hrec, hnlink, hdir⟩, hsub⟩ := h
  refine ⟨t, ht, ⟨by rw [hrec, map_some, hnlink], hsub⟩, fun hc => ?_⟩
  have htwo : initialNlink rec.mode = 2 := if_pos hdir
  have hwrong := hc.nlink 5 rec hrec
  rw [expectedNlink, if_pos hdir, hsub, hnlink, htwo] at hwrong
  cases hwrong

end EtcFS.Correctness
