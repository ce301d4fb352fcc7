import EtcFS.Core.Transition
import EtcFS.Metadata.Generation

/-!
# A bumped generation shuts a process out

Any number of processes mutate the store through the guard, while controllers bump generations and
calls on etcd are lost.
-/

namespace EtcFS.Correctness

open EtcFS.Core Metadata Option

inductive Boot where
  | idle
  /-- The counter exists, and its value is still to be read. -/
  | ensuring
  | started (startGen : Nat)
  deriving DecidableEq, Repr

structure Generations (ι : Type) where
  etcd : Etcd
  boot : ι → Boot
  /-- The processes with a rejected transaction, about to read their generation. -/
  checking : List ι
  /-- The nodes of bumps from zero whose comparison on the value was rejected. -/
  bumping : List NodeID

inductive GenerationCall (ι : Type) where
  | ensure (i : ι) (reply : Reply)
  | readStart (i : ι) (answered : Bool)
  | bump (node : NodeID) (expectedOld : UInt64) (reply : Reply)
  | bumpMissing (node : NodeID) (reply : Reply)
  | mutate (i : ι) (c : GuardedCall) (reply : Reply)
  | check (i : ι) (answered : Bool)
  /-- A write around the guard, of the control plane or of a tool. -/
  | other (ops : List (Op Val))

variable {ι : Type} [DecidableEq ι]

namespace Generations

def ensure (nodeOf : ι → NodeID) (i : ι) (reply : Reply) (s : Generations ι) : Generations ι :=
  match ensureGenerationKey (nodeOf i) reply s.etcd with
  | (.committed, etcd) => { s with etcd := etcd, boot := Function.update s.boot i (.started 0) }
  | (.rejected, etcd) => { s with etcd := etcd, boot := Function.update s.boot i .ensuring }
  | (.failed, etcd) => { s with etcd := etcd }

def readStart (nodeOf : ι → NodeID) (i : ι) (answered : Bool) (s : Generations ι) :
    Generations ι :=
  { s with
    boot := Function.update s.boot i
      (if answered then .started (getGeneration s.etcd (nodeOf i)) else .idle) }

def bump (node : NodeID) (expectedOld : UInt64) (reply : Reply) (s : Generations ι) :
    Generations ι :=
  match bumpGeneration node expectedOld reply s.etcd with
  | (.rejected, etcd) =>
    { s with etcd := etcd, bumping := if expectedOld = 0 then node :: s.bumping else s.bumping }
  | (_, etcd) => { s with etcd := etcd }

def mutate (nodeOf : ι → NodeID) (i : ι) (startGen : Nat) (c : GuardedCall) (reply : Reply)
    (s : Generations ι) : Generations ι :=
  match c, c.submit (nodeOf i) startGen reply s.etcd with
  | .txn _ _, (.rejected, etcd) => { s with etcd := etcd, checking := i :: s.checking }
  | _, (_, etcd) => { s with etcd := etcd }

end Generations

def GenerationCall.move (nodeOf : ι → NodeID) (s : Generations ι) :
    GenerationCall ι → Option (Generations ι)
  | .ensure i reply => if s.boot i = .idle then some (s.ensure nodeOf i reply) else none
  | .readStart i answered =>
    if s.boot i = .ensuring then some (s.readStart nodeOf i answered) else none
  | .bump node expectedOld reply => some (s.bump node expectedOld reply)
  | .bumpMissing node reply =>
    if node ∈ s.bumping then
      some { s with
        etcd := (Metadata.bumpMissing node reply s.etcd).2, bumping := s.bumping.erase node }
    else none
  | .mutate i c reply =>
    -- only the two functions of the generations write the counters
    if sparesGenerations (c.ops s.etcd) then
      match s.boot i with
      | .started startGen => some (s.mutate nodeOf i startGen c reply)
      | .idle | .ensuring => some s
    else none
  | .check i _ =>
    if i ∈ s.checking then some { s with checking := s.checking.erase i } else none
  | .other ops =>
    if sparesGenerations ops then some { s with etcd := s.etcd.commit ops } else none

def generations (nodeOf : ι → NodeID) : Machine (Generations ι) (GenerationCall ι) where
  step s a := (a.move nodeOf s).filter (·.etcd.revision ≤ maxRevision)

inductive GuardAnswer where
  | applied
  | rejected
  | fenced
  | unavailable
  | failed
  deriving DecidableEq, Repr

def GenerationCall.answer (nodeOf : ι → NodeID) (s : Generations ι) :
    GenerationCall ι → Option (ι × GuardAnswer)
  | .mutate i c reply =>
    match s.boot i with
    | .started startGen =>
      match c, (c.submit (nodeOf i) startGen reply s.etcd).1 with
      | _, .committed => some (i, .applied)
      | _, .failed => some (i, .failed)
      | .txn _ _, .rejected => none
      | .write _, .rejected => some (i, .fenced)
    | .idle | .ensuring => some (i, .unavailable)
  | .check i answered =>
    match s.boot i with
    | .started startGen =>
      if answered && getGeneration s.etcd (nodeOf i) != startGen then some (i, .fenced)
      else some (i, .rejected)
    | .idle | .ensuring => some (i, .rejected)
  | _ => none

def GenerationCall.mutator : GenerationCall ι → Option ι
  | .mutate i _ _ => some i
  | _ => none

def Generations.init (etcd : Etcd) : Generations ι := ⟨etcd, fun _ => .idle, [], []⟩

structure Generations.Valid (nodeOf : ι → NodeID) (s : Generations ι) : Prop where
  counted : Counted s.etcd
  ensuring : ∀ i, s.boot i = .ensuring → (s.etcd.get (.gen (nodeOf i))).isSome
  started : ∀ i g, s.boot i = .started g →
    ∃ v, s.etcd.get (.gen (nodeOf i)) = some v ∧ g ≤ v.value

namespace Generations.Valid

variable {nodeOf : ι → NodeID} {s t : Generations ι} {a : GenerationCall ι}

omit [DecidableEq ι] in
theorem init {etcd : Etcd} (h : Counted etcd) : Valid nodeOf (Generations.init etcd) where
  counted := h
  ensuring := by
    intro i hi
    cases hi
  started := by
    intro i g hi
    cases hi

omit [DecidableEq ι] in
theorem advance (hs : Valid nodeOf s) (h : Advances s.etcd t.etcd)
    (hboot : ∀ i, t.boot i = s.boot i ∨
      ∃ v, t.etcd.get (.gen (nodeOf i)) = some v ∧ ∀ g, t.boot i = .started g → g ≤ v.value) :
    Valid nodeOf t where
  counted := h.counted hs.counted
  ensuring := by
    intro i hi
    rcases hboot i with heq | ⟨v, hv, -⟩
    · rw [heq] at hi
      obtain ⟨v, hv⟩ := isSome_iff_exists.mp (hs.ensuring i hi)
      obtain ⟨w, hw, -⟩ := h.kept _ v hv
      rw [hw]
      rfl
    · rw [hv]
      rfl
  started := by
    intro i g hi
    rcases hboot i with heq | ⟨v, hv, hle⟩
    · rw [heq] at hi
      obtain ⟨v, hv, hle⟩ := hs.started i g hi
      obtain ⟨w, hw, hvw⟩ := h.kept _ v hv
      exact ⟨w, hw, hle.trans hvw⟩
    · exact ⟨v, hv, hle g hi⟩

omit [DecidableEq ι] in
theorem advance_of_boot_eq (hs : Valid nodeOf s) (hboot : t.boot = s.boot)
    (h : Advances s.etcd t.etcd) : Advances s.etcd t.etcd ∧ Valid nodeOf t :=
  ⟨h, hs.advance h fun i => .inl (congrFun hboot i)⟩

theorem etcd_ensure (i : ι) (reply : Reply) :
    (s.ensure nodeOf i reply).etcd = (ensureGenerationKey (nodeOf i) reply s.etcd).2 := by
  rw [Generations.ensure]
  split <;> simp only [*]

theorem ensure (hs : Valid nodeOf s) {i : ι} {reply : Reply}
    (hr : (s.ensure nodeOf i reply).etcd.revision ≤ maxRevision) :
    Advances s.etcd (s.ensure nodeOf i reply).etcd ∧ Valid nodeOf (s.ensure nodeOf i reply) := by
  have hadv : Advances s.etcd (s.ensure nodeOf i reply).etcd := by
    rw [etcd_ensure] at hr ⊢
    exact Advances.ensureGenerationKey hr
  refine ⟨hadv, hs.advance hadv fun j => ?_⟩
  by_cases hfail : (ensureGenerationKey (nodeOf i) reply s.etcd).1 = .failed
  · left
    rw [Generations.ensure]
    split <;> simp_all
  · by_cases hij : j = i
    · subst hij
      right
      obtain ⟨v, hv⟩ := exists_of_ensureGenerationKey hfail
      refine ⟨v, (etcd_ensure j reply).symm ▸ hv, fun g hg => ?_⟩
      rw [Generations.ensure] at hg
      split at hg
      · simp only [Function.update_self, Boot.started.injEq] at hg
        omega
      · simp at hg
      · simp_all
    · left
      rw [Generations.ensure]
      split <;> simp [hij]

theorem readStart (hs : Valid nodeOf s) {i : ι} (answered : Bool) (h : s.boot i = .ensuring) :
    Valid nodeOf (s.readStart nodeOf i answered) := by
  refine hs.advance (Advances.refl s.etcd) fun j => ?_
  by_cases hij : j = i
  · subst hij
    right
    obtain ⟨v, hv⟩ := isSome_iff_exists.mp (hs.ensuring j h)
    refine ⟨v, hv, fun g hg => ?_⟩
    rw [Generations.readStart] at hg
    cases answered with
    | false => simp at hg
    | true =>
      simp only [Function.update_self, if_true, Boot.started.injEq, getGeneration_of_get hv] at hg
      omega
  · left
    simp [Generations.readStart, hij]

omit [DecidableEq ι] in
theorem etcd_bump (node : NodeID) (old : UInt64) (reply : Reply) :
    (s.bump node old reply).etcd = (bumpGeneration node old reply s.etcd).2 := by
  rw [Generations.bump]
  split <;> simp only [*]

omit [DecidableEq ι] in
theorem boot_bump (node : NodeID) (old : UInt64) (reply : Reply) :
    (s.bump node old reply).boot = s.boot := by
  rw [Generations.bump]
  split <;> rfl

omit [DecidableEq ι] in
theorem bump (hs : Valid nodeOf s) {node : NodeID} {old : UInt64} {reply : Reply}
    (hr : (s.bump node old reply).etcd.revision ≤ maxRevision) :
    Advances s.etcd (s.bump node old reply).etcd ∧ Valid nodeOf (s.bump node old reply) := by
  apply hs.advance_of_boot_eq (boot_bump node old reply)
  rw [etcd_bump] at hr ⊢
  exact Advances.bumpGeneration hs.counted hr

omit [DecidableEq ι] in
theorem etcd_mutate (i : ι) (g : Nat) (c : GuardedCall) (reply : Reply) :
    (s.mutate nodeOf i g c reply).etcd = (c.submit (nodeOf i) g reply s.etcd).2 := by
  unfold Generations.mutate
  split <;> simp only [*]

omit [DecidableEq ι] in
theorem boot_mutate (i : ι) (g : Nat) (c : GuardedCall) (reply : Reply) :
    (s.mutate nodeOf i g c reply).boot = s.boot := by
  unfold Generations.mutate
  split <;> rfl

omit [DecidableEq ι] in
theorem mutate (hs : Valid nodeOf s) {i : ι} {g : Nat} {c : GuardedCall} {reply : Reply}
    (hr : (s.mutate nodeOf i g c reply).etcd.revision ≤ maxRevision)
    (hspares : sparesGenerations (c.ops s.etcd) = true) :
    Advances s.etcd (s.mutate nodeOf i g c reply).etcd ∧
      Valid nodeOf (s.mutate nodeOf i g c reply) := by
  apply hs.advance_of_boot_eq (boot_mutate i g c reply)
  rw [etcd_mutate] at hr ⊢
  exact Advances.guardedCall hr hspares

theorem step (hs : Valid nodeOf s) (h : (generations nodeOf).step s a = some t) :
    Advances s.etcd t.etcd ∧ Valid nodeOf t := by
  obtain ⟨hmove, hr⟩ := filter_eq_some_iff.mp h
  rw [decide_eq_true_eq] at hr
  cases a with
  | ensure i reply =>
    obtain ⟨-, rfl⟩ := ite_some_none_eq_some.mp hmove
    exact hs.ensure hr
  | readStart i answered =>
    obtain ⟨hb, rfl⟩ := ite_some_none_eq_some.mp hmove
    exact ⟨Advances.refl s.etcd, hs.readStart answered hb⟩
  | bump node old reply =>
    cases hmove
    exact hs.bump hr
  | bumpMissing node reply =>
    obtain ⟨-, rfl⟩ := ite_some_none_eq_some.mp hmove
    exact hs.advance_of_boot_eq rfl (Advances.bumpMissing hs.counted hr)
  | mutate i c reply =>
    obtain ⟨hspares, ht⟩ := ite_none_right_eq_some.mp hmove
    cases hb : s.boot i with
    | started g =>
      rw [hb] at ht
      cases ht
      exact hs.mutate hr hspares
    | idle | ensuring =>
      rw [hb] at ht
      cases ht
      exact ⟨Advances.refl s.etcd, hs⟩
  | check i answered =>
    obtain ⟨-, rfl⟩ := ite_some_none_eq_some.mp hmove
    exact hs.advance_of_boot_eq rfl (Advances.refl s.etcd)
  | other ops =>
    obtain ⟨hspares, rfl⟩ := ite_some_none_eq_some.mp hmove
    exact hs.advance_of_boot_eq rfl (Advances.of_spares hspares)

theorem boot_of_started (h : (generations nodeOf).step s a = some t) {i : ι} {g : Nat}
    (hb : s.boot i = .started g) : t.boot i = .started g := by
  obtain ⟨hmove, -⟩ := filter_eq_some_iff.mp h
  cases a with
  | ensure j reply =>
    obtain ⟨hidle, rfl⟩ := ite_some_none_eq_some.mp hmove
    have hij : i ≠ j := by
      intro he
      rw [he, hidle] at hb
      cases hb
    rw [Generations.ensure]
    split <;> simp [hij, hb]
  | readStart j answered =>
    obtain ⟨hensuring, rfl⟩ := ite_some_none_eq_some.mp hmove
    have hij : i ≠ j := by
      intro he
      rw [he, hensuring] at hb
      cases hb
    simp [Generations.readStart, hij, hb]
  | bump node old reply =>
    cases hmove
    rw [boot_bump, hb]
  | mutate j c reply =>
    obtain ⟨-, ht⟩ := ite_none_right_eq_some.mp hmove
    cases hj : s.boot j with
    | started g' =>
      rw [hj] at ht
      cases ht
      rw [boot_mutate, hb]
    | idle | ensuring =>
      rw [hj] at ht
      cases ht
      exact hb
  | bumpMissing | check | other =>
    obtain ⟨-, rfl⟩ := ite_some_none_eq_some.mp hmove
    exact hb

theorem etcd_of_moved (h : (generations nodeOf).step s a = some t) {i : ι} {g : Nat}
    (hb : s.boot i = .started g) (hmoved : getGeneration s.etcd (nodeOf i) ≠ g)
    (ha : a.mutator = some i) : t.etcd = s.etcd := by
  obtain ⟨hmove, -⟩ := filter_eq_some_iff.mp h
  cases a with
  | mutate j c reply =>
    obtain rfl : j = i := some.inj ha
    obtain ⟨-, ht⟩ := ite_none_right_eq_some.mp hmove
    rw [hb] at ht
    cases ht
    rw [etcd_mutate]
    exact GuardedCall.submit_of_moved hmoved reply
  | ensure | readStart | bump | bumpMissing | check | other => cases ha

omit [DecidableEq ι] in
theorem lt_of_fenced (hs : Valid nodeOf s) {i : ι} (h : a.answer nodeOf s = some (i, .fenced)) :
    ∃ g, s.boot i = .started g ∧ g < getGeneration s.etcd (nodeOf i) := by
  have hlt : ∀ g v, s.boot i = .started g → s.etcd.get (.gen (nodeOf i)) = some v →
      v.value ≠ g → g < getGeneration s.etcd (nodeOf i) := by
    intro g v hb hv hne
    obtain ⟨w, hw, hle⟩ := hs.started i g hb
    obtain rfl := some.inj (hv.symm.trans hw)
    rw [getGeneration_of_get hv]
    exact lt_of_le_of_ne hle hne.symm
  cases a with
  | mutate j c reply =>
    simp only [GenerationCall.answer] at h
    cases hb : s.boot j with
    | started g =>
      rw [hb] at h
      obtain ⟨v, hv, -⟩ := hs.started j g hb
      cases c with
      | txn cmps ops =>
        cases ho : ((GuardedCall.txn cmps ops).submit (nodeOf j) g reply s.etcd).1 <;>
          simp [ho] at h
      | write m =>
        cases ho : ((GuardedCall.write m).submit (nodeOf j) g reply s.etcd).1 with
        | rejected =>
          simp only [ho, some.injEq, Prod.mk.injEq, and_true] at h
          subst h
          exact ⟨g, hb, hlt g v hb hv (GuardedCall.moved_of_rejected hv ho)⟩
        | committed | failed => simp [ho] at h
    | idle | ensuring => simp [hb] at h
  | check j answered =>
    simp only [GenerationCall.answer] at h
    cases hb : s.boot j with
    | started g =>
      rw [hb] at h
      obtain ⟨v, hv, -⟩ := hs.started j g hb
      by_cases hfenced : (answered && getGeneration s.etcd (nodeOf j) != g) = true
      · simp only [hfenced, if_true, some.injEq, Prod.mk.injEq, and_true] at h
        subst h
        have hne : getGeneration s.etcd (nodeOf j) ≠ g := by
          simpa using (Bool.and_eq_true_iff.mp hfenced).2
        rw [getGeneration_of_get hv] at hne
        exact ⟨g, hb, hlt g v hb hv hne⟩
      · simp [hfenced] at h
    | idle | ensuring => simp [hb] at h
  | ensure | readStart | bump | bumpMissing | other => cases h

theorem along_shutOut (hs : Valid nodeOf s) {i : ι} {g : Nat} (hb : s.boot i = .started g)
    (hlt : g < getGeneration s.etcd (nodeOf i)) (bs : List (GenerationCall ι)) :
    (generations nodeOf).Along (fun u a v => a.mutator = some i → v.etcd = u.etcd) s bs := by
  -- the process keeps what it read, and the counter stays above it
  refine Machine.Along.of_invariant
    (I := fun u => Valid nodeOf u ∧ u.boot i = .started g ∧
      g < getGeneration u.etcd (nodeOf i)) ?_ ⟨hs, hb, hlt⟩ (Machine.along_true _ bs)
  rintro u a v ⟨hu, hbu, hltu⟩ - h
  obtain ⟨hadv, hv⟩ := hu.step h
  have hltv := hltu.trans_le (hadv.getGeneration_le (nodeOf i))
  exact ⟨⟨hv, boot_of_started h hbu, hltv⟩, etcd_of_moved h hbu hltu.ne'⟩

end Generations.Valid

theorem counted_empty : Counted Store.empty := by
  intro node
  rw [getGeneration, Store.get_empty]
  exact Nat.zero_le _

/-- In every run the counters never decrease. Once a counter is above what a
process of its node read at its start, no guarded mutation of that process is
applied again, and a process is told that it is fenced only when its counter has
moved. -/
theorem bumped_generation_shuts_out (nodeOf : ι → NodeID) {etcd : Etcd} (hetcd : Counted etcd)
    (as : List (GenerationCall ι)) :
    (generations nodeOf).Along
      (fun s a t => (∀ node, getGeneration s.etcd node ≤ getGeneration t.etcd node) ∧
        ∀ i, a.answer nodeOf s = some (i, .fenced) →
          ∃ g, s.boot i = .started g ∧ g < getGeneration s.etcd (nodeOf i))
      (Generations.init etcd) as ∧
    ∀ s i g, (generations nodeOf).exec (Generations.init etcd) as = some s →
      s.boot i = .started g → g < getGeneration s.etcd (nodeOf i) →
      ∀ bs, (generations nodeOf).Along
        (fun u a v => a.mutator = some i → v.etcd = u.etcd) s bs := by
  have hinit : Generations.Valid nodeOf (Generations.init etcd) := .init hetcd
  constructor
  · refine Machine.Along.of_invariant (I := Generations.Valid nodeOf) ?_ hinit
      (Machine.along_true _ as)
    intro s a t hs _ h
    obtain ⟨hadv, ht⟩ := hs.step h
    exact ⟨ht, hadv.getGeneration_le, fun i => hs.lt_of_fenced⟩
  · intro s i g hexec hb hlt
    have hs : Generations.Valid nodeOf s :=
      Machine.Along.invariant (fun s a t hs _ h => (hs.step h).2) hinit
        (Machine.along_true _ as) hexec
    exact hs.along_shutOut hb hlt

def startThenFence : List (GenerationCall Unit) := [.ensure () .answered, .bump "n1" 0 .answered]

theorem bumped_generation_shuts_out_startThenFence :
    ∃ s, (generations fun _ => "n1").exec (Generations.init Store.empty) startThenFence = some s ∧
      s.boot () = .started 0 ∧ getGeneration s.etcd "n1" = 1 ∧
      ∀ bs, (generations fun _ => "n1").Along
        (fun u a v => a.mutator = some () → v.etcd = u.etcd) s bs := by
  have hrun : ((generations fun _ => "n1").exec (Generations.init Store.empty) startThenFence).map
      (fun s => (s.boot (), getGeneration s.etcd "n1")) = some (.started 0, 1) := by
    decide +kernel
  obtain ⟨s, hs, hstate⟩ := map_eq_some_iff.mp hrun
  obtain ⟨hboot, hgen⟩ := Prod.mk.inj hstate
  refine ⟨s, hs, hboot, hgen, ?_⟩
  exact (bumped_generation_shuts_out (fun _ => "n1") counted_empty startThenFence).2 s () 0 hs hboot
    (hgen ▸ Nat.zero_lt_one)

def ShutOutAfter (nodeOf : ι → NodeID) (s : Generations ι) (a : GenerationCall ι)
    (t : Generations ι) : Prop :=
  ∀ i, a.answer nodeOf s = some (i, .fenced) → ∀ bs,
    (generations nodeOf).Along (fun u b v => b.mutator = some i → v.etcd = u.etcd) t bs

/-- Once a process has been told that it is fenced, nothing it submits is applied any more,
whatever is bumped, started or written in between. -/
theorem fenced_answer_final (nodeOf : ι → NodeID) {etcd : Etcd} (hetcd : Counted etcd)
    (as : List (GenerationCall ι)) :
    (generations nodeOf).Along (ShutOutAfter nodeOf) (Generations.init etcd) as := by
  refine Machine.Along.of_invariant (I := Generations.Valid nodeOf) ?_ (.init hetcd)
    (Machine.along_true _ as)
  intro s a t hs _ h
  obtain ⟨hadv, ht⟩ := hs.step h
  refine ⟨ht, fun i hfenced => ?_⟩
  obtain ⟨g, hb, hlt⟩ := hs.lt_of_fenced hfenced
  exact ht.along_shutOut (Generations.Valid.boot_of_started h hb)
    (hlt.trans_le (hadv.getGeneration_le _))

def lateDelete : GenerationCall Unit := .mutate () (.write (.delete (.inode 2))) .answered

theorem fenced_answer_final_lateDelete :
    ∃ s, (generations fun _ => "n1").exec (Generations.init Store.empty) startThenFence = some s ∧
      lateDelete.answer (fun _ => "n1") s = some ((), .fenced) ∧
      (generations fun _ => "n1").Along (ShutOutAfter fun _ => "n1") s [lateDelete] := by
  have hrun : ((generations fun _ => "n1").exec (Generations.init Store.empty) startThenFence).map
      (lateDelete.answer fun _ => "n1") = some (some ((), .fenced)) := by
    decide +kernel
  obtain ⟨s, hs, hfenced⟩ := map_eq_some_iff.mp hrun
  have hfinal := fenced_answer_final (fun _ => "n1") counted_empty (startThenFence ++ [lateDelete])
  exact ⟨s, hs, hfenced, (Machine.along_append.mp hfinal).2 s hs⟩

end EtcFS.Correctness
