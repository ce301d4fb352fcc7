import EtcFS.Namespace.Descent

/-!
# Directories moved at the same time

Two renames can close a cycle. The namespace stays a tree when the check would still pass at each
commit, and both parents are there.
-/

namespace EtcFS.Correctness

open EtcFS.Core Namespace Ipc Relation Option Core.Store List
open Metadata hiding Key Val getInode

def DirectoriesInTree (s : Tree) : Prop :=
  ∀ d, isDirectory s d = true → ¬ TransGen (Child s) d d ∧ ReflTransGen (Child s) 1 d

def ChecksStillPass (s : RenameState) (step : RenameStep) : Prop :=
  ∀ x ∈ s.applied step, ∀ r ∈ x.1.op.renameArgs,
    lookupDirent s.ns.tree r.oldParent r.oldName = some r.ino ∧
      isDirectory s.ns.tree r.newParent = true ∧
      isDescendant s.ns.tree r.newParent r.ino = some false
  deriving Decidable

theorem rename_replaces {s : Tree} {r : RenameArgs} {a b c d e f : Tree} {now : Time} {tx : Txn}
    (hown : Own s) (hb : b.Later s) (hc : c.Later s)
    (hplan : atomicRename r a b c d e f now = .txn tx) (hacc : accepts tx.ops)
    (hcmps : ∀ k ∈ tx.cmps, s.holds k = true) {v : Nat}
    (hv : lookupDirent s r.newParent r.newName = some v) :
    getInode c v = none ∨ isDirectory s v = false ∨
      s.holds (dirEmpty v) = true ∧ getInode (s.commit tx.ops) v = none := by
  obtain ⟨target, victimIsDir, htarget, hcs, hos⟩ := atomicRename_txn hplan
  rw [hcs] at hcmps
  cases htarget with
  | free _ =>
    have habsent :=
      holds_absent.mp (hcmps (.absent (.dirent r.newParent r.newName)) (by simp))
    rw [lookupDirent, habsent] at hv
    cases hv
  | dangling ino rev hname hnone =>
    have hpin := pinned_get hb hname (hcmps _ (by simp))
    obtain rfl := some.inj ((lookupDirent_of_get hpin).symm.trans hv)
    exact .inl (by rw [getInode, hnone, map_none])
  | replaced ino rev victim victimRev hname hget hsame =>
    obtain ⟨hino, hrec⟩ := pinned_named hb hc hname hget (hcmps _ (by simp)) (hcmps _ (by simp))
    obtain rfl := some.inj (hino.symm.trans hv)
    by_cases hd : IsDir victim
    · refine .inr (.inr ⟨hcmps _ (by simp [hd]), ?_⟩)
      have hdel : Op.delete (.inode ino) ∈ unlinkInodeOps victim now := by
        have hnone : unlinkInode victim now = none := if_pos hd
        simp [unlinkInodeOps, hnone, hown ino victim hrec]
      rw [getInode_commit, effect_of_accepts_delete hacc (by simp [hos, hdel]), getD_some]
    · exact .inr (.inl (by rw [isDirectory_of_get hrec, decide_eq_false hd]))

theorem getInode_rename_none {s : Tree} {r : RenameArgs} {ops : List (Op Val)}
    (hedit : ∀ o ∈ ops, Edit s (.rename r) ops o) {ino : Nat} (h : getInode s ino = none) :
    getInode (s.commit ops) ino = none := by
  by_contra hne
  obtain ⟨rec, hrec⟩ := ne_none_iff_exists'.mp hne
  rcases getInode_commit_cases hedit hrec with ⟨old, hold, -⟩ | ⟨hm, -⟩
  · rw [h] at hold
    cases hold
  · cases hm

section

variable {s : Tree} {r : RenameArgs} {read : Nat → Tree} {now : Time} {tx : Txn}

variable (h : IsTree s) (hown : Own s) (hread : ∀ i < 6, (read i).Later s)
  (hknown : ∀ ino, getInode (read 2) ino = none → getInode s ino = none)
  (hplan : (NsOp.rename r).plan read now = .txn tx) (hacc : accepts tx.ops)
  (hcmps : ∀ c ∈ tx.cmps, s.holds c = true)
  (hold : lookupDirent s r.oldParent r.oldName = some r.ino)
  (hparent : isDirectory s r.newParent = true)
  (hcheck : isDescendant s r.newParent r.ino = some false)

include h hown hread hknown hplan hacc hcmps hold hparent hcheck

theorem moves_rename : IsTree.Moves s (s.commit tx.ops) r.ino r.oldParent r.newParent := by
  have hedit : ∀ o ∈ tx.ops, Edit s (.rename r) tx.ops o := edits_plan hown hread hplan hcmps
  have hdirs : ∀ d, isDirectory (s.commit tx.ops) d = true → isDirectory s d = true := by
    intro d hd
    rcases isDirectory_commit_cases hedit hd with hd | ⟨-, rec, hm, -⟩
    · exact hd
    · cases hm
  refine ⟨?_, ?_, ?_, hdirs, hparent, h.not_below hparent hcheck⟩
  · rintro p c ⟨n, hn⟩
    rcases lookupDirent_commit_cases hedit hn with hn | hadd
    · exact .inl ⟨n, hn⟩
    · obtain ⟨hp, -, hi⟩ := Entry.mk.inj (some.inj hadd)
      exact .inr ⟨hp.symm, hi.symm⟩
  · rintro p c ⟨n, hn⟩
    by_cases htarget : r.newParent = p ∧ r.newName = n
    · -- what the new name referred to holds nothing and is no directory any more
      obtain ⟨rfl, rfl⟩ := htarget
      have hleaf : isDirectory s c = false → ∀ q, ¬ Child s c q := by
        intro hc q hq
        rw [h.directory_of_child hq] at hc
        cases hc
      have hno : isDirectory s c = false → isDirectory (s.commit tx.ops) c = false := by
        intro hc
        by_contra hd
        rw [hdirs c (Bool.not_eq_false _ ▸ hd)] at hc
        cases hc
      refine .inl ?_
      rcases rename_replaces hown (hread 1 (by decide)) (hread 2 (by decide)) hplan hacc hcmps hn
        with hnone | hfile | ⟨hempty, hgone⟩
      · have hc : isDirectory s c = false := by simp [isDirectory, hknown c hnone]
        exact ⟨hleaf hc, hno hc⟩
      · exact ⟨hleaf hfile, hno hfile⟩
      · refine ⟨?_, by simp [isDirectory, hgone]⟩
        rintro q ⟨n', hn'⟩
        exact ne_parent_of_dirEmpty hempty hn' rfl
    · by_cases hsource : r.oldParent = p ∧ r.oldName = n
      · obtain ⟨rfl, rfl⟩ := hsource
        exact .inr (.inr ⟨rfl, (some.inj (hold.symm.trans hn)).symm⟩)
      · refine .inr (.inl ⟨n, lookupDirent_commit_kept hedit hn ?_ ?_⟩)
        · intro hd
          exact hsource (Prod.mk.inj (some.inj hd))
        · intro e he
          cases he
          exact htarget
  · have hnew : (NsOp.rename r).adds = some r.new := rfl
    exact ⟨r.newName, lookupDirent_of_adds hplan hacc hnew⟩

theorem isTree_rename : IsTree (s.commit tx.ops) := by
  have hedit : ∀ o ∈ tx.ops, Edit s (.rename r) tx.ops o := edits_plan hown hread hplan hcmps
  have hm := moves_rename h hown hread hknown hplan hacc hcmps hold hparent hcheck
  have hparents : ParentsAreDirectories (s.commit tx.ops) := by
    refine (parents_commit hedit rfl hplan hacc h.parents).mpr fun e he => .inl ?_
    cases he
    exact hparent
  have hnew : isDirectory (s.commit tx.ops) r.newParent = true := by
    obtain ⟨name, hname⟩ := hm.new
    exact hparents ⟨r.newParent, name, r.ino⟩ (mem_entries.mpr hname)
  refine ⟨?_, hparents, ?_, h.reach_of_moves hm hnew, h.acyclic_of_moves hm⟩
  · -- the root has no name that a rename could replace
    refine isDirectory_commit_kept hedit h.root fun hgone => ?_
    obtain ⟨rec, hrec, -⟩ := isDirectory_eq_true.mp h.root
    have hroot : Child s r.newParent 1 := ⟨r.newName, (removed_of_commit hedit hrec hgone).1⟩
    exact h.acyclic 1 (TransGen.tail' (h.reach _ hparent) hroot)
  · -- of two names of a directory, neither can be the one that was taken away
    have hgone : lookupDirent (s.commit tx.ops) r.oldParent r.oldName = none := by
      obtain ⟨target, victimIsDir, -, -, hops⟩ := atomicRename_txn hplan
      have hdel : Op.delete (.dirent r.oldParent r.oldName) ∈ tx.ops := by
        simp [hops, RenameArgs.moves]
      rw [lookupDirent, get_commit, effect_of_accepts_delete hacc hdel]
      rfl
    have hne : ∀ e ∈ entries (s.commit tx.ops), e ∈ entries s → isDirectory s e.ino = true →
        e.ino ≠ r.ino := by
      intro e he hes hd hi
      have hmem : r.old ∈ entries s := mem_entries.mpr hold
      have he' := h.once e hes r.old hmem hd hi.symm
      have hname := mem_entries.mp he
      rw [← he', RenameArgs.old, hgone] at hname
      cases hname
    intro e he e' he' hd hi
    have hds := hm.dirs _ hd
    rcases lookupDirent_commit_cases hedit (mem_entries.mp he) with hes | hadd
    · rcases lookupDirent_commit_cases hedit (mem_entries.mp he') with hes' | hadd'
      · exact h.once e (mem_entries.mpr hes) e' (mem_entries.mpr hes') hds hi
      · have hi' : e'.ino = r.ino := congrArg Entry.ino (some.inj hadd').symm
        exact absurd (hi.symm.trans hi') (hne e he (mem_entries.mpr hes) hds)
    · have hi' : e.ino = r.ino := congrArg Entry.ino (some.inj hadd).symm
      rcases lookupDirent_commit_cases hedit (mem_entries.mp he') with hes' | hadd'
      · exact absurd (hi.trans hi') (hne e' he' (mem_entries.mpr hes') (hi ▸ hds))
      · exact some.inj (hadd'.symm.trans hadd)

end

structure RenameInv (s : NsState) : Prop where
  tracked : ReadsTracked s
  tree : IsTree s.tree
  renames : ∀ id a, s.attempts id = some a → a.op.renameArgs.isSome
  known : ∀ id a, s.attempts id = some a → ∀ x ∈ a.reads, ∀ ino,
    getInode x ino = none → getInode s.tree ino = none

namespace RenameInv

variable {s t : NsState}

theorem op_eq (h : RenameInv s) {id : Nat} {a : Attempt} (ha : s.attempts id = some a) :
    ∃ r, a.op = .rename r := by
  have hr := h.renames id a ha
  cases hop : a.op with
  | rename r => exact ⟨r, rfl⟩
  | create | link | unlink | rmdir | times =>
    rw [hop] at hr
    cases hr

theorem setAttempt (h : RenameInv s) (id : Nat) {b : Option Attempt}
    (hb : ∀ a ∈ b, a.op.renameArgs.isSome ∧ ∃ a₀, s.attempts id = some a₀ ∧ a.reads = a₀.reads) :
    RenameInv (s.setAttempt id b) := by
  refine ⟨⟨h.tracked.own, ?_⟩, h.tree, ?_, ?_⟩
  · refine forall_setAttempt h.tracked.reads id fun a ha => ?_
    obtain ⟨a₀, ha₀, hreads⟩ := (hb a ha).2
    exact hreads ▸ h.tracked.reads id a₀ ha₀
  · exact forall_setAttempt h.renames id fun a ha => (hb a ha).1
  · refine forall_setAttempt h.known id fun a ha => ?_
    obtain ⟨a₀, ha₀, hreads⟩ := (hb a ha).2
    exact hreads ▸ h.known id a₀ ha₀

theorem step (h : RenameInv s) {step : NsStep}
    (hstart : ∀ id op, step = .start id op → op.renameArgs.isSome)
    (hpass : ∀ x ∈ s.applied step, ∀ r ∈ x.1.op.renameArgs,
      lookupDirent s.tree r.oldParent r.oldName = some r.ino ∧
        isDirectory s.tree r.newParent = true ∧ isDescendant s.tree r.newParent r.ino = some false)
    (hstep : namespaceOps.step s step = some t) : RenameInv t := by
  refine ⟨h.tracked.step hstep, ?_,
    ops_step (P := fun op => op.renameArgs.isSome) hstep hstart h.renames, ?_⟩
  · cases happ : s.applied step with
    | none =>
      rw [tree_of_not_applied hstep happ]
      exact h.tree
    | some x =>
      obtain ⟨a, tx⟩ := x
      rw [tree_of_applied hstep happ]
      obtain ⟨id, now, -, ha, hlen, hplan, hacc, hcmps⟩ := applied_eq_some happ
      obtain ⟨r, hop⟩ := h.op_eq ha
      have hread := h.tracked.reads_later ha hlen
      obtain ⟨hold, hparent, hcheck⟩ := hpass _ happ r (by simp [hop, NsOp.renameArgs])
      have hknown := h.known id a ha _ (a.read_mem (i := 2) (by simp [hlen, hop, NsOp.needs]))
      rw [hop] at hplan hread
      exact isTree_rename h.tree h.tracked.own hread hknown hplan hacc hcmps hold hparent hcheck
  · refine reads_step (P := fun x y => ∀ ino, getInode x ino = none → getInode y ino = none)
      (fun _ _ hx => hx) hstep ?_ h.known
    intro a tx happ x hx ino hnone
    obtain ⟨id, now, -, ha, -⟩ := applied_eq_some happ
    obtain ⟨r, hop⟩ := h.op_eq ha
    exact getInode_rename_none (hop ▸ h.tracked.edits happ) (hx ino hnone)

end RenameInv

theorem renameInv_step {s t : RenameState} {step : RenameStep} (h : RenameInv s.ns)
    (hpass : ChecksStillPass s step) (hstep : directoryRenames.step s step = some t) :
    RenameInv t.ns := by
  cases step with
  | start id r =>
    obtain ⟨-, hstep⟩ := ite_none_right_eq_some.mp hstep
    obtain ⟨ns, hns, rfl⟩ := map_eq_some_iff.mp hstep
    refine h.step ?_ (by simp [NsState.applied]) hns
    rintro _ _ he
    obtain ⟨rfl, rfl⟩ := NsStep.start.inj he
    rfl
  | read id =>
    obtain ⟨a, ha, hstep⟩ := bind_eq_some_iff.mp hstep
    obtain ⟨-, hstep⟩ := ite_none_left_eq_some.mp hstep
    obtain ⟨ns, hns, rfl⟩ := map_eq_some_iff.mp hstep
    exact h.step (by simp) (by simp [NsState.applied]) hns
  | walk id =>
    obtain ⟨a, ha, hstep⟩ := bind_eq_some_iff.mp hstep
    obtain ⟨r, hr, hstep⟩ := bind_eq_some_iff.mp hstep
    obtain ⟨-, hstep⟩ := ite_none_right_eq_some.mp hstep
    cases hwalk : isDescendant s.ns.tree r.newParent r.ino with
    | none =>
      simp only [hwalk, some.injEq] at hstep
      subst hstep
      exact h.setAttempt id (by simp)
    | some under =>
      simp only [hwalk, some.injEq] at hstep
      subst hstep
      refine h.setAttempt id fun b hb => ?_
      cases hb
      exact ⟨rfl, a, ha, rfl⟩
  | commit id now =>
    obtain ⟨ns, hns, rfl⟩ := map_eq_some_iff.mp hstep
    refine h.step (by simp) (fun x hx => ?_) hns
    exact hpass x hx
  | giveUp id =>
    cases hstep
    exact h.setAttempt id (by simp)

/-- From a tree, in every run of directory renames whose checks would still pass when
they commit, no directory comes to be below itself and none is cut off from the root. -/
theorem along_directoriesInTree {s : RenameState} (htree : IsTree s.ns.tree) (hown : Own s.ns.tree)
    (hidle : ∀ id, s.ns.attempts id = none) {steps : List RenameStep}
    (hpass : directoryRenames.Along (fun s step _ => ChecksStillPass s step) s steps) :
    directoryRenames.Along (fun _ _ t => DirectoriesInTree t.ns.tree) s steps := by
  have hinv : RenameInv s.ns := by
    refine ⟨ReadsTracked.of_idle hown hidle, htree, ?_, ?_⟩ <;> intro id <;> simp [hidle]
  refine Machine.Along.of_invariant (I := fun s => RenameInv s.ns) ?_ hinv hpass
  intro s step t hs hc hstep
  have ht := renameInv_step hs hc hstep
  exact ⟨ht, fun d hd => ⟨ht.tree.acyclic d, ht.tree.reach d hd⟩⟩

def directory (ino : Nat) (nlink : UInt32) : InodeRecord :=
  { (newDir ino 0o755 0 0 0).record with nlink := nlink }

def twoBranches : RenameState where
  ns := {
    tree := Store.empty.commit [.put (.inode 1) (directory 1 4), .put (.inode 2) (directory 2 3),
      .put (.inode 3) (directory 3 3), .put (.inode 4) (directory 4 2),
      .put (.inode 5) (directory 5 2), .put (.dirent 1 "x") 2, .put (.dirent 1 "y") 3,
      .put (.dirent 2 "a") 4, .put (.dirent 3 "b") 5]
    attempts := fun _ => none
    taken := [1, 2, 3, 4, 5] }
  walked := fun _ => false

theorem getInode_twoBranches {ino : Nat} {rec : InodeRecord}
    (h : getInode twoBranches.ns.tree ino = some rec) :
    rec.ino = ino ∧ (ino = 1 ∨ ino = 2 ∨ ino = 3 ∨ ino = 4 ∨ ino = 5) := by
  obtain ⟨v, hv, rfl⟩ := map_eq_some_iff.mp h
  rcases get_commit_cases hv with ⟨hold, -⟩ | ⟨hput, -⟩
  · rw [get_empty] at hold
    cases hold
  · generalize v.value = rec at hput
    simp only [mem_cons, not_mem_nil, or_false] at hput
    rcases hput with h | h | h | h | h | h | h | h | h <;> cases h <;>
      exact ⟨rfl, by decide⟩

theorem isTree_twoBranches : IsTree twoBranches.ns.tree := by
  have hdown : ∀ {p c}, Child twoBranches.ns.tree p c → p < c := by
    have hall : ∀ e ∈ entries twoBranches.ns.tree, e.parent < e.ino := by decide +kernel
    rintro p c ⟨name, hname⟩
    exact hall ⟨p, name, c⟩ (mem_entries.mpr hname)
  have hx : Child twoBranches.ns.tree 1 2 := ⟨"x", by decide +kernel⟩
  have hy : Child twoBranches.ns.tree 1 3 := ⟨"y", by decide +kernel⟩
  have ha : Child twoBranches.ns.tree 2 4 := ⟨"a", by decide +kernel⟩
  have hb : Child twoBranches.ns.tree 3 5 := ⟨"b", by decide +kernel⟩
  refine ⟨by decide +kernel, ?_, ?_, fun d hd => ?_, fun d hcycle => ?_⟩
  · have hall : ∀ e ∈ entries twoBranches.ns.tree,
        isDirectory twoBranches.ns.tree e.parent = true := by decide +kernel
    exact hall
  · have hall : ∀ e ∈ entries twoBranches.ns.tree, ∀ e' ∈ entries twoBranches.ns.tree,
        e'.ino = e.ino → e' = e := by decide +kernel
    exact fun e he e' he' _ => hall e he e' he'
  · obtain ⟨rec, hrec, -⟩ := isDirectory_eq_true.mp hd
    rcases (getInode_twoBranches hrec).2 with rfl | rfl | rfl | rfl | rfl
    · exact .refl
    · exact .single hx
    · exact .single hy
    · exact (ReflTransGen.single hx).tail ha
    · exact (ReflTransGen.single hy).tail hb
  · have hlt : ∀ {p c}, TransGen (Child twoBranches.ns.tree) p c → p < c := by
      intro p c hpath
      induction hpath with
      | single hstep => exact hdown hstep
      | tail _ hstep ih => exact ih.trans (hdown hstep)
    exact (hlt hcycle).false

def nestedMoves : List RenameStep :=
  [.start 0 ⟨2, "a", 3, "a", 4, 0, false⟩, .read 0, .walk 0, .read 0, .read 0, .read 0, .read 0,
    .read 0, .commit 0 1,
    .start 0 ⟨3, "b", 4, "b", 5, 0, false⟩, .read 0, .walk 0, .read 0, .read 0, .read 0, .read 0,
    .read 0, .commit 0 2]

theorem nestedMoves_directoriesInTree :
    directoryRenames.Along (fun _ _ t => DirectoriesInTree t.ns.tree) twoBranches nestedMoves :=
  along_directoriesInTree isTree_twoBranches (fun _ _ h => (getInode_twoBranches h).1)
    (fun _ => rfl) (by decide +kernel)

def crossedMoves : List RenameStep :=
  [.start 0 ⟨2, "a", 5, "a", 4, 0, false⟩, .start 1 ⟨3, "b", 4, "b", 5, 0, false⟩,
    .read 0, .walk 0, .read 1, .walk 1,
    .read 0, .read 0, .read 0, .read 0, .read 0, .read 1, .read 1, .read 1, .read 1, .read 1,
    .commit 0 1, .commit 1 2]

/-- Both commit: each of the two directories is in the other, and neither is below
the root. -/
theorem crossedMoves_cycle :
    ∃ t, directoryRenames.exec twoBranches crossedMoves = some t ∧
      lookupDirent t.ns.tree 5 "a" = some 4 ∧ lookupDirent t.ns.tree 4 "b" = some 5 ∧
      isDirectory t.ns.tree 4 = true ∧ ¬ DirectoriesInTree t.ns.tree := by
  have hrun : ((directoryRenames.exec twoBranches crossedMoves).any fun t =>
      lookupDirent t.ns.tree 5 "a" == some 4 && lookupDirent t.ns.tree 4 "b" == some 5 &&
        isDirectory t.ns.tree 4) = true := by
    decide +kernel
  obtain ⟨t, ht, h⟩ := (Option.any_eq_true ..).mp hrun
  simp only [Bool.and_eq_true, beq_iff_eq] at h
  obtain ⟨⟨ha, hb⟩, hdir⟩ := h
  refine ⟨t, ht, ha, hb, hdir, fun htree => ?_⟩
  have hdown : Child t.ns.tree 4 5 := ⟨"b", hb⟩
  have hup : Child t.ns.tree 5 4 := ⟨"a", ha⟩
  exact (htree 4 hdir).1 (.tail (.single hdown) hup)

end EtcFS.Correctness
