import EtcFS.Correctness.LinkCounts
import EtcFS.Namespace.SideKeys

/-!
# Attributes, targets and quotas without an inode

A symbolic link's target always goes with its record. An attribute or a quota may stay.
-/

namespace EtcFS.Correctness

open EtcFS.Core Namespace Ipc List Option Core.Store
open Metadata hiding Key Val getInode

structure KeysOwned (s : SideState) : Prop where
  side : ∀ k v, s.keys.get k = some v → (getInode s.ns.tree k.ino).isSome
  target : ∀ ino v, s.ns.tree.get (.symlink ino) = some v → (getInode s.ns.tree ino).isSome

/-- An inode that loses its record has no quota, and no attribute if it goes by an rmdir. -/
def ClearsWhatItRemoves (s : SideState) (step : SideStep) : Prop :=
  ∀ ino ∈ s.removes step, s.keys.get (.quota ino) = none ∧
    (s.rmdirs step = true → ∀ name, s.keys.get (.xattr ino name) = none)

theorem mem_clears {s : SideState} {step : SideStep} {ino : Nat} :
    ino ∈ s.clears step ↔ ino ∈ s.removes step ∧ s.rmdirs step = false := by
  cases step with
  | name step =>
    rw [SideState.clears, SideState.removes, SideState.rmdirs]
    rcases s.ns.applied step with - | x
    · simp
    · cases h : x.1.op.isRmdir <;> simp [h]
  | _ => simp [SideState.clears, SideState.removes, SideState.rmdirs]

theorem clearsWhatItRemoves_iff_keys {s : SideState} {step : SideStep} :
    ClearsWhatItRemoves s step ↔
      ∀ k, k.ino ∈ s.removes step → (s.keys.get k).isSome → xattrsOf (s.clears step) k = true := by
  constructor
  · rintro h (⟨ino, name⟩ | ino) hk hsome
    · refine List.contains_iff_mem.mpr (mem_clears.mpr ⟨hk, Bool.eq_false_iff.mpr fun hr => ?_⟩)
      rw [(h ino hk).2 hr name] at hsome
      cases hsome
    · rw [(h ino hk).1] at hsome
      cases hsome
  · intro h ino hino
    refine ⟨not_isSome_iff_eq_none.mp fun hsome => ?_, fun hr name => ?_⟩
    · cases h (.quota ino) hino hsome
    · refine not_isSome_iff_eq_none.mp fun hsome => ?_
      have hno := (mem_clears.mp (List.contains_iff_mem.mp (h (.xattr ino name) hino hsome))).2
      rw [hr] at hno
      cases hno

instance (s : SideState) (step : SideStep) : Decidable (ClearsWhatItRemoves s step) :=
  decidable_of_iff (s.keys.holds (.rangeAbsent fun k =>
      (s.removes step).contains k.ino && !xattrsOf (s.clears step) k) = true) <| by
    rw [holds_rangeAbsent, clearsWhatItRemoves_iff_keys]
    refine forall_congr' fun k => ?_
    cases xattrsOf (s.clears step) k <;> cases s.keys.get k <;> simp

/-! ## Targets -/

def TargetsTyped (s : Tree) : Prop :=
  ∀ ino v, s.get (.symlink ino) = some v → ∃ rec, getInode s ino = some rec ∧ IsLink rec

theorem targetsTyped_commit {s : Tree} (h : TargetsTyped s) {ops : List (Op Val)}
    (hput : ∀ ino v, Op.put (.symlink ino) v ∈ ops →
      ∃ rec, getInode (s.commit ops) ino = some rec ∧ IsLink rec)
    (hkeep : ∀ ino old rec, getInode s ino = some old → getInode (s.commit ops) ino = some rec →
      rec.mode = old.mode)
    (hdel : ∀ ino rec, Op.delete (.inode ino) ∈ ops → getInode s ino = some rec → IsLink rec →
      Op.delete (.symlink ino) ∈ ops) : TargetsTyped (s.commit ops) := by
  intro ino v hv
  rcases get_commit_cases hv with ⟨hold, huntouched⟩ | ⟨hnew, -⟩
  · obtain ⟨old, hrec, hlink⟩ := h ino v hold
    cases hgone : getInode (s.commit ops) ino with
    | some rec =>
      exact ⟨rec, rfl, by rw [IsLink, hkeep ino old rec hrec hgone]; exact hlink⟩
    | none =>
      have hmem := mem_deletedInodes_of_gone (isSome_iff_exists.mpr ⟨old, hrec⟩) hgone
      have hd := hdel ino old (mem_deletedInodes.mp hmem) hrec hlink
      exact absurd rfl (huntouched _ hd)
  · exact hput ino v.value hnew

section

variable {s : Tree} {op : NsOp} {ops : List (Op Val)} {ino : Nat}

theorem put_target (hedit : ∀ o ∈ ops, Edit s op ops o) (hop : op.WritesOwnTarget) {v : String}
    (h : Op.put (.symlink ino) v ∈ ops) :
    ∃ rec, op.makes = some rec ∧ rec.ino = ino ∧ IsLink rec := by
  cases hedit _ h with
  | aside _ _ hput =>
    have hextra := hput ino v rfl
    cases op with
    | create parent name new extra =>
      obtain ⟨hino, hlink⟩ := hop _ hextra ino rfl
      exact ⟨new.record, rfl, hino.symm, hlink⟩
    | link | unlink | rmdir | rename | times => cases hextra

theorem delete_target (hedit : ∀ o ∈ ops, Edit s op ops o) {rec : InodeRecord}
    (h : Op.delete (.inode ino) ∈ ops) (hrec : getInode s ino = some rec) (hlink : IsLink rec) :
    Op.delete (.symlink ino) ∈ ops := by
  cases hedit _ h with
  | remove _ _ hrec' _ _ htarget =>
    obtain rfl := some.inj (hrec.symm.trans hrec')
    exact htarget hlink
  | aside _ ha => cases ha

end

/-! ## Runs -/

theorem side_clear_iff {keys : SideKeys} {s t : Tree} {removed cleared : List Nat}
    (howned : ∀ k v, keys.get k = some v → (getInode s k.ino).isSome)
    (hgone : ∀ ino ∈ removed, getInode t ino = none)
    (honly : ∀ ino, (getInode s ino).isSome → getInode t ino = none → ino ∈ removed) :
    (∀ k v, (clearXattrs keys cleared).get k = some v → (getInode t k.ino).isSome) ↔
      ∀ k, k.ino ∈ removed → (keys.get k).isSome → xattrsOf cleared k = true := by
  have hget : ∀ k, (clearXattrs keys cleared).get k =
      if xattrsOf cleared k then none else keys.get k :=
    keys.get_commit_deleteRange (xattrsOf cleared)
  constructor
  · intro h k hk hsome
    obtain ⟨v, hv⟩ := isSome_iff_exists.mp hsome
    by_contra hno
    have hleft := h k v (by rw [hget, if_neg hno, hv])
    rw [hgone k.ino hk] at hleft
    cases hleft
  · intro h k v hv
    rw [hget] at hv
    obtain ⟨hno, hv⟩ := ite_none_left_eq_some.mp hv
    by_contra hnone
    have hrem := honly k.ino (howned k v hv) (by simpa using hnone)
    exact hno (h k hrem (isSome_iff_exists.mpr ⟨v, hv⟩))

structure SideInv (s : SideState) : Prop where
  tracked : ReadsTracked s.ns
  numbered : Numbered s.ns
  ownTargets : ∀ id a, s.ns.attempts id = some a → a.op.WritesOwnTarget
  targets : TargetsTyped s.ns.tree
  orphans : ∀ id node ino rec, s.calls id = some (.deleteOrphan node ino (some rec)) →
    ReadRecord s.ns ino rec

namespace SideInv

variable {s t : SideState}

theorem keys (h : SideInv s) (keys : SideKeys) : SideInv { s with keys := keys } :=
  ⟨h.tracked, h.numbered, h.ownTargets, h.targets, h.orphans⟩

theorem setCall (h : SideInv s) (id : Nat) {c : Option SideCall}
    (hc : ∀ node ino rec, c = some (.deleteOrphan node ino (some rec)) → ReadRecord s.ns ino rec) :
    SideInv (s.setCall id c) := by
  refine ⟨h.tracked, h.numbered, h.ownTargets, h.targets, fun i node ino rec hi => ?_⟩
  by_cases he : i = id
  · subst he
    exact hc node ino rec (by simpa [SideState.setCall] using hi)
  · exact h.orphans i node ino rec (by simpa [SideState.setCall, he] using hi)

theorem name (h : SideInv s) {step : NsStep} {ns : NsState} (hp : OwnTarget step)
    (hstep : namespaceOps.step s.ns step = some ns) : SideInv { s with ns := ns } := by
  refine ⟨h.tracked.step hstep, h.numbered.step h.tracked hstep, ops_step hstep ?_ h.ownTargets, ?_,
    fun id node ino rec hc => (h.orphans id node ino rec hc).step h.tracked hstep⟩
  · rintro id op rfl
    exact hp
  · cases happ : s.ns.applied step with
    | none =>
      simp only [tree_of_not_applied hstep happ]
      exact h.targets
    | some x =>
      obtain ⟨a, tx⟩ := x
      simp only [tree_of_applied hstep happ]
      obtain ⟨id, now, -, ha, -, hplan, hacc, -⟩ := applied_eq_some happ
      have hedit := h.tracked.edits happ
      refine targetsTyped_commit h.targets (fun ino v hput => ?_)
        (fun ino old rec hold hrec => ?_) fun ino rec => delete_target hedit
      · obtain ⟨rec, hm, rfl, hlink⟩ := put_target hedit (h.ownTargets id a ha) hput
        exact ⟨rec, getInode_of_makes hplan hacc hm, hlink⟩
      · rcases getInode_commit_cases hedit hrec with ⟨old', hold', hmode, -⟩ | ⟨-, -, hnone⟩
        · rw [hmode, some.inj (hold.symm.trans hold')]
        · rw [hold] at hnone
          cases hnone

theorem dropOrphan (h : SideInv s) {id : Nat} {node : NodeID} {ino : Nat}
    {read : Option InodeRecord} (now : Time)
    (hcall : s.calls id = some (.deleteOrphan node ino read)) :
    SideInv { s with ns := { s.ns with
      tree := s.ns.tree.commit (Namespace.deleteOrphan node ino read now) } } := by
  refine ⟨⟨fun i rec hrec => h.tracked.own i rec (getInode_deleteOrphan hrec),
      fun i a ha x hx => (h.tracked.reads i a ha x hx).commit _⟩,
      h.numbered.shrink fun _ _ => getInode_deleteOrphan, h.ownTargets, ?_,
      fun i m n rec hi => ?_⟩
  · refine targetsTyped_commit h.targets (fun i v hput => ?_) (fun i old rec hold hrec => ?_)
      fun i rec hdel hrec hlink => ?_
    · rcases deleteOrphan_deletes hput with h | ⟨_, -, -, h | ⟨h, -⟩⟩ <;> cases h
    · rw [some.inj (hold.symm.trans (getInode_deleteOrphan hrec))]
    · -- the record that is deleted may have changed since it was read, but not its type
      rcases deleteOrphan_deletes hdel with h | ⟨old, hold, hnlink, h' | ⟨h', -⟩⟩
      · cases h
      · cases hold
        obtain rfl := Key.inode.inj (Op.delete.inj h')
        have hread := h.orphans id node ino old hcall
        have hmode : rec.mode = old.mode := by
          have hown := hread.own
          exact hread.mode rec (hown ▸ hrec)
        refine mem_cons_of_mem _ ?_
        have hlink' : old.mode &&& sIFMT = modeSymlink := hmode ▸ hlink
        simp [hnlink, unlinkInodeOps_of_no_links hnlink, hlink']
      · cases h'
  · have hread := h.orphans i m n rec hi
    exact ⟨hread.own, hread.taken, hread.apart,
      fun cur hcur => hread.mode cur (getInode_deleteOrphan hcur)⟩

end SideInv

def SideOwned (keys : SideKeys) (s : Tree) : Prop :=
  ∀ k v, keys.get k = some v → (getInode s k.ino).isSome

theorem SideOwned.put {keys : SideKeys} {s : Tree} (h : SideOwned keys s) {k : SideKey}
    (v : SideVal k) (hk : (s.get (.inode k.ino)).isSome) :
    SideOwned (keys.commit [.put k v]) s := by
  intro k' v' hv
  rcases get_commit_cases hv with ⟨hold, -⟩ | ⟨hput, -⟩
  · exact h k' v' hold
  · cases mem_singleton.mp hput
    rwa [getInode, isSome_map]

theorem SideOwned.delete {keys : SideKeys} {s : Tree} (h : SideOwned keys s) (k : SideKey) :
    SideOwned (keys.commit [.delete k]) s := by
  intro k' v' hv
  rcases get_commit_cases hv with ⟨hold, -⟩ | ⟨hput, -⟩
  · exact h k' v' hold
  · cases mem_singleton.mp hput

theorem SideOwned.setXattr {keys : SideKeys} {s : Tree} (h : SideOwned keys s) (ino : Nat)
    (name : String) (value : List UInt8) (flags : UInt32) :
    SideOwned ((setXattr s keys ino name value flags).toOption.getD keys) s := by
  simp only [Namespace.setXattr]
  repeat' split
  all_goals first
    | exact h
    | next hok => exact h.put _ (Bool.and_eq_true_iff.mp hok).1

theorem SideOwned.removeXattr {keys : SideKeys} {s : Tree} (h : SideOwned keys s) (ino : Nat)
    (name : String) : SideOwned ((removeXattr keys ino name).toOption.getD keys) s := by
  simp only [Namespace.removeXattr]
  split
  · exact h
  · split
    · exact h.delete _
    · exact h

theorem SideOwned.putQuota {keys : SideKeys} {s : Tree} (h : SideOwned keys s) (ino : Nat)
    (limits : QuotaRecord) : SideOwned (putQuota s keys ino limits) s := by
  rw [Namespace.putQuota]
  split
  · next hok => exact h.put _ hok
  · exact h

theorem clears_of_removes_nil {s : SideState} {step : SideStep} (h : s.removes step = []) :
    ClearsWhatItRemoves s step := by
  intro k hk
  rw [h] at hk
  cases hk

theorem removes_name {s : SideState} {step : NsStep} {ns : NsState}
    (hns : namespaceOps.step s.ns step = some ns) :
    (∀ ino ∈ s.removes (.name step), getInode ns.tree ino = none) ∧
      ∀ ino, (getInode s.ns.tree ino).isSome → getInode ns.tree ino = none →
        ino ∈ s.removes (.name step) := by
  cases happ : s.ns.applied step with
  | none =>
    refine ⟨fun ino hino => ?_, fun ino hsome hgone => ?_⟩
    · simp [SideState.removes, happ] at hino
    · rw [tree_of_not_applied hns happ] at hgone
      rw [hgone] at hsome
      cases hsome
  | some x =>
    obtain ⟨id, now, -, -, -, -, hacc, -⟩ := applied_eq_some happ
    simp only [SideState.removes, happ, map_some, getD_some, tree_of_applied hns happ]
    exact ⟨fun ino => gone_of_mem_deletedInodes hacc, fun ino => mem_deletedInodes_of_gone⟩

theorem sideOwned_step {s t : SideState} {step : SideStep} (h : SideInv s)
    (howned : SideOwned s.keys s.ns.tree) (hstep : sideKeyOps.step s step = some t) :
    SideInv t ∧ (SideOwned t.keys t.ns.tree ↔ ClearsWhatItRemoves s step) := by
  cases step with
  | name step =>
    obtain ⟨hp, hstep⟩ := ite_none_right_eq_some.mp hstep
    obtain ⟨ns, hns, rfl⟩ := map_eq_some_iff.mp hstep
    obtain ⟨hgone, honly⟩ := removes_name hns
    exact ⟨(h.name hp hns).keys _,
      (side_clear_iff howned hgone honly).trans clearsWhatItRemoves_iff_keys.symm⟩
  | dropOrphan id now =>
    cases hcall : s.calls id with
    | none => simp [sideKeyOps, hcall] at hstep
    | some c =>
      cases c with
      | setQuota => simp [sideKeyOps, hcall] at hstep
      | deleteOrphan node ino read =>
        have hops : s.orphanOps id now = Namespace.deleteOrphan node ino read now := by
          simp only [SideState.orphanOps, hcall]
        simp only [sideKeyOps, hcall, hops, some.injEq] at hstep
        subst hstep
        refine ⟨((h.dropOrphan now hcall).setCall id (by simp)).keys _, Iff.trans
          (side_clear_iff howned (fun i hi => ?_) fun i hsome hgone => ?_)
          clearsWhatItRemoves_iff_keys.symm⟩
        · simp only [SideState.removes, hops] at hi
          exact gone_of_mem_deletedInodes (accepts_deleteOrphan node ino read now) hi
        · simp only [SideState.removes, hops]
          exact mem_deletedInodes_of_gone hsome hgone
  | setXattr ino name value flags =>
    cases hstep
    exact ⟨h.keys _, iff_of_true (howned.setXattr ino name value flags) (clears_of_removes_nil rfl)⟩
  | removeXattr ino name =>
    cases hstep
    exact ⟨h.keys _, iff_of_true (howned.removeXattr ino name) (clears_of_removes_nil rfl)⟩
  | readQuota id ino limits =>
    obtain ⟨-, rfl⟩ := ite_some_none_eq_some.mp hstep
    refine ⟨h.setCall id fun node i rec hc => ?_, iff_of_true howned (clears_of_removes_nil rfl)⟩
    split at hc <;> cases hc
  | putQuota id =>
    cases hcall : s.calls id with
    | none => simp [sideKeyOps, hcall] at hstep
    | some c =>
      cases c with
      | deleteOrphan => simp [sideKeyOps, hcall] at hstep
      | setQuota ino limits =>
        simp only [sideKeyOps, hcall, some.injEq] at hstep
        subst hstep
        exact ⟨(h.setCall id (by simp)).keys _,
          iff_of_true (howned.putQuota ino limits) (clears_of_removes_nil rfl)⟩
  | clearQuota ino =>
    cases hstep
    exact ⟨h.keys _, iff_of_true (howned.delete (.quota ino)) (clears_of_removes_nil rfl)⟩
  | readOrphan id node ino =>
    obtain ⟨-, rfl⟩ := ite_some_none_eq_some.mp hstep
    refine ⟨h.setCall id fun node' i rec hc => ?_, iff_of_true howned (clears_of_removes_nil rfl)⟩
    obtain ⟨-, rfl, hget⟩ := SideCall.deleteOrphan.inj (some.inj hc)
    exact ReadRecord.of_get h.tracked h.numbered hget

structure Settled (s : SideState) : Prop where
  own : Own s.ns.tree
  taken : ∀ ino, (getInode s.ns.tree ino).isSome → ino ∈ s.ns.taken
  targets : TargetsTyped s.ns.tree
  idle : ∀ id, s.ns.attempts id = none
  quiet : ∀ id, s.calls id = none

/-- Every attribute, target and quota of every state belongs to an inode that has a
record in exactly the runs whose removals delete the attributes and quotas there are. -/
theorem along_keysOwned_iff {s : SideState} (hs : Settled s) (howned : KeysOwned s)
    (steps : List SideStep) :
    sideKeyOps.Along (fun _ _ t => KeysOwned t) s steps ↔
      sideKeyOps.Along (fun s step _ => ClearsWhatItRemoves s step) s steps := by
  have hiff : ∀ s step t, SideInv s ∧ SideOwned s.keys s.ns.tree →
      sideKeyOps.step s step = some t → (KeysOwned t ↔ ClearsWhatItRemoves s step) := by
    rintro s step t ⟨h, ho⟩ hstep
    obtain ⟨ht, hside⟩ := sideOwned_step h ho hstep
    rw [← hside]
    refine ⟨KeysOwned.side, fun hk => ⟨hk, fun ino v hv => ?_⟩⟩
    obtain ⟨rec, hrec, -⟩ := ht.targets ino v hv
    exact isSome_iff_exists.mpr ⟨rec, hrec⟩
  refine Machine.along_iff (I := fun s => SideInv s ∧ SideOwned s.keys s.ns.tree) ?_ hiff ?_ steps
  · intro s step t h hc hstep
    exact ⟨(sideOwned_step h.1 h.2 hstep).1, (hiff s step t h hstep).mpr hc |>.side⟩
  · refine ⟨⟨ReadsTracked.of_idle hs.own hs.idle, Numbered.of_idle hs.taken hs.idle, ?_, hs.targets,
      ?_⟩, howned.side⟩
    · intro id
      simp [hs.idle]
    · intro id
      simp [hs.quiet]

def freshSide : SideState := ⟨freshRoot, Store.empty, fun _ => none⟩

theorem get_symlink_freshRoot (ino : Nat) : freshRoot.tree.get (.symlink ino) = none := by
  rw [freshRoot, get_commit_of_untouched (by simp [Op.key]), get_empty]

theorem freshSide_settled : Settled freshSide where
  own := freshRoot_atRest.sound.own
  taken := freshRoot_atRest.taken
  targets ino v hv := by
    rw [freshSide, get_symlink_freshRoot] at hv
    cases hv
  idle := freshRoot_atRest.idle
  quiet _ := rfl

theorem freshSide_keysOwned : KeysOwned freshSide where
  side k v hv := by
    rw [freshSide, get_empty] at hv
    cases hv
  target ino v hv := by
    rw [freshSide, get_symlink_freshRoot] at hv
    cases hv

def tidyRun : List SideStep :=
  [.name (.start 0 (.create 1 "l" (newSymlink 2 "t" 0 0 0) (symlinkExtra 2 "t"))),
    .name (.commit 0 1), .setXattr 2 "user.a" [1] 0,
    .name (.start 0 (.unlink "n" 1 "l" false)), .name (.read 0), .name (.read 0),
    .name (.commit 0 2),
    .name (.start 0 (.create 1 "d" (newDir 3 0o755 0 0 0) noExtra)), .name (.read 0),
    .name (.commit 0 3), .setXattr 3 "user.b" [2] 0, .readQuota 0 3 ⟨10, 0⟩, .putQuota 0,
    .removeXattr 3 "user.b", .clearQuota 3,
    .name (.start 0 (.rmdir 1 "d")), .name (.read 0), .name (.read 0), .name (.read 0),
    .name (.commit 0 4)]

theorem tidyRun_keysOwned : sideKeyOps.Along (fun _ _ t => KeysOwned t) freshSide tidyRun :=
  (along_keysOwned_iff freshSide_settled freshSide_keysOwned tidyRun).mpr (by decide +kernel)

def removedWithKeys : List SideStep :=
  [.name (.start 0 (.create 1 "d" (newDir 2 0o755 0 0 0) noExtra)), .name (.read 0),
    .name (.commit 0 1), .setXattr 2 "user.a" [1] 0, .readQuota 0 2 ⟨10, 0⟩, .putQuota 0,
    .name (.start 0 (.rmdir 1 "d")), .name (.read 0), .name (.read 0), .name (.read 0),
    .name (.commit 0 2)]

/-- The record is gone, and its attribute and its quota are not. -/
theorem removedWithKeys_stray :
    ∃ t, sideKeyOps.exec freshSide removedWithKeys = some t ∧ getInode t.ns.tree 2 = none ∧
      (t.keys.get (.xattr 2 "user.a")).isSome ∧ (t.keys.get (.quota 2)).isSome ∧
      ¬ KeysOwned t := by
  have hrun : ((sideKeyOps.exec freshSide removedWithKeys).any fun t =>
      (getInode t.ns.tree 2).isNone && (t.keys.get (.xattr 2 "user.a")).isSome &&
        (t.keys.get (.quota 2)).isSome) = true := by
    decide +kernel
  obtain ⟨t, ht, h⟩ := (Option.any_eq_true ..).mp hrun
  simp only [Bool.and_eq_true, isNone_iff_eq_none] at h
  obtain ⟨⟨hgone, hattr⟩, hquota⟩ := h
  refine ⟨t, ht, hgone, hattr, hquota, fun hk => ?_⟩
  obtain ⟨v, hv⟩ := isSome_iff_exists.mp hattr
  have hsome := hk.side _ v hv
  rw [SideKey.ino, hgone] at hsome
  cases hsome

end EtcFS.Correctness
