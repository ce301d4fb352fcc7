import EtcFS.Namespace.Edits

/-!
# Records that outlive their last name

`DeleteOrphan` deletes what it read without a comparison. Another inode's record is safe from it as
long as numbers are not given out twice.
-/

namespace EtcFS.Namespace

open EtcFS.Core Ipc List
open Metadata hiding Key Val getInode

def deleteOrphan (node : NodeID) (ino : Nat) (read : Option InodeRecord) (now : Time) :
    List (Op Val) :=
  .delete (.orphan node ino) ::
    match read with
    | some rec => if rec.nlink = 0 then unlinkInodeOps rec now else []
    | none => []

def deletedInodes (ops : List (Op Val)) : List Nat :=
  ops.filterMap fun
    | .delete (.inode ino) => some ino
    | .delete (.dirent _ _) | .delete (.symlink _) | .delete (.orphan _ _)
    | .delete (.lock _ _ _) | .put _ _ => none

variable {ops : List (Op Val)} {now : Time}

theorem mem_deletedInodes {ino : Nat} : ino ∈ deletedInodes ops ↔ Op.delete (.inode ino) ∈ ops := by
  simp only [deletedInodes, mem_filterMap]
  constructor
  · rintro ⟨op, hop, h⟩
    split at h
    · cases h
      exact hop
    all_goals cases h
  · exact fun h => ⟨_, h, rfl⟩

theorem mem_deletedInodes_of_gone {s : Tree} {ino : Nat}
    (h : (getInode s ino).isSome) (hgone : getInode (s.commit ops) ino = none) :
    ino ∈ deletedInodes ops := by
  rw [getInode_commit] at hgone
  refine mem_deletedInodes.mpr (mem_of_effect_eq_delete ?_)
  cases heff : effect (Key.inode ino) ops with
  | none =>
    rw [heff, Option.getD_none] at hgone
    rw [hgone] at h
    cases h
  | some v =>
    rw [heff, Option.getD_some] at hgone
    rw [hgone]

theorem gone_of_mem_deletedInodes {s : Tree} (hacc : accepts ops) {ino : Nat}
    (h : ino ∈ deletedInodes ops) : getInode (s.commit ops) ino = none := by
  rw [getInode_commit, effect_of_accepts_delete hacc (mem_deletedInodes.mp h), Option.getD_some]

theorem unlinkInodeOps_cases {rec : InodeRecord} {o : Op Val} (ho : o ∈ unlinkInodeOps rec now) :
    (∃ r, o = .put (.inode rec.ino) r) ∨ o = .delete (.inode rec.ino) ∨
      o = .delete (.symlink rec.ino) := by
  rw [unlinkInodeOps] at ho
  split at ho
  · exact .inl ⟨_, mem_singleton.mp ho⟩
  · refine .inr ((mem_cons.mp ho).imp_right fun ho => ?_)
    split at ho
    · exact mem_singleton.mp ho
    · cases ho

theorem delete_of_unlinkInodeOps {rec : InodeRecord} {i : Nat}
    (h : Op.delete (.inode i) ∈ unlinkInodeOps rec now) : i = rec.ino := by
  rcases unlinkInodeOps_cases h with ⟨r, h⟩ | h | h
  · cases h
  · exact Key.inode.inj (Op.delete.inj h)
  · cases h

theorem nlink_le_of_unlinkInodeOps {rec : InodeRecord} (hdir : ¬ IsDir rec) {i : Nat}
    (h : Op.delete (.inode i) ∈ unlinkInodeOps rec now) : rec.nlink ≤ 1 := by
  by_contra hlt
  have hmode : ¬ rec.mode &&& sIFMT = modeDir := hdir
  have hleft : unlinkInode rec now = some { rec with nlink := rec.nlink - 1, ctime := now } := by
    rw [unlinkInode, if_neg hmode, if_pos (UInt32.not_le.mp hlt)]
  rw [unlinkInodeOps, hleft] at h
  cases mem_singleton.mp h

theorem unlinkInodeOps_of_no_links {rec : InodeRecord} (h : rec.nlink = 0) (now : Time) :
    unlinkInodeOps rec now = .delete (.inode rec.ino) ::
      if rec.mode &&& sIFMT = modeSymlink then [.delete (.symlink rec.ino)] else [] := by
  have hnone : unlinkInode rec now = none := by
    rw [unlinkInode]
    split
    · rfl
    · rw [h]
      rfl
  rw [unlinkInodeOps, hnone]

theorem deleteOrphan_deletes {node : NodeID} {ino : Nat} {read : Option InodeRecord}
    {o : Op Val} (ho : o ∈ deleteOrphan node ino read now) : o = .delete (.orphan node ino) ∨
      ∃ rec ∈ read, rec.nlink = 0 ∧ (o = .delete (.inode rec.ino) ∨
        o = .delete (.symlink rec.ino) ∧ rec.mode &&& sIFMT = modeSymlink) := by
  rcases mem_cons.mp ho with rfl | ho
  · exact .inl rfl
  · cases read with
    | none => cases ho
    | some rec =>
      simp only at ho
      split at ho
      · next hnlink =>
        refine .inr ⟨rec, rfl, hnlink, ?_⟩
        rw [unlinkInodeOps_of_no_links hnlink] at ho
        rcases mem_cons.mp ho with rfl | ho
        · exact .inl rfl
        · split at ho
          · next hlink => exact .inr ⟨mem_singleton.mp ho, hlink⟩
          · cases ho
      · cases ho

theorem accepts_deleteOrphan (node : NodeID) (ino : Nat) (read : Option InodeRecord)
    (now : Time) : accepts (deleteOrphan node ino read now) := by
  have hdel : ∀ o ∈ deleteOrphan node ino read now, o.isDelete = true := by
    intro o ho
    rcases deleteOrphan_deletes ho with rfl | ⟨rec, -, -, rfl | ⟨rfl, -⟩⟩ <;> rfl
  exact pairwise_of_forall_mem_list fun a ha b hb _ => ⟨hdel a ha, hdel b hb⟩

theorem getInode_deleteOrphan {s : Tree} {node : NodeID} {ino : Nat} {read : Option InodeRecord}
    {i : Nat} {rec : InodeRecord}
    (h : getInode (s.commit (deleteOrphan node ino read now)) i = some rec) :
    getInode s i = some rec := by
  obtain ⟨v, hv, rfl⟩ := Option.map_eq_some_iff.mp h
  rcases Store.get_commit_cases hv with ⟨hold, -⟩ | ⟨hput, -⟩
  · rw [getInode, hold, Option.map_some]
  · rcases deleteOrphan_deletes hput with h | ⟨_, -, -, h | ⟨h, -⟩⟩ <;> cases h

/-! ## Numbers that are given out once -/

structure Numbered (s : NsState) : Prop where
  taken : ∀ ino, (getInode s.tree ino).isSome → ino ∈ s.taken
  fresh : ∀ id a, s.attempts id = some a → ∀ ino ∈ a.op.number,
    ino ∈ s.taken ∧ getInode s.tree ino = none
  distinct : ∀ id id' a a' ino, s.attempts id = some a → s.attempts id' = some a' →
    a.op.number = some ino → a'.op.number = some ino → id = id'

theorem NsOp.number_eq_makes (op : NsOp) : op.number = op.makes.map InodeRecord.ino := by
  cases op <;> rfl

namespace Numbered

variable {s t : NsState}

theorem of_idle (htaken : ∀ ino, (getInode s.tree ino).isSome → ino ∈ s.taken)
    (hidle : ∀ id, s.attempts id = none) : Numbered s := by
  refine ⟨htaken, ?_, ?_⟩ <;> intro id <;> simp [hidle]

theorem setAttempt (h : Numbered s) (id : Nat) {b : Option Attempt}
    (hb : ∀ a ∈ b, ∃ a₀, s.attempts id = some a₀ ∧ a.op.number = a₀.op.number) :
    Numbered (s.setAttempt id b) := by
  have hold : ∀ i a, (s.setAttempt id b).attempts i = some a →
      ∃ a₀, s.attempts i = some a₀ ∧ a.op.number = a₀.op.number := by
    intro i a hi
    rcases attempts_setAttempt.mp hi with ⟨rfl, hset⟩ | ⟨-, hi⟩
    · exact hb a hset
    · exact ⟨a, hi, rfl⟩
  refine ⟨h.taken, fun i a hi ino hino => ?_, fun i i' a a' ino hi hi' hn hn' => ?_⟩
  · obtain ⟨a₀, ha₀, hop⟩ := hold i a hi
    exact h.fresh i a₀ ha₀ ino (hop ▸ hino)
  · obtain ⟨a₀, ha₀, hop⟩ := hold i a hi
    obtain ⟨a₁, ha₁, hop'⟩ := hold i' a' hi'
    exact h.distinct i i' a₀ a₁ ino ha₀ ha₁ (hop ▸ hn) (hop' ▸ hn')

theorem shrink (h : Numbered s) {tree : Tree}
    (hrec : ∀ ino rec, getInode tree ino = some rec → getInode s.tree ino = some rec) :
    Numbered { s with tree := tree } := by
  refine ⟨fun ino hsome => ?_, fun id a ha ino hino => ⟨(h.fresh id a ha ino hino).1, ?_⟩,
    h.distinct⟩
  · obtain ⟨rec, hrec'⟩ := Option.isSome_iff_exists.mp hsome
    exact h.taken ino (Option.isSome_iff_exists.mpr ⟨rec, hrec ino rec hrec'⟩)
  · refine Option.eq_none_iff_forall_ne_some.mpr fun rec hrec' => ?_
    cases (h.fresh id a ha ino hino).2.symm.trans (hrec ino rec hrec')

theorem start (h : Numbered s) {id : Nat} {op : NsOp} (hop : op.Startable s) :
    Numbered { s.setAttempt id (some ⟨op, []⟩) with taken := op.number.toList ++ s.taken } := by
  refine ⟨fun ino hino => mem_append_right _ (h.taken ino hino), ?_, ?_⟩
  · intro i a hi ino hino
    rcases attempts_setAttempt.mp hi with ⟨-, hi⟩ | ⟨-, hi⟩
    · cases hi
      refine ⟨mem_append_left _ (Option.mem_toList.mpr hino), ?_⟩
      by_contra hsome
      exact number_not_mem_taken hop hino (h.taken ino (Option.isSome_iff_ne_none.mpr hsome))
    · exact ⟨mem_append_right _ (h.fresh i a hi ino hino).1, (h.fresh i a hi ino hino).2⟩
  · intro i i' a a' ino hi hi' hn hn'
    rcases attempts_setAttempt.mp hi with ⟨rfl, hb⟩ | ⟨-, hb⟩ <;>
      rcases attempts_setAttempt.mp hi' with ⟨rfl, hb'⟩ | ⟨-, hb'⟩
    · rfl
    · cases hb
      exact absurd (h.fresh i' a' hb' ino hn').1 (number_not_mem_taken hop hn)
    · cases hb'
      exact absurd (h.fresh i a hb ino hn).1 (number_not_mem_taken hop hn')
    · exact h.distinct i i' a a' ino hb hb' hn hn'

theorem commit (h : Numbered s) {id : Nat} {a : Attempt} {ops : List (Op Val)}
    (ha : s.attempts id = some a) (hedit : ∀ o ∈ ops, Edit s.tree a.op ops o) :
    Numbered { s.setAttempt id none with tree := s.tree.commit ops } := by
  have hold : ∀ i b, (s.setAttempt id none).attempts i = some b → i ≠ id ∧ s.attempts i = some b :=
    fun i b hi => (attempts_setAttempt.mp hi).resolve_left (by simp)
  have hmade : ∀ {ino rec}, a.op.makes = some rec → rec.ino = ino → a.op.number = some ino := by
    rintro ino rec hm rfl
    rw [NsOp.number_eq_makes, hm, Option.map_some]
  refine ⟨?_, ?_, fun i i' b b' ino hi hi' =>
    h.distinct i i' b b' ino (hold i b hi).2 (hold i' b' hi').2⟩
  · intro ino hsome
    obtain ⟨rec, hrec⟩ := Option.isSome_iff_exists.mp hsome
    rcases getInode_commit_cases hedit hrec with ⟨old, hold', -⟩ | ⟨hm, hino, -⟩
    · exact h.taken ino (Option.isSome_iff_exists.mpr ⟨old, hold'⟩)
    · exact (h.fresh id a ha ino (hmade hm hino)).1
  · intro i b hi ino hino
    obtain ⟨hne, hi⟩ := hold i b hi
    refine ⟨(h.fresh i b hi ino hino).1, ?_⟩
    by_contra hsome
    obtain ⟨rec, hrec⟩ := Option.ne_none_iff_exists'.mp hsome
    rcases getInode_commit_cases hedit hrec with ⟨old, hold', -⟩ | ⟨hm, hino', -⟩
    · rw [(h.fresh i b hi ino hino).2] at hold'
      cases hold'
    · exact hne (h.distinct i id b a ino hi ha hino (hmade hm hino'))

theorem step (h : Numbered s) (htracked : ReadsTracked s) {step : NsStep}
    (hstep : namespaceOps.step s step = some t) : Numbered t := by
  cases step_end hstep with
  | started op _ hop => exact h.start hop
  | kept a reads ha => exact h.setAttempt _ (by simp [ha])
  | dropped => exact h.setAttempt _ (by simp)
  | applied a tx ha happ => exact h.commit ha (htracked.edits happ)

theorem taken_step {step : NsStep} (hstep : namespaceOps.step s step = some t) {ino : Nat}
    (h : ino ∈ s.taken) : ino ∈ t.taken := by
  cases step_end hstep with
  | started => exact mem_append_right _ h
  | kept | dropped | applied => exact h

end Numbered

structure ReadRecord (s : NsState) (ino : Nat) (rec : InodeRecord) : Prop where
  own : rec.ino = ino
  taken : ino ∈ s.taken
  apart : ∀ id a, s.attempts id = some a → a.op.number ≠ some ino
  mode : ∀ cur, getInode s.tree ino = some cur → cur.mode = rec.mode

namespace ReadRecord

variable {s t : NsState} {ino : Nat} {rec : InodeRecord}

theorem of_get (htracked : ReadsTracked s) (hn : Numbered s) (h : getInode s.tree ino = some rec) :
    ReadRecord s ino rec := by
  refine ⟨htracked.own ino rec h, hn.taken ino (Option.isSome_iff_exists.mpr ⟨rec, h⟩),
    fun id a ha hnum => ?_, fun cur hcur => ?_⟩
  · rw [(hn.fresh id a ha ino hnum).2] at h
    cases h
  · rw [Option.some.inj (hcur.symm.trans h)]

theorem step (h : ReadRecord s ino rec) (htracked : ReadsTracked s) {step : NsStep}
    (hstep : namespaceOps.step s step = some t) : ReadRecord t ino rec := by
  refine ⟨h.own, Numbered.taken_step hstep h.taken,
    ops_step (P := fun op => op.number ≠ some ino) hstep ?_ h.apart, fun cur hcur => ?_⟩
  · rintro id op rfl hnum
    obtain ⟨⟨-, hop⟩, -⟩ := Option.ite_none_right_eq_some.mp hstep
    cases op with
    | create parent name new extra =>
      cases hnum
      exact hop h.taken
    | link | unlink | rmdir | rename | times => cases hnum
  · cases happ : s.applied step with
    | none =>
      rw [tree_of_not_applied hstep happ] at hcur
      exact h.mode cur hcur
    | some x =>
      obtain ⟨a, tx⟩ := x
      rw [tree_of_applied hstep happ] at hcur
      rcases getInode_commit_cases (htracked.edits happ) hcur with
        ⟨old, hold, hmode, -⟩ | ⟨hm, hino, -⟩
      · exact hmode.trans (h.mode old hold)
      · obtain ⟨id, now, -, ha, -⟩ := applied_eq_some happ
        refine absurd ?_ (h.apart id a ha)
        rw [NsOp.number_eq_makes, hm, Option.map_some, hino]

end ReadRecord

end EtcFS.Namespace
