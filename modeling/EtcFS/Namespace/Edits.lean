import EtcFS.Namespace.Keeps

/-!
# What a transaction on names writes

A name comes or goes, a record is made, a record that is still as read is rewritten, or the record
of the inode that loses a name is removed.
-/

namespace EtcFS.Namespace

open EtcFS.Core Ipc List Option Core.Store
open Metadata hiding Key Val getInode

namespace NsOp

def adds : NsOp → Option Entry
  | .create parent name new _ => some ⟨parent, name, new.record.ino⟩
  | .link ino parent name => some ⟨parent, name, ino⟩
  | .rename r => some r.new
  | .unlink _ _ _ _ | .rmdir _ _ | .times _ _ => none

def drops : NsOp → Option (Nat × String)
  | .unlink _ parent name _ => some (parent, name)
  | .rmdir parent name => some (parent, name)
  | .rename r => some (r.oldParent, r.oldName)
  | .create _ _ _ _ | .link _ _ _ | .times _ _ => none

def loses (s : Tree) : NsOp → Option Nat
  | .unlink _ parent name _ => lookupDirent s parent name
  | .rmdir parent name => lookupDirent s parent name
  | .rename r => lookupDirent s r.newParent r.newName
  | .create _ _ _ _ | .link _ _ _ | .times _ _ => none

def makes : NsOp → Option InodeRecord
  | .create _ _ new _ => some new.record
  | .link _ _ _ | .unlink _ _ _ _ | .rmdir _ _ | .rename _ | .times _ _ => none

def isUnlink : NsOp → Bool
  | .unlink _ _ _ _ => true
  | .create _ _ _ _ | .link _ _ _ | .rmdir _ _ | .rename _ | .times _ _ => false

def extras : NsOp → List (Op Val)
  | .create _ _ _ extra => extra.ops
  | .link _ _ _ | .unlink _ _ _ _ | .rmdir _ _ | .rename _ | .times _ _ => []

end NsOp

def IsLink (rec : InodeRecord) : Prop := rec.mode &&& sIFMT = modeSymlink
  deriving Decidable

theorem not_isLink_of_isDir {rec : InodeRecord} (h : IsDir rec) : ¬ IsLink rec := by
  intro hl
  have hne : modeDir ≠ modeSymlink := by decide
  exact hne (h.symm.trans hl)

/-- An operation that a transaction may hold, beside its others. -/
inductive Edit (s : Tree) (op : NsOp) (ops : List (Op Val)) : Op Val → Prop where
  | name (e : Entry) (h : op.adds = some e) : Edit s op ops (.put (.dirent e.parent e.name) e.ino)
  | unname (parent : Nat) (name : String) (h : op.drops = some (parent, name)) :
    Edit s op ops (.delete (.dirent parent name))
  | make (rec : InodeRecord) (h : op.makes = some rec) (hfree : getInode s rec.ino = none) :
    Edit s op ops (.put (.inode rec.ino) rec)
  | rewrite (ino : Nat) (old rec : InodeRecord) (h : getInode s ino = some old)
    (hmode : rec.mode = old.mode) (hino : rec.ino = old.ino) : Edit s op ops (.put (.inode ino) rec)
  | remove (ino : Nat) (rec : InodeRecord) (h : getInode s ino = some rec)
    (hloses : op.loses s = some ino)
    (hempty : IsDir rec → op.isUnlink = false → s.holds (dirEmpty ino) = true)
    (htarget : IsLink rec → .delete (.symlink ino) ∈ ops) : Edit s op ops (.delete (.inode ino))
  | aside (o : Op Val) (h : o.key.aside = true)
    (hput : ∀ ino v, o = .put (.symlink ino) v → o ∈ op.extras) : Edit s op ops o

def Own (s : Tree) : Prop := ∀ ino rec, getInode s ino = some rec → rec.ino = ino

section

variable {s : Tree} {op : NsOp} {now : Time} {tx : Txn} {ops : List (Op Val)}

variable {r : Tree} {parent : Nat} {name : String}

theorem pinned_get (h : r.Later s) {k : Key} {v : Val k} {rev : Nat}
    (hv : r.get k = some ⟨v, rev⟩) (hpin : s.holds (.modRevisionEq k rev) = true) :
    s.get k = some ⟨v, rev⟩ :=
  h.get_of_modRevision_eq hv (holds_modRevisionEq.mp hpin)

theorem edits_adjustDirNlink (hr : r.Later s) {p : Nat} {delta : Int}
    (hcmps : ∀ c ∈ (adjustDirNlink r p delta now).cmps, s.holds c = true) :
    ∀ o ∈ (adjustDirNlink r p delta now).ops, Edit s op ops o := by
  rw [adjustDirNlink] at hcmps ⊢
  cases hget : r.get (.inode p) with
  | none => simp
  | some v =>
    obtain ⟨rec, rev⟩ := v
    have hput : ∀ nlink : UInt32, s.holds (inodeUnchanged p rev) = true →
        Edit s op ops (.put (.inode p) { rec with nlink := nlink, mtime := now, ctime := now }) :=
      fun _ hpin => .rewrite p rec _ (getInode_of_get (pinned_get hr hget hpin)) rfl rfl
    simp only [hget] at hcmps ⊢
    split at hcmps
    · next hpos =>
      simp only [if_pos hpos, mem_singleton, forall_eq] at hcmps ⊢
      exact hput _ hcmps
    · next hpos =>
      split at hcmps
      · next hneg =>
        simp only [if_neg hpos, if_pos hneg, mem_singleton, forall_eq] at hcmps ⊢
        exact hput _ hcmps
      · next hneg => simp [if_neg hpos, if_neg hneg]

theorem edits_unlinkInodeOps {ino : Nat} {rec : InodeRecord} (hrec : getInode s ino = some rec)
    (hown : rec.ino = ino) (hloses : op.loses s = some ino)
    (hempty : IsDir rec → op.isUnlink = false → s.holds (dirEmpty ino) = true)
    (hsub : ∀ o ∈ unlinkInodeOps rec now, o ∈ ops) :
    ∀ o ∈ unlinkInodeOps rec now, Edit s op ops o := by
  intro o ho
  rw [unlinkInodeOps] at ho hsub
  cases hleft : unlinkInode rec now with
  | some reduced =>
    simp only [hleft, mem_singleton] at ho
    subst ho
    have hred : reduced.mode = rec.mode ∧ reduced.ino = rec.ino := by
      simp only [unlinkInode] at hleft
      obtain ⟨-, hleft⟩ := ite_none_left_eq_some.mp hleft
      obtain ⟨-, rfl⟩ := ite_some_none_eq_some.mp hleft
      exact ⟨rfl, rfl⟩
    rw [hown]
    exact .rewrite ino rec reduced hrec hred.1 hred.2
  | none =>
    simp only [hleft, mem_cons] at ho hsub
    rcases ho with rfl | ho
    · rw [hown]
      refine .remove ino rec hrec hloses hempty fun hlink => hsub _ (.inr ?_)
      rw [if_pos (show rec.mode &&& sIFMT = modeSymlink from hlink), hown]
      exact mem_singleton_self _
    · split at ho
      · obtain rfl := mem_singleton.mp ho
        exact .aside _ rfl fun _ _ h => by cases h
      · cases ho

theorem edits_atomicCreate {new : NewRecord} {extra : CreateExtra}
    (hr : IsDir new.record → r.Later s) (hplan : atomicCreate parent name new extra r now = .txn tx)
    (hcmps : ∀ c ∈ tx.cmps, s.holds c = true) :
    ∀ o ∈ tx.ops, Edit s (.create parent name new extra) ops o := by
  have hbase : s.holds (.absent (.inode new.record.ino)) = true → ∀ o ∈
      [Op.put (.dirent parent name) new.record.ino, .put (.inode new.record.ino) new.record] ++
        extra.ops, Edit s (.create parent name new extra) ops o := by
    intro habsent o ho
    have hfree : getInode s new.record.ino = none := by
      rw [getInode, holds_absent.mp habsent, map_none]
    rcases mem_append.mp ho with ho | ho
    · rcases mem_cons.mp ho with rfl | ho
      · exact .name ⟨parent, name, new.record.ino⟩ rfl
      · obtain rfl := mem_singleton.mp ho
        exact .make new.record rfl hfree
    · exact .aside o (extra.outside o ho).1 fun _ _ _ => ho
  simp only [atomicCreate] at hplan
  split at hplan
  · next hd =>
    obtain rfl := Plan.txn.inj hplan
    intro o ho
    rcases mem_append.mp ho with ho | ho
    · exact hbase (hcmps _ (by simp)) o ho
    · exact edits_adjustDirNlink (hr hd) (fun c hc => hcmps c (mem_append_right _ hc)) o ho
  · obtain rfl := Plan.txn.inj hplan
    exact hbase (hcmps _ (by simp))

theorem edits_atomicLink {ino : Nat} (hr : r.Later s)
    (hplan : atomicLink ino parent name r now = .txn tx) (hcmps : ∀ c ∈ tx.cmps, s.holds c = true) :
    ∀ o ∈ tx.ops, Edit s (.link ino parent name) tx.ops o := by
  obtain ⟨rec, rev, hget, -, rfl⟩ := atomicLink_txn hplan
  have hrec := getInode_of_get (pinned_get hr hget (hcmps (inodeUnchanged ino rev) (by simp)))
  intro o ho
  rcases mem_cons.mp ho with rfl | ho
  · exact .name ⟨parent, name, ino⟩ rfl
  · obtain rfl := mem_singleton.mp ho
    exact .rewrite ino rec _ hrec rfl rfl

theorem pinned_named {r' : Tree} (hr : r.Later s) (hr' : r'.Later s) {ino rev rev' : Nat}
    {rec : InodeRecord} (hname : r.get (.dirent parent name) = some ⟨ino, rev⟩)
    (hrec : r'.get (.inode ino) = some ⟨rec, rev'⟩)
    (hpin : s.holds (.modRevisionEq (.dirent parent name) rev) = true)
    (hpin' : s.holds (inodeUnchanged ino rev') = true) :
    lookupDirent s parent name = some ino ∧ getInode s ino = some rec :=
  ⟨lookupDirent_of_get (pinned_get hr hname hpin), getInode_of_get (pinned_get hr' hrec hpin')⟩

theorem edits_atomicUnlink {node : NodeID} {heldOpen : Bool}
    {r' : Tree} (hown : Own s) (hr : r.Later s) (hr' : r'.Later s)
    (hplan : atomicUnlink node parent name heldOpen r r' now = .txn tx)
    (hcmps : ∀ c ∈ tx.cmps, s.holds c = true) :
    ∀ o ∈ tx.ops, Edit s (.unlink node parent name heldOpen) tx.ops o := by
  obtain ⟨ino, direntRev, rec, rev, hname, hget, rfl⟩ := atomicUnlink_txn hplan
  obtain ⟨hino, hrec⟩ := pinned_named hr hr' hname hget (hcmps _ (by simp)) (hcmps _ (by simp))
  intro o ho
  rcases mem_cons.mp ho with rfl | ho
  · exact .unname parent name rfl
  · split at ho
    · rcases mem_cons.mp ho with rfl | ho
      · exact .rewrite ino rec _ hrec rfl rfl
      · obtain rfl := mem_singleton.mp ho
        exact .aside _ rfl fun _ _ h => by cases h
    · next hno =>
      have hloses : (NsOp.unlink node parent name heldOpen).loses s = some ino := hino
      refine edits_unlinkInodeOps hrec (hown ino rec hrec) hloses (fun _ h => by cases h) ?_ o ho
      rw [if_neg hno]
      exact fun _ => mem_cons_of_mem _

theorem edits_atomicRmdir {r' r'' : Tree} (hr : r.Later s) (hr' : r'.Later s) (hr'' : r''.Later s)
    (hplan : atomicRmdir parent name r r' r'' now = .txn tx)
    (hcmps : ∀ c ∈ tx.cmps, s.holds c = true) :
    ∀ o ∈ tx.ops, Edit s (.rmdir parent name) ops o := by
  obtain ⟨ino, direntRev, rec, rev, hname, hget, hdir, rfl⟩ := atomicRmdir_txn hplan
  obtain ⟨hino, hrec⟩ := pinned_named hr hr' hname hget (hcmps _ (by simp)) (hcmps _ (by simp))
  intro o ho
  rcases mem_append.mp ho with ho | ho
  · rcases mem_cons.mp ho with rfl | ho
    · exact .unname parent name rfl
    · obtain rfl := mem_singleton.mp ho
      exact .remove ino rec hrec hino (fun _ _ => hcmps _ (by simp))
        fun hlink => absurd hlink (not_isLink_of_isDir hdir)
  · exact edits_adjustDirNlink hr'' (fun c hc => hcmps c (mem_append_right _ hc)) o ho

theorem edits_applyRenameNlink {p q : Nat} {srcIsDir victimIsDir : Bool} {r' : Tree}
    (hr : r.Later s) (hr' : r'.Later s)
    (hcmps : ∀ c ∈ (applyRenameNlink p q srcIsDir victimIsDir r r' now).cmps, s.holds c = true) :
    ∀ o ∈ (applyRenameNlink p q srcIsDir victimIsDir r r' now).ops, Edit s op ops o := by
  simp only [applyRenameNlink, Txn.append_cmps, Txn.append_ops] at hcmps ⊢
  have hite : ∀ {c : Prop} [Decidable c] {x : Tree} {i : Nat} {d : Int}, x.Later s →
      (∀ k ∈ (if c then adjustDirNlink x i d now else ⟨[], []⟩).cmps, s.holds k = true) →
      ∀ o ∈ (if c then adjustDirNlink x i d now else ⟨[], []⟩).ops, Edit s op ops o := by
    intro c _ x i d hx hk
    split at hk
    · next hc =>
      rw [if_pos hc]
      exact edits_adjustDirNlink hx hk
    · next hc => simp [if_neg hc]
  intro o ho
  rcases mem_append.mp ho with ho | ho
  · exact hite hr (fun c hc => hcmps c (mem_append_left _ hc)) o ho
  · exact hite hr' (fun c hc => hcmps c (mem_append_right _ hc)) o ho

theorem edits_moves (r : RenameArgs) : ∀ o ∈ r.moves, Edit s (.rename r) ops o := by
  intro o ho
  rcases mem_cons.mp ho with rfl | ho
  · exact .unname r.oldParent r.oldName rfl
  · obtain rfl := mem_singleton.mp ho
    exact .name r.new rfl

theorem edits_atomicRename {r : RenameArgs} {a b c d e f : Tree} (hown : Own s) (hb : b.Later s)
    (hc : c.Later s) (he : e.Later s) (hf : f.Later s)
    (hplan : atomicRename r a b c d e f now = .txn tx)
    (hcmps : ∀ k ∈ tx.cmps, s.holds k = true) : ∀ o ∈ tx.ops, Edit s (.rename r) tx.ops o := by
  obtain ⟨target, victimIsDir, htarget, hcs, hos⟩ := atomicRename_txn hplan
  rw [hcs] at hcmps
  intro o ho
  rw [hos, append_assoc] at ho
  rcases mem_append.mp ho with hmove | hrest
  · exact edits_moves r o hmove
  · rcases mem_append.mp hrest with hvictim | hnlink
    · cases htarget with
      | free | dangling => cases hvictim
      | replaced ino rev victim victimRev hname hget hsame =>
        obtain ⟨hino, hrec⟩ :=
          pinned_named hb hc hname hget (hcmps _ (by simp)) (hcmps _ (by simp))
        have hloses : (NsOp.rename r).loses s = some ino := hino
        refine edits_unlinkInodeOps hrec (hown ino victim hrec) hloses (fun hd _ => ?_) ?_ o hvictim
        · exact hcmps _ (by simp [hd])
        · rw [hos]
          exact fun _ hmem => mem_append_left _ (mem_append_right _ hmem)
    · exact edits_applyRenameNlink he hf (fun k hk => hcmps k (mem_append_right _ hk)) o hnlink

theorem edits_commitInodeTimes {ino : Nat} {u : TimeUpdate} (hr : r.Later s)
    (hplan : commitInodeTimes ino u r = .txn tx) (hcmps : ∀ c ∈ tx.cmps, s.holds c = true) :
    ∀ o ∈ tx.ops, Edit s (.times ino u) ops o := by
  obtain ⟨rec, rev, hget, rfl⟩ := commitInodeTimes_txn hplan
  have hrec := getInode_of_get (pinned_get hr hget (hcmps _ (mem_singleton_self _)))
  have hm := moved_apply u rec
  intro o ho
  obtain rfl := mem_singleton.mp ho
  exact .rewrite ino rec _ hrec hm.mode hm.ino

theorem edits_plan {read : Nat → Tree} (hown : Own s) (hread : ∀ i < op.needs, (read i).Later s)
    (hplan : op.plan read now = .txn tx) (hcmps : ∀ c ∈ tx.cmps, s.holds c = true) :
    ∀ o ∈ tx.ops, Edit s op tx.ops o := by
  cases op with
  | create parent name new extra =>
    exact edits_atomicCreate (fun hd => hread 0 (by simp [NsOp.needs, hd])) hplan hcmps
  | link ino parent name => exact edits_atomicLink (hread 0 (by simp [NsOp.needs])) hplan hcmps
  | unlink node parent name heldOpen =>
    exact edits_atomicUnlink hown (hread 0 (by simp [NsOp.needs])) (hread 1 (by simp [NsOp.needs]))
      hplan hcmps
  | rmdir parent name =>
    exact edits_atomicRmdir (hread 0 (by simp [NsOp.needs])) (hread 1 (by simp [NsOp.needs]))
      (hread 2 (by simp [NsOp.needs])) hplan hcmps
  | rename r =>
    exact edits_atomicRename hown (hread 1 (by simp [NsOp.needs])) (hread 2 (by simp [NsOp.needs]))
      (hread 4 (by simp [NsOp.needs])) (hread 5 (by simp [NsOp.needs])) hplan hcmps
  | times ino u => exact edits_commitInodeTimes (hread 0 (by simp [NsOp.needs])) hplan hcmps

end

variable {read : Nat → Tree}

theorem plan_of_adds {op : NsOp} {now : Time} {tx : Txn}
    (hplan : op.plan read now = .txn tx) {e : Entry} (he : op.adds = some e) :
    .put (.dirent e.parent e.name) e.ino ∈ tx.ops ∧ ((∃ r ∈ op.renameArgs, r.new = e) ∨
      .absent (.dirent e.parent e.name) ∈ tx.cmps) := by
  cases op with
  | create parent name new extra =>
    cases he
    simp only [NsOp.plan, atomicCreate] at hplan
    split at hplan <;> obtain rfl := Plan.txn.inj hplan <;> simp
  | link ino parent name =>
    cases he
    obtain ⟨rec, rev, -, -, rfl⟩ := atomicLink_txn hplan
    simp
  | rename r =>
    cases he
    obtain ⟨target, victimIsDir, -, -, hops⟩ := atomicRename_txn hplan
    exact ⟨by simp [hops, RenameArgs.moves, RenameArgs.new], .inl ⟨r, rfl, rfl⟩⟩
  | unlink | rmdir | times => cases he

theorem effect_of_accepts {ops : List (Op Val)} (hacc : accepts ops) {k : Key} {v : Val k}
    (h : Op.put k v ∈ ops) : effect k ops = some (some v) := by
  induction ops with
  | nil => cases h
  | cons o ops ih =>
    obtain ⟨hhead, htail⟩ := pairwise_cons.mp hacc
    rcases mem_cons.mp h with rfl | h
    · have hnone : effect k ops = none := by
        refine effect_eq_none_iff.mpr fun o' ho' he => ?_
        cases (hhead o' ho' he.symm).1
      rw [effect, hnone, none_or, Op.effect_put_self]
    · rw [effect, ih htail h, some_or]

theorem effect_of_accepts_delete {ops : List (Op Val)} (hacc : accepts ops) {k : Key}
    (h : Op.delete k ∈ ops) : effect k ops = some none := by
  cases heff : effect k ops with
  | none => exact absurd rfl (effect_eq_none_iff.mp heff _ h)
  | some v =>
    cases v with
    | none => rfl
    | some v =>
      have : Std.Symm fun a b : Op Val =>
          a.key = b.key → a.isDelete = true ∧ b.isDelete = true :=
        ⟨fun a b hab he => (hab he.symm).symm⟩
      have hpair := hacc.forall h (mem_of_effect_eq_put heff) (by simp) rfl
      cases hpair.2

theorem getInode_of_makes {s : Tree} {op : NsOp} {now : Time} {tx : Txn}
    (hplan : op.plan read now = .txn tx) (hacc : accepts tx.ops) {rec : InodeRecord}
    (h : op.makes = some rec) : getInode (s.commit tx.ops) rec.ino = some rec := by
  cases op with
  | create parent name new extra =>
    cases h
    have hput : Op.put (.inode new.record.ino) new.record ∈ tx.ops := by
      simp only [NsOp.plan, atomicCreate] at hplan
      split at hplan <;> obtain rfl := Plan.txn.inj hplan <;> simp
    rw [getInode_commit, effect_of_accepts hacc hput, getD_some]
  | link | unlink | rmdir | rename | times => cases h

theorem lookupDirent_of_adds {s : Tree} {op : NsOp} {now : Time} {tx : Txn}
    (hplan : op.plan read now = .txn tx) (hacc : accepts tx.ops) {e : Entry}
    (he : op.adds = some e) : lookupDirent (s.commit tx.ops) e.parent e.name = some e.ino := by
  rw [lookupDirent, get_commit, effect_of_accepts hacc (plan_of_adds hplan he).1,
    elim_some, map_some, map_some]

/-! ## What the edits leave -/

section

variable {s : Tree} {op : NsOp} {ops : List (Op Val)}

theorem lookupDirent_commit_cases (hedit : ∀ o ∈ ops, Edit s op ops o) {p i : Nat} {n : String}
    (h : lookupDirent (s.commit ops) p n = some i) :
    lookupDirent s p n = some i ∨ op.adds = some ⟨p, n, i⟩ := by
  obtain ⟨v, hv, rfl⟩ := map_eq_some_iff.mp h
  rcases get_commit_cases hv with ⟨hold, -⟩ | ⟨hput, -⟩
  · exact .inl (by rw [lookupDirent, hold, map_some])
  · generalize v.value = i at hput
    cases hedit _ hput with
    | name e he => exact .inr he
    | aside _ ha => cases ha

theorem lookupDirent_commit_kept (hedit : ∀ o ∈ ops, Edit s op ops o) {p i : Nat} {n : String}
    (h : lookupDirent s p n = some i) (hdrop : op.drops ≠ some (p, n))
    (hadd : ∀ e ∈ op.adds, ¬ (e.parent = p ∧ e.name = n)) :
    lookupDirent (s.commit ops) p n = some i := by
  rw [lookupDirent, get_commit_of_untouched ?_]
  · exact h
  · intro o ho hk
    cases hedit o ho with
    | name e he =>
      obtain ⟨hp, hn⟩ := Key.dirent.inj hk
      exact hadd e he ⟨hp, hn⟩
    | unname parent name hd =>
      obtain ⟨rfl, rfl⟩ := Key.dirent.inj hk
      exact hdrop hd
    | make | rewrite | remove => cases hk
    | aside _ ha =>
      rw [hk] at ha
      cases ha

theorem getInode_commit_cases (hedit : ∀ o ∈ ops, Edit s op ops o) {ino : Nat} {rec : InodeRecord}
    (h : getInode (s.commit ops) ino = some rec) :
    (∃ old, getInode s ino = some old ∧ rec.mode = old.mode ∧ rec.ino = old.ino) ∨
      op.makes = some rec ∧ rec.ino = ino ∧ getInode s ino = none := by
  obtain ⟨v, hv, rfl⟩ := map_eq_some_iff.mp h
  rcases get_commit_cases hv with ⟨hold, -⟩ | ⟨hput, -⟩
  · exact .inl ⟨v.value, by rw [getInode, hold, map_some], rfl, rfl⟩
  · generalize v.value = rec at hput
    cases hedit _ hput with
    | make _ hm hfree => exact .inr ⟨hm, rfl, hfree⟩
    | rewrite _ old _ hold hmode hino => exact .inl ⟨old, hold, hmode, hino⟩
    | aside _ ha => cases ha

theorem removed_of_commit (hedit : ∀ o ∈ ops, Edit s op ops o) {ino : Nat} {rec : InodeRecord}
    (h : getInode s ino = some rec) (hgone : getInode (s.commit ops) ino = none) :
    op.loses s = some ino ∧ (IsDir rec → op.isUnlink = false → s.holds (dirEmpty ino) = true) := by
  have heff : effect (Key.inode ino) ops = some none := by
    rw [getInode_commit] at hgone
    cases he : effect (Key.inode ino) ops with
    | none => simp [he, h] at hgone
    | some v =>
      rw [he, getD_some] at hgone
      rw [hgone]
  cases hedit _ (mem_of_effect_eq_delete heff) with
  | remove _ rec' hrec' hloses hempty _ =>
    obtain rfl := some.inj (h.symm.trans hrec')
    exact ⟨hloses, hempty⟩
  | aside _ ha => cases ha

theorem Own.commit (hown : Own s) (hedit : ∀ o ∈ ops, Edit s op ops o) : Own (s.commit ops) := by
  intro ino rec hrec
  rcases getInode_commit_cases hedit hrec with ⟨old, hold, -, hino⟩ | ⟨-, hino, -⟩
  · exact hino.trans (hown ino old hold)
  · exact hino

theorem isDirectory_commit_kept (hedit : ∀ o ∈ ops, Edit s op ops o) {ino : Nat}
    (h : isDirectory s ino = true) (hthere : getInode (s.commit ops) ino ≠ none) :
    isDirectory (s.commit ops) ino = true := by
  obtain ⟨old, hold, hd⟩ := isDirectory_eq_true.mp h
  obtain ⟨rec, hrec⟩ := ne_none_iff_exists'.mp hthere
  rcases getInode_commit_cases hedit hrec with ⟨old', hold', hmode, -⟩ | ⟨-, -, hnone⟩
  · obtain rfl := some.inj (hold.symm.trans hold')
    exact isDirectory_eq_true.mpr ⟨rec, hrec, by rw [IsDir, hmode]; exact hd⟩
  · rw [hold] at hnone
    cases hnone

theorem isDirectory_commit_cases (hedit : ∀ o ∈ ops, Edit s op ops o) {ino : Nat}
    (h : isDirectory (s.commit ops) ino = true) : isDirectory s ino = true ∨
      getInode s ino = none ∧ ∃ rec, op.makes = some rec ∧ rec.ino = ino ∧ IsDir rec := by
  obtain ⟨rec, hrec, hd⟩ := isDirectory_eq_true.mp h
  rcases getInode_commit_cases hedit hrec with ⟨old, hold, hmode, -⟩ | ⟨hm, hino, hnone⟩
  · exact .inl (isDirectory_eq_true.mpr ⟨old, hold, by rw [IsDir, ← hmode]; exact hd⟩)
  · exact .inr ⟨hnone, rec, hm, hino, hd⟩

end

/-! ## The directories that entries are in -/

def ParentsAreDirectories (s : Tree) : Prop := ∀ e ∈ entries s, isDirectory s e.parent = true

theorem parent_survives {s : Tree} {op : NsOp} {ops : List (Op Val)}
    (hedit : ∀ o ∈ ops, Edit s op ops o) (hop : op.isUnlink = false) {e : Entry}
    (he : e ∈ entries s) (hdir : isDirectory s e.parent = true) :
    isDirectory (s.commit ops) e.parent = true := by
  refine isDirectory_commit_kept hedit hdir fun hgone => ?_
  obtain ⟨rec, hrec, hisdir⟩ := isDirectory_eq_true.mp hdir
  have hempty := (removed_of_commit hedit hrec hgone).2 hisdir hop
  exact ne_parent_of_dirEmpty hempty (mem_entries.mp he) rfl

theorem new_parent_survives {s : Tree} {op : NsOp} {ops : List (Op Val)}
    (hedit : ∀ o ∈ ops, Edit s op ops o) (hop : op.isUnlink = false) {e : Entry}
    (he : op.adds = some e) (hdir : isDirectory s e.parent = true) :
    isDirectory (s.commit ops) e.parent = true := by
  refine isDirectory_commit_kept hedit hdir fun hgone => ?_
  obtain ⟨rec, hrec, hisdir⟩ := isDirectory_eq_true.mp hdir
  obtain ⟨hloses, hempty⟩ := removed_of_commit hedit hrec hgone
  -- only a rename both adds a name and takes one, and the one it takes is in the same directory
  cases op with
  | create | link | times => cases hloses
  | unlink | rmdir => cases he
  | rename r =>
    cases he
    exact ne_parent_of_dirEmpty (hempty hisdir hop) hloses rfl

theorem parents_commit {s : Tree} {op : NsOp} {now : Time} {tx : Txn}
    (hedit : ∀ o ∈ tx.ops, Edit s op tx.ops o) (hop : op.isUnlink = false)
    (hplan : op.plan read now = .txn tx) (hacc : accepts tx.ops)
    (hs : ParentsAreDirectories s) : ParentsAreDirectories (s.commit tx.ops) ↔
      ∀ e ∈ op.adds, isDirectory s e.parent = true ∨
        getInode s e.parent = none ∧ ∃ rec ∈ op.makes, rec.ino = e.parent ∧ IsDir rec := by
  constructor
  · intro h e he
    have hmem : e ∈ entries (s.commit tx.ops) :=
      mem_entries.mpr (lookupDirent_of_adds hplan hacc he)
    exact isDirectory_commit_cases hedit (h e hmem)
  · intro h e he
    rcases lookupDirent_commit_cases hedit (mem_entries.mp he) with hold | hadd
    · have hmem : e ∈ entries s := mem_entries.mpr hold
      exact parent_survives hedit hop hmem (hs e hmem)
    · rcases h e hadd with hdir | ⟨-, rec, hm, hino, hisdir⟩
      · exact new_parent_survives hedit hop hadd hdir
      · -- the parent is made with the entry
        refine isDirectory_eq_true.mpr ⟨rec, ?_, hisdir⟩
        rw [← hino]
        exact getInode_of_makes hplan hacc hm

/-! ## Runs -/

section

variable {s t : NsState} {step : NsStep}

theorem forall_setAttempt {P : Attempt → Prop} (h : ∀ i a, s.attempts i = some a → P a) (id : Nat)
    {b : Option Attempt} (hb : ∀ a ∈ b, P a) :
    ∀ i a, (s.setAttempt id b).attempts i = some a → P a := by
  intro i a hi
  rcases attempts_setAttempt.mp hi with ⟨-, hi⟩ | ⟨-, hi⟩
  · exact hb a hi
  · exact h i a hi

theorem ops_step {P : NsOp → Prop} (hstep : namespaceOps.step s step = some t)
    (hstart : ∀ id op, step = .start id op → P op)
    (h : ∀ i a, s.attempts i = some a → P a.op) : ∀ i a, t.attempts i = some a → P a.op := by
  cases step_end hstep with
  | started op hop => exact forall_setAttempt h _ (by simpa using hstart _ op hop)
  | kept a reads ha => exact forall_setAttempt h _ (by simpa using h _ a ha)
  | dropped | applied => exact forall_setAttempt h _ (by simp)

theorem reads_step {P : Tree → Tree → Prop} (hrefl : ∀ x, P x x)
    (hstep : namespaceOps.step s step = some t)
    (hcommit : ∀ a tx, s.applied step = some (a, tx) → ∀ x, P x s.tree → P x (s.tree.commit tx.ops))
    (h : ∀ i a, s.attempts i = some a → ∀ x ∈ a.reads, P x s.tree) :
    ∀ i a, t.attempts i = some a → ∀ x ∈ a.reads, P x t.tree := by
  cases step_end hstep with
  | started | dropped => exact forall_setAttempt h _ (by simp)
  | kept a reads ha hreads =>
    refine forall_setAttempt h _ fun b hb x hx => ?_
    cases hb
    rcases hreads with rfl | rfl
    · cases hx
    · rcases mem_append.mp hx with hx | hx
      · exact h _ a ha x hx
      · obtain rfl := mem_singleton.mp hx
        exact hrefl _
  | applied a tx _ happ =>
    refine forall_setAttempt (fun i b hi x hx => ?_) _ (by simp)
    exact hcommit a tx happ x (h i b hi x hx)

end

structure ReadsTracked (s : NsState) : Prop where
  own : Own s.tree
  reads : ∀ id a, s.attempts id = some a → ∀ r ∈ a.reads, r.Later s.tree

namespace ReadsTracked

variable {s t : NsState}

theorem of_idle (hown : Own s.tree) (hidle : ∀ id, s.attempts id = none) : ReadsTracked s :=
  ⟨hown, fun id a ha => by
    rw [hidle] at ha
    cases ha⟩

theorem reads_later (h : ReadsTracked s) {id : Nat} {a : Attempt} (ha : s.attempts id = some a)
    (hlen : a.reads.length = a.op.needs) : ∀ i < a.op.needs, (a.read i).Later s.tree := by
  intro i hi
  exact h.reads id a ha _ (a.read_mem (hlen ▸ hi))

theorem edits (h : ReadsTracked s) {step : NsStep} {a : Attempt} {tx : Txn}
    (happ : s.applied step = some (a, tx)) : ∀ o ∈ tx.ops, Edit s.tree a.op tx.ops o := by
  obtain ⟨id, now, -, ha, hlen, hplan, -, hcmps⟩ := applied_eq_some happ
  exact edits_plan h.own (h.reads_later ha hlen) hplan hcmps

theorem step (h : ReadsTracked s) {step : NsStep} (hstep : namespaceOps.step s step = some t) :
    ReadsTracked t := by
  refine ⟨?_, reads_step Store.Later.refl hstep (fun _ _ _ _ hx => hx.commit _) h.reads⟩
  cases happ : s.applied step with
  | none =>
    rw [tree_of_not_applied hstep happ]
    exact h.own
  | some x =>
    rw [tree_of_applied hstep happ]
    exact h.own.commit (h.edits happ)

end ReadsTracked

end EtcFS.Namespace
