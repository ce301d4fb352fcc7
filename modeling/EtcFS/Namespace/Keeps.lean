import EtcFS.Namespace.Counts
import EtcFS.Namespace.Plans

/-!
# Every operation on names keeps the counts

The ways to a wrong count are a parent that was not there when it was read, a directory made under a
number with entries, and a count that does not fit.
-/

namespace EtcFS.Namespace

open EtcFS.Core Ipc List Option Core.Store
open Metadata hiding Key Val getInode

def NsOp.recounted (read : Nat → Tree) : NsOp → List (Nat × Tree)
  | .create parent _ new _ => if IsDir new.record then [(parent, read 0)] else []
  | .rmdir parent _ => [(parent, read 2)]
  | .rename r =>
    if isDirectory (read 0) r.ino then [(r.oldParent, read 4), (r.newParent, read 5)] else []
  | .link _ _ _ | .unlink _ _ _ _ | .times _ _ => []

def NsOp.raises : NsOp → List Nat
  | .create parent _ new _ => if IsDir new.record then [parent] else []
  | .link ino _ _ => [ino]
  | .rename r => [r.newParent]
  | .unlink _ _ _ _ | .rmdir _ _ | .times _ _ => []

def NsOp.Regular (s : Tree) (read : Nat → Tree) (op : NsOp) : Prop :=
  (∀ x ∈ op.recounted read, ∀ rec ∈ getInode x.2 x.1, IsDir rec) ∧
    match op with
    | .unlink _ parent name _ => ∀ ino ∈ lookupDirent (read 0) parent name,
        ∀ rec ∈ getInode (read 1) ino, ¬ IsDir rec
    | .rename r => ∀ ino ∈ lookupDirent s r.oldParent r.oldName, ino = r.ino
    | .create _ _ _ _ | .link _ _ _ | .rmdir _ _ | .times _ _ => True

def NsOp.Countable (s : Tree) (read : Nat → Tree) (op : NsOp) : Prop :=
  (∀ x ∈ op.recounted read, getInode x.2 x.1 = none → getInode s x.1 = none) ∧
    (∀ ino ∈ op.raises, ∀ rec ∈ getInode s ino, rec.nlink.toNat + 1 < 2 ^ 32) ∧
    match op with
    | .create parent _ new _ => IsDir new.record → parent ≠ new.record.ino ∧
        ∀ e ∈ entries s, e.parent = new.record.ino → isDirectory s e.ino = false
    | .link _ _ _ | .unlink _ _ _ _ | .rmdir _ _ | .rename _ | .times _ _ => True

instance (s : Tree) (read : Nat → Tree) (op : NsOp) : Decidable (op.Regular s read) :=
  match op with
  | .create .. | .link .. | .unlink .. | .rmdir .. | .rename _ | .times .. =>
    inferInstanceAs (Decidable (_ ∧ _))

instance (s : Tree) (read : Nat → Tree) (op : NsOp) : Decidable (op.Countable s read) :=
  match op with
  | .create .. | .link .. | .unlink .. | .rmdir .. | .rename _ | .times .. =>
    inferInstanceAs (Decidable (_ ∧ _ ∧ _))

def NsOp.Keeps (s t : Tree) (op : NsOp) : Prop :=
  Sound t ∧ ∃ delta died, Recount s t delta op.number died

theorem Recount.congr {s t : Tree} {delta delta' : Nat → Int} {born died : Option Nat}
    (h : Recount s t delta born died) (hd : ∀ j, j ∉ died → delta j = delta' j) :
    Recount s t delta' born died := by
  refine ⟨h.fresh, h.removed, fun j hj rec hrec => ?_, h.only⟩
  rw [← hd j hj]
  exact h.kept j hj rec hrec

theorem lookupDirent_of_get {s : Tree} {p i rev : Nat} {n : String}
    (h : s.get (.dirent p n) = some ⟨i, rev⟩) : lookupDirent s p n = some i := by
  rw [lookupDirent, h, map_some]

theorem ne_parent_of_dirEmpty {s : Tree} {ino parent i : Nat} {name : String}
    (h : s.holds (dirEmpty ino) = true) (hname : lookupDirent s parent name = some i) :
    ino ≠ parent := by
  intro he
  have hnone := holds_rangeAbsent.mp h (.dirent parent name) (by simp [inDirectory, he])
  rw [lookupDirent, hnone] at hname
  cases hname

section

variable {s : Tree} {rec : InodeRecord} {ino : Nat} {now : Time} {ops : List (Op Val)}

theorem inert_unlinkInodeOps (rec : InodeRecord) (now : Time) : Inert (unlinkInodeOps rec now) := by
  rw [unlinkInodeOps]
  cases unlinkInode rec now with
  | some r => simp [Inert, Op.key, Key.aside]
  | none =>
    dsimp only
    split <;> simp [Inert, Op.key, Key.aside]

theorem distinctDeletes_unlinkInodeOps (rec : InodeRecord) (now : Time) :
    DistinctDeletes (unlinkInodeOps rec now) := by
  rw [unlinkInodeOps]
  cases unlinkInode rec now with
  | some r => simp [DistinctDeletes]
  | none =>
    dsimp only
    split <;> simp [DistinctDeletes, Op.key]

theorem effect_unlinkInodeOps_dir (hd : IsDir rec) (hown : rec.ino = ino) (j : Nat) :
    effect (.inode j) (unlinkInodeOps rec now) = if ino = j then some none else none := by
  have hnone : unlinkInode rec now = none := if_pos hd
  rw [unlinkInodeOps, hnone]
  dsimp only
  split <;> simp [hown]

theorem recount_unlink (hrec : getInode s ino = some rec) (hown : rec.ino = ino) (hd : ¬ IsDir rec)
    (hops : ∀ j, effect (.inode j) ops = effect (.inode j) (unlinkInodeOps rec now)) :
    ∃ died, Recount s (s.commit ops) (fun j => if j = ino then -1 else 0) none died ∧
      ∀ j ∈ died, j = ino ∧ rec.nlink.toNat ≤ 1 := by
  by_cases hlink : rec.nlink > 1
  · have hreduced : unlinkInode rec now = some { rec with nlink := rec.nlink - 1, ctime := now } :=
      (if_neg hd).trans (if_pos hlink)
    have hgt : 1 < rec.nlink.toNat := UInt32.lt_iff_toNat_lt.mp hlink
    have hm : Moved (-1) rec { rec with nlink := rec.nlink - 1, ctime := now } := by
      refine ⟨rfl, rfl, ?_⟩
      have hsub : (rec.nlink - 1).toNat = rec.nlink.toNat - 1 :=
        UInt32.toNat_sub_of_le _ _ (UInt32.le_iff_toNat_le.mpr hgt.le)
      simp only [hsub]
      omega
    refine ⟨none, recount_put hrec hm fun j => ?_, by simp⟩
    rw [hops, unlinkInodeOps, hreduced]
    simp [hown]
  · have hgone : unlinkInode rec now = none := (if_neg hd).trans (if_neg hlink)
    have hle : rec.nlink.toNat ≤ 1 := by
      rw [gt_iff_lt, UInt32.lt_iff_toNat_lt] at hlink
      exact Nat.not_lt.mp hlink
    have hdel : Recount s (s.commit ops) (fun _ => 0) none (some ino) := by
      refine recount_delete fun j => ?_
      rw [hops, unlinkInodeOps, hgone]
      dsimp only
      split <;> simp [hown]
    refine ⟨some ino, hdel.congr fun j hj => ?_, fun j hj => ⟨(some.inj hj).symm, hle⟩⟩
    have hne : j ≠ ino := fun he => hj (he ▸ rfl)
    rw [if_neg hne]

end

section

variable {s : Tree} {read : Nat → Tree} {now : Time} {tx : Txn}

variable {parent : Nat} {name : String}

theorem Sound.create_file {new : NewRecord} {extra : CreateExtra} (hs : Sound s)
    (hnew : ¬ IsDir new.record) (hacc : accepts (createOps parent name new extra))
    (hfree : lookupDirent s parent name = none) (hunused : getInode s new.record.ino = none) :
    Sound (s.commit (createOps parent name new extra)) := by
  have hr := recount_create hunused rfl (effect_createOps parent name new extra)
  have hentries := entries_create (A := []) (by rwa [append_nil]) (by simp) hfree
  rw [append_nil] at hentries
  have hborn : getInode (s.commit (createOps parent name new extra)) new.record.ino =
      some new.record := by
    rw [getInode_commit, effect_createOps, if_pos rfl, getD_some]
  exact hs.create (e := ⟨parent, name, new.record.ino⟩) hunused hborn
    (hr.congr fun j _ => by simp [hnew]) (absurd · hnew) (absurd · hnew) hentries

theorem keeps_create {new : NewRecord} {extra : CreateExtra}
    (hs : Sound s) (hread : IsDir new.record → ReadFrom s (read 0))
    (hreg : (NsOp.create parent name new extra).Regular s read)
    (hcount : (NsOp.create parent name new extra).Countable s read)
    (hplan : atomicCreate parent name new extra (read 0) now = .txn tx) (hacc : accepts tx.ops)
    (hcmps : ∀ c ∈ tx.cmps, s.holds c = true) :
    (NsOp.create parent name new extra).Keeps s (s.commit tx.ops) := by
  simp only [atomicCreate] at hplan
  have habsent : ∀ c ∈ [.absent (.dirent parent name), .absent (.inode new.record.ino)],
      c ∈ tx.cmps := by
    split at hplan <;> cases hplan <;> simp
  have hfree : lookupDirent s parent name = none := by
    rw [lookupDirent, holds_absent.mp (hcmps _ (habsent _ (by simp))), map_none]
  have hnone : getInode s new.record.ino = none := by
    rw [getInode, holds_absent.mp (hcmps _ (habsent _ (by simp))), map_none]
  have hr := recount_create hnone rfl (effect_createOps parent name new extra)
  by_cases hd : IsDir new.record
  · rw [if_pos hd] at hplan
    obtain rfl := Plan.txn.inj hplan
    obtain ⟨hself, hempty⟩ := hcount.2.2 hd
    have hmem : (parent, read 0) ∈ (NsOp.create parent name new extra).recounted read := by
      simp [NsOp.recounted, hd]
    have hA : Adjusts s parent 1 (adjustDirNlink (read 0) parent 1 now).ops := by
      refine adjusts (hread hd) (.inl rfl) (hreg.1 _ hmem) (hcount.1 _ hmem) ?_ ?_
      · exact fun _ => hcount.2.1 parent (by simp [NsOp.raises, hd])
      · exact fun c hc => hcmps c (mem_append_right _ hc)
    have hr := hA.recount hr (by rw [effect_createOps, if_neg hself.symm])
    have hborn : getInode (s.commit (createOps parent name new extra ++
        (adjustDirNlink (read 0) parent 1 now).ops)) new.record.ino = some new.record := by
      rw [getInode_commit_append, hA.effect_of_ne hself.symm, getD_none, getInode_commit,
        effect_createOps, if_pos rfl, getD_some]
    exact ⟨hs.create (e := ⟨parent, name, new.record.ino⟩) hnone hborn
      (hr.congr fun j _ => by simp [hd]) (fun _ rec h => (hA.moved rec h).1 (by decide))
      (fun _ => ⟨hself, hempty⟩) (entries_create hacc hA.keys hfree), _, _, hr⟩
  · rw [if_neg hd] at hplan
    obtain rfl := Plan.txn.inj hplan
    exact ⟨hs.create_file hd hacc hfree hnone, _, _, hr⟩

theorem keeps_link {ino : Nat} (hs : Sound s)
    (hread : ReadFrom s (read 0)) (hcount : (NsOp.link ino parent name).Countable s read)
    (hplan : atomicLink ino parent name (read 0) now = .txn tx) (hacc : accepts tx.ops)
    (hcmps : ∀ c ∈ tx.cmps, s.holds c = true) :
    (NsOp.link ino parent name).Keeps s (s.commit tx.ops) := by
  obtain ⟨rec, rev, hget, hdir, rfl⟩ := atomicLink_txn hplan
  have hrec := getInode_of_get (hread.pinned hget (hcmps _ (by simp [inodeUnchanged])))
  have hfree := holds_absent.mp (hcmps (.absent (.dirent parent name)) (by simp))
  have hfits := hcount.2.1 ino (by simp [NsOp.raises]) rec hrec
  have hm : Moved 1 rec { rec with nlink := rec.nlink + 1, ctime := now } := by
    refine ⟨rfl, rfl, ?_⟩
    simp only [UInt32.toNat_add, UInt32.reduceToNat]
    omega
  have hr : Recount s (s.commit [.put (.dirent parent name) ino,
      .put (.inode ino) { rec with nlink := rec.nlink + 1, ctime := now }]) _ none none :=
    recount_put hrec hm (by simp)
  have hacc' : accepts ([.put (.dirent parent name) ino] ++
      [.put (.inode ino) { rec with nlink := rec.nlink + 1, ctime := now }]) := hacc
  have hex := entries_commit_names s hacc' (by simp [Op.key]) (pairwise_singleton _ _)
    (by simp [Inert, Op.key]) (pairwise_singleton _ _)
  refine ⟨Sound.gain (e := ⟨parent, name, ino⟩) hs hrec hdir hr ?_, _, _, hr⟩
  simpa [held_dirent, lookupDirent, hfree, Op.key] using hex

theorem Sound.one_le {ino : Nat} {rec : InodeRecord} (hs : Sound s)
    (hrec : getInode s ino = some rec) (hdir : ¬ IsDir rec)
    (hname : lookupDirent s parent name = some ino) : 1 ≤ rec.nlink.toNat := by
  have hpos : 0 < names (entries s) ino :=
    names_pos (e := ⟨parent, name, ino⟩) (mem_entries.mpr hname)
  rw [hs.nlink ino rec hrec, expectedNlink, if_neg hdir]
  exact hpos

theorem Sound.delete_name {ino : Nat} {rec : InodeRecord}
    {tail : List (Op Val)} {died : Option Nat} (hs : Sound s)
    (hrec : getInode s ino = some rec) (hdir : ¬ IsDir rec)
    (hname : lookupDirent s parent name = some ino)
    (hacc : accepts ([.delete (.dirent parent name)] ++ tail)) (hinert : Inert tail)
    (hdel : DistinctDeletes tail)
    (hr : Recount s (s.commit ([.delete (.dirent parent name)] ++ tail))
      (fun j => if j = ino then -1 else 0) none died)
    (hdied : ∀ j ∈ died, j = ino ∧ rec.nlink.toNat ≤ 1) :
    Sound (s.commit ([.delete (.dirent parent name)] ++ tail)) := by
  have hex := entries_commit_names s hacc (by simp [Op.key]) (pairwise_singleton _ _) hinert hdel
  refine Sound.lose (e := ⟨parent, name, ino⟩) hs hrec hdir hr hdied ?_
  simpa [held_dirent, hname, Op.key] using hex

theorem keeps_unlink {node : NodeID} {heldOpen : Bool}
    (hs : Sound s) (hread : ∀ i < 2, ReadFrom s (read i))
    (hreg : (NsOp.unlink node parent name heldOpen).Regular s read)
    (hplan : atomicUnlink node parent name heldOpen (read 0) (read 1) now = .txn tx)
    (hacc : accepts tx.ops) (hcmps : ∀ c ∈ tx.cmps, s.holds c = true) :
    (NsOp.unlink node parent name heldOpen).Keeps s (s.commit tx.ops) := by
  obtain ⟨ino, direntRev, rec, rev, hdirent, hinode, rfl⟩ := atomicUnlink_txn hplan
  have hrec := getInode_of_get
    ((hread 1 (by decide)).pinned hinode (hcmps _ (by simp [inodeUnchanged])))
  have hname := lookupDirent_of_get ((hread 0 (by decide)).pinned hdirent (hcmps _ (by simp)))
  have hdir := hreg.2 ino (lookupDirent_of_get hdirent) rec (getInode_of_get hinode)
  by_cases horphan : rec.nlink ≤ 1 ∧ ¬ IsDir rec ∧ heldOpen = true
  · rw [if_pos horphan] at hacc ⊢
    have hle : rec.nlink.toNat ≤ 1 := UInt32.le_iff_toNat_le.mp horphan.1
    have hm : Moved (-1) rec { rec with nlink := 0, ctime := now } := by
      refine ⟨rfl, rfl, ?_⟩
      have := hs.one_le hrec hdir hname
      simp only [UInt32.reduceToNat]
      omega
    have hr : Recount s (s.commit ([.delete (.dirent parent name)] ++
        [.put (.inode ino) { rec with nlink := 0, ctime := now },
          .put (.orphan node ino) ()])) _ none none :=
      recount_put hrec hm (by simp)
    refine ⟨hs.delete_name hrec hdir hname hacc (by simp [Inert, Op.key, Key.aside]) ?_ hr
      (by simp), _, _, hr⟩
    exact distinctDeletes_of_puts (by simp [Op.isDelete])
  · rw [if_neg horphan] at hacc ⊢
    have hops : ∀ j, effect (.inode j) ([.delete (.dirent parent name)] ++ unlinkInodeOps rec now) =
          effect (.inode j) (unlinkInodeOps rec now) := by simp
    obtain ⟨died, hr, hdied⟩ := recount_unlink hrec (hs.own ino rec hrec) hdir hops
    exact ⟨hs.delete_name hrec hdir hname hacc (inert_unlinkInodeOps rec now)
      (distinctDeletes_unlinkInodeOps rec now) hr hdied, _, _, hr⟩

theorem keeps_rmdir (hs : Sound s) (hread : ∀ i < 3, ReadFrom s (read i))
    (hreg : (NsOp.rmdir parent name).Regular s read)
    (hcount : (NsOp.rmdir parent name).Countable s read)
    (hplan : atomicRmdir parent name (read 0) (read 1) (read 2) now = .txn tx)
    (hacc : accepts tx.ops) (hcmps : ∀ c ∈ tx.cmps, s.holds c = true) :
    (NsOp.rmdir parent name).Keeps s (s.commit tx.ops) := by
  obtain ⟨ino, direntRev, rec, rev, hdirent, hinode, hdir, rfl⟩ := atomicRmdir_txn hplan
  have hrec := getInode_of_get
    ((hread 1 (by decide)).pinned hinode (hcmps _ (by simp [inodeUnchanged])))
  have hname := lookupDirent_of_get ((hread 0 (by decide)).pinned hdirent (hcmps _ (by simp)))
  have hmem : (parent, read 2) ∈ (NsOp.rmdir parent name).recounted read := by
    simp [NsOp.recounted]
  have hA : Adjusts s parent (-1) (adjustDirNlink (read 2) parent (-1) now).ops := by
    refine adjusts (hread 2 (by decide)) (.inr rfl) (hreg.1 _ hmem) (hcount.1 _ hmem)
      (fun h => by cases h) ?_
    exact fun c hc => hcmps c (mem_append_right _ hc)
  have hself : ino ≠ parent := ne_parent_of_dirEmpty (hcmps _ (by simp)) hname
  have hgone : Recount s (s.commit [.delete (.dirent parent name), .delete (.inode ino)]) _
      none (some ino) := recount_delete (by simp)
  have hr := hA.recount hgone (by simp [hself])
  have hacc' : accepts ([.delete (.dirent parent name)] ++
      ([.delete (.inode ino)] ++ (adjustDirNlink (read 2) parent (-1) now).ops)) := hacc
  have hex := entries_commit_names s hacc' (by simp [Op.key]) (pairwise_singleton _ _)
    (Inert.append (by simp [Inert, Op.key]) hA.inert)
    (DistinctDeletes.append_puts (pairwise_singleton _ _) fun op hop => (hA.keys op hop).2)
  refine ⟨Sound.lose_dir (e := ⟨parent, name, ino⟩) hs hrec hdir
    (hr.congr fun j _ => by simp) (fun rec h => (hA.moved rec h).1 (by decide)) ?_, _, _, hr⟩
  simpa [held_dirent, hname, Op.key] using hex

theorem moved_apply (u : TimeUpdate) (rec : InodeRecord) : Moved 0 rec (u.apply rec) := by
  simp only [TimeUpdate.apply]
  cases u.bump with
  | none => exact ⟨rfl, rfl, by simp⟩
  | some b =>
    dsimp only
    split <;> exact ⟨rfl, rfl, by simp⟩

theorem keeps_times {ino : Nat} {u : TimeUpdate} (hs : Sound s) (hread : ReadFrom s (read 0))
    (hplan : commitInodeTimes ino u (read 0) = .txn tx) (hcmps : ∀ c ∈ tx.cmps, s.holds c = true) :
    (NsOp.times ino u).Keeps s (s.commit tx.ops) := by
  obtain ⟨rec, rev, hget, rfl⟩ := commitInodeTimes_txn hplan
  have hrec := getInode_of_get (hread.pinned hget (hcmps _ (by simp [inodeUnchanged])))
  have hr : Recount s (s.commit [.put (.inode ino) (u.apply rec)]) _ none none :=
    recount_put hrec (moved_apply u rec) (by simp)
  have hnodup : (([.put (.inode ino) (u.apply rec)] : List (Op Val)).map Op.key).Nodup := by
    simp
  have hex := entries_commit s hnodup
  refine ⟨hs.same (hr.congr fun j _ => by simp) ?_, _, _, hr⟩
  simpa [Op.key] using hex

def RenameArgs.old (r : RenameArgs) : Entry := ⟨r.oldParent, r.oldName, r.ino⟩

def RenameArgs.new (r : RenameArgs) : Entry := ⟨r.newParent, r.newName, r.ino⟩

theorem effect_moves (r : RenameArgs) (j : Nat) : effect (.inode j) r.moves = none := by
  simp [RenameArgs.moves]

theorem lookupDirent_rename (s : Tree) (r : RenameArgs) {rest : List (Op Val)}
    (hrest : Inert rest) :
    lookupDirent (s.commit (r.moves ++ rest)) r.newParent r.newName = some r.ino := by
  have hnone : effect (.dirent r.newParent r.newName) rest = none := by
    rw [effect_eq_none_iff]
    intro op hop hk
    rcases hrest op hop with ha | ⟨i, hi⟩
    · rw [hk] at ha
      cases ha
    · rw [hi] at hk
      cases hk
  have heff : effect (.dirent r.newParent r.newName) (r.moves ++ rest) = some (some r.ino) := by
    rw [effect_append, hnone, none_or, RenameArgs.moves, effect, effect, effect_nil,
      Op.effect_put_self, none_or, some_or]
  rw [lookupDirent, get_commit, heff]
  rfl

theorem entries_rename (s : Tree) (r : RenameArgs) {rest : List (Op Val)}
    (hacc : accepts (r.moves ++ rest)) (hrest : Inert rest) (hdel : DistinctDeletes rest)
    (hold : lookupDirent s r.oldParent r.oldName = some r.ino) :
    entries (s.commit (r.moves ++ rest)) +
        ({r.old} + s.held decodeEntry (.dirent r.newParent r.newName)) = entries s + {r.new} := by
  have hex := entries_commit_names s hacc (by simp [RenameArgs.moves, Op.key])
    (by simp [RenameArgs.moves, DistinctDeletes, Op.isDelete]) hrest hdel
  simpa [RenameArgs.moves, RenameArgs.old, RenameArgs.new, Op.key, held_dirent s r.oldParent, hold]
    using hex

theorem adjusts_rename {r : RenameArgs} {victimIsDir : Bool} (hread : ∀ i < 6, ReadFrom s (read i))
    (hreg : (NsOp.rename r).Regular s read) (hcount : (NsOp.rename r).Countable s read)
    (hvictim : victimIsDir = true → isDirectory (read 0) r.ino = true)
    (hcmps : ∀ c ∈ (applyRenameNlink r.oldParent r.newParent (isDirectory (read 0) r.ino)
      victimIsDir (read 4) (read 5) now).cmps, s.holds c = true) :
    ∃ old new, (applyRenameNlink r.oldParent r.newParent (isDirectory (read 0) r.ino)
        victimIsDir (read 4) (read 5) now).ops = old ++ new ∧
      Adjusts s r.oldParent
        (if isDirectory (read 0) r.ino && r.oldParent != r.newParent then -1 else 0) old ∧
      Adjusts s r.newParent
        ((if isDirectory (read 0) r.ino && r.oldParent != r.newParent then 1 else 0) -
          (if victimIsDir then 1 else 0)) new ∧
      (r.oldParent = r.newParent → old = []) := by
  simp only [applyRenameNlink, Txn.append_cmps, mem_append] at hcmps ⊢
  refine ⟨_, _, rfl, ?_, ?_, fun hsame => by simp [hsame]⟩
  · split
    next hmoved =>
      have hdir : isDirectory (read 0) r.ino = true := (Bool.and_eq_true_iff.mp hmoved).1
      have hmem : (r.oldParent, read 4) ∈ (NsOp.rename r).recounted read := by
        simp [NsOp.recounted, hdir]
      refine adjusts (hread 4 (by decide)) (.inr rfl) (hreg.1 _ hmem) (hcount.1 _ hmem)
        (fun h => by cases h) fun c hc => hcmps c (.inl ?_)
      rwa [if_pos hmoved]
    next => exact Adjusts.nothing s _
  · generalize hnd : ((if (isDirectory (read 0) r.ino && r.oldParent != r.newParent) = true then 1
      else 0) - (if victimIsDir = true then 1 else 0) : Int) = newDelta at hcmps ⊢
    by_cases hzero : newDelta = 0
    · subst hzero
      exact Adjusts.nothing s _
    · have hdir : isDirectory (read 0) r.ino = true := by
        cases hv : victimIsDir with
        | true => exact hvictim hv
        | false =>
          rw [hv] at hnd
          by_contra hno
          simp [hno] at hnd
          omega
      have hmem : (r.newParent, read 5) ∈ (NsOp.rename r).recounted read := by
        simp [NsOp.recounted, hdir]
      have hone : newDelta = 1 ∨ newDelta = -1 := by
        rw [← hnd] at hzero ⊢
        split <;> split <;> simp_all
      rw [if_pos hzero]
      refine adjusts (hread 5 (by decide)) hone (hreg.1 _ hmem) (hcount.1 _ hmem)
        (fun _ => hcount.2.1 _ (by simp [NsOp.raises])) fun c hc => hcmps c (.inr ?_)
      rwa [if_pos hzero]

theorem Recount.parents {a old new : List (Op Val)} {d : Nat → Int} {born died : Option Nat}
    {p q : Nat} {dp dq : Int} (hr : Recount s (s.commit a) d born died)
    (hold : Adjusts s p dp old) (hnew : Adjusts s q dq new) (hp : effect (.inode p) a = none)
    (hq : effect (.inode q) a = none) (hsame : p = q → old = []) :
    Recount s (s.commit (a ++ (old ++ new)))
      (fun j => d j + (if j = p then dp else 0) + if j = q then dq else 0) born died := by
  have hq' : effect (.inode q) (a ++ old) = none := by
    rw [effect_append, hq, or_none]
    by_cases hpq : p = q
    · rw [hsame hpq, effect_nil]
    · exact hold.effect_of_ne (Ne.symm hpq)
  have h := hnew.recount (hold.recount hr hp) hq'
  rwa [append_assoc] at h

section

variable {r : RenameArgs} {rec victim : InodeRecord} {old new : List (Op Val)}

theorem rename_free (hs : Sound s) (hrec : getInode s r.ino = some rec)
    (hname : lookupDirent s r.oldParent r.oldName = some r.ino)
    (hfree : lookupDirent s r.newParent r.newName = none)
    (hold : Adjusts s r.oldParent
      (if decide (IsDir rec) && r.oldParent != r.newParent then -1 else 0) old)
    (hnew : Adjusts s r.newParent
      (if decide (IsDir rec) && r.oldParent != r.newParent then 1 else 0) new)
    (hsame : r.oldParent = r.newParent → old = [])
    (hacc : accepts (r.moves ++ (old ++ new))) :
    (NsOp.rename r).Keeps s (s.commit (r.moves ++ (old ++ new))) := by
  have hr := (recount_same (s := s) (effect_moves r)).parents hold hnew (effect_moves r _)
    (effect_moves r _) hsame
  have hputs : ∀ op ∈ old ++ new, op.isDelete = false := by
    intro op hop
    rcases mem_append.mp hop with hop | hop
    · exact (hold.keys op hop).2
    · exact (hnew.keys op hop).2
  have hex := entries_rename s r hacc (hold.inert.append hnew.inert)
    (distinctDeletes_of_puts hputs) hname
  rw [held_dirent, hfree, map_none, getD_none, add_zero] at hex
  refine ⟨hs.move r.old r.new rfl hrec hr (fun j => ?_) ?_ hex, _, _, hr⟩
  · simp only [RenameArgs.old, RenameArgs.new]
    by_cases hd : IsDir rec
    · by_cases hpar : r.oldParent = r.newParent
      · simp [hd, hpar]
        omega
      · simp only [hd, hpar, decide_true, bne_iff_ne, ne_eq, not_false_eq_true, Bool.true_and,
          if_true]
        split <;> split <;> omega
    · simp [hd]
  · intro hd hpar rec' hrec'
    have hne : r.oldParent ≠ r.newParent := hpar
    have hmoved : (decide (IsDir rec) && r.oldParent != r.newParent) = true := by
      simpa [hd] using hne
    rw [if_pos hmoved] at hold hnew
    rcases hrec' with h | h
    · exact (hold.moved rec' h).1 (by decide)
    · exact (hnew.moved rec' h).1 (by decide)

theorem rename_over_file (hs : Sound s) (hrec : getInode s r.ino = some rec) (hd : ¬ IsDir rec)
    (hname : lookupDirent s r.oldParent r.oldName = some r.ino) {ino : Nat}
    (htarget : lookupDirent s r.newParent r.newName = some ino)
    (hvictim : getInode s ino = some victim) (hvd : ¬ IsDir victim)
    (hacc : accepts (r.moves ++ unlinkInodeOps victim now)) :
    (NsOp.rename r).Keeps s (s.commit (r.moves ++ unlinkInodeOps victim now)) := by
  have hops : ∀ j, effect (.inode j) (r.moves ++ unlinkInodeOps victim now) =
      effect (.inode j) (unlinkInodeOps victim now) := fun j => by
    rw [effect_append, effect_moves, or_none]
  obtain ⟨died, hr, hdied⟩ := recount_unlink hvictim (hs.own ino victim hvictim) hvd hops
  have hinert := inert_unlinkInodeOps victim now
  have hex := entries_rename s r hacc hinert (distinctDeletes_unlinkInodeOps victim now) hname
  rw [held_dirent, htarget, map_some, getD_some] at hex
  refine ⟨hs.replace_file r.old ⟨r.newParent, r.newName, ino⟩ r.new rfl hrec hd hvictim hvd hr
    hdied ?_ hex, _, _, hr⟩
  exact mem_entries.mpr (lookupDirent_rename s r hinert)

theorem rename_over_dir (hs : Sound s) (hrec : getInode s r.ino = some rec) (hd : IsDir rec)
    (hname : lookupDirent s r.oldParent r.oldName = some r.ino) {ino : Nat}
    (htarget : lookupDirent s r.newParent r.newName = some ino)
    (hvictim : getInode s ino = some victim) (hvd : IsDir victim)
    (hempty : s.holds (dirEmpty ino) = true)
    (hold : Adjusts s r.oldParent (if r.oldParent != r.newParent then -1 else 0) old)
    (hnew : Adjusts s r.newParent ((if r.oldParent != r.newParent then 1 else 0) - 1) new)
    (hsame : r.oldParent = r.newParent → old = [])
    (hacc : accepts (r.moves ++ (unlinkInodeOps victim now ++ (old ++ new)))) :
    (NsOp.rename r).Keeps s
      (s.commit (r.moves ++ (unlinkInodeOps victim now ++ (old ++ new)))) := by
  have hops : ∀ j, effect (.inode j) (r.moves ++ unlinkInodeOps victim now) =
      if ino = j then some none else none := fun j => by
    rw [effect_append, effect_moves, or_none,
      effect_unlinkInodeOps_dir hvd (hs.own ino victim hvictim)]
  have hr := (recount_delete (s := s) hops).parents hold hnew
    (by rw [hops, if_neg (ne_parent_of_dirEmpty hempty hname)])
    (by rw [hops, if_neg (ne_parent_of_dirEmpty hempty htarget)]) hsame
  rw [append_assoc] at hr
  have hputs : ∀ op ∈ old ++ new, op.isDelete = false := by
    intro op hop
    rcases mem_append.mp hop with hop | hop
    · exact (hold.keys op hop).2
    · exact (hnew.keys op hop).2
  have hinert := (inert_unlinkInodeOps victim now).append (hold.inert.append hnew.inert)
  have hex := entries_rename s r hacc hinert
    ((distinctDeletes_unlinkInodeOps victim now).append_puts hputs) hname
  rw [held_dirent, htarget, map_some, getD_some] at hex
  refine ⟨hs.replace_dir r.old ⟨r.newParent, r.newName, ino⟩ r.new rfl rfl hrec hd hvictim hvd
    (hr.congr fun j _ => ?_) (fun rec' hrec' => ?_)
    (mem_entries.mpr (lookupDirent_rename s r hinert)) hex, _, _, hr⟩
  · change _ = if j = r.oldParent then (-1 : Int) else 0
    by_cases hpar : r.oldParent = r.newParent <;> simp [hpar]
  · by_cases hpar : r.oldParent = r.newParent
    · refine (hnew.moved rec' (hpar ▸ hrec')).1 ?_
      simp [hpar]
    · refine (hold.moved rec' hrec').1 ?_
      simp [hpar]

end

theorem keeps_rename {r : RenameArgs} (hs : Sound s) (hread : ∀ i < 6, ReadFrom s (read i))
    (horder : (read 1).revision ≤ (read 2).revision)
    (hsrc : ∀ rec, getInode s r.ino = some rec → isDirectory (read 0) r.ino = decide (IsDir rec))
    (hreg : (NsOp.rename r).Regular s read) (hcount : (NsOp.rename r).Countable s read)
    (hplan : atomicRename r (read 0) (read 1) (read 2) (read 3) (read 4) (read 5) now = .txn tx)
    (hacc : accepts tx.ops) (hcmps : ∀ c ∈ tx.cmps, s.holds c = true) :
    (NsOp.rename r).Keeps s (s.commit tx.ops) := by
  obtain ⟨target, victimIsDir, htarget, hcs, hos⟩ := atomicRename_txn hplan
  rw [hcs] at hcmps
  rw [hos] at hacc ⊢
  -- the old name is there, and refers to the inode the rename was given
  have hold : lookupDirent s r.oldParent r.oldName = some r.ino := by
    obtain ⟨v, hv⟩ := isSome_iff_exists.mp
      (hcmps (.present (.dirent r.oldParent r.oldName)) (by simp))
    have hv' : lookupDirent s r.oldParent r.oldName = some v.value := by
      rw [lookupDirent, hv, map_some]
    rw [hv', hreg.2 _ hv']
  obtain ⟨rec, hrec⟩ := isSome_iff_exists.mp (hs.named r.old (mem_entries.mpr hold))
  have hdir := hsrc rec hrec
  cases htarget with
  | free _ =>
    have hfree := holds_absent.mp (hcmps (.absent (.dirent r.newParent r.newName)) (by simp))
    obtain ⟨old, new, hops, hOld, hNew, hsame⟩ := adjusts_rename hread hreg hcount
      (by simp) (fun c hc => hcmps c (mem_append_right _ hc))
    simp only [hops, append_nil] at hacc ⊢
    rw [hdir] at hOld hNew
    refine rename_free hs hrec hold ?_ hOld ?_ hsame hacc
    · rw [lookupDirent, hfree, map_none]
    · simpa using hNew
  | dangling ino rev hname hnone =>
    -- the target still refers to the inode it did, so the inode has not been missing
    have hpin := (hread 1 (by decide)).pinned hname (hcmps _ (by simp))
    have hle : rev ≤ (read 2).revision := le_trans (modRevision_le hname) horder
    have hthere := (hread 2 (by decide)).later.get_of_modRevision_le hpin hle
    have hsome := (hread 2 (by decide)).sound.named ⟨r.newParent, r.newName, ino⟩
      (mem_entries.mpr (lookupDirent_of_get hthere))
    rw [getInode, hnone] at hsome
    cases hsome
  | replaced ino rev victim victimRev hname hvictim hkind =>
    have hpin := lookupDirent_of_get ((hread 1 (by decide)).pinned hname (hcmps _ (by simp)))
    have hvrec := getInode_of_get
      ((hread 2 (by decide)).pinned hvictim (hcmps _ (by simp [inodeUnchanged])))
    have hboth : IsDir rec ↔ IsDir victim := decide_eq_decide.mp (hdir.symm.trans hkind)
    by_cases hd : IsDir rec
    · have hvd : IsDir victim := hboth.mp hd
      have hsrcDir : isDirectory (read 0) r.ino = true := by rw [hdir, decide_eq_true hd]
      have hempty : s.holds (dirEmpty ino) = true := hcmps _ (by simp [hvd])
      obtain ⟨old, new, hops, hOld, hNew, hsame⟩ := adjusts_rename hread hreg hcount
        (fun _ => hsrcDir) (fun c hc => hcmps c (mem_append_right _ hc))
      simp only [hops, append_assoc] at hacc ⊢
      simp only [hsrcDir, Bool.true_and, hvd, decide_true, if_true] at hOld hNew
      exact rename_over_dir hs hrec hd hold hpin hvrec hvd hempty hOld hNew hsame hacc
    · have hvd : ¬ IsDir victim := fun h => hd (hboth.mpr h)
      -- neither is a directory, so no parent is recounted
      have hops : (applyRenameNlink r.oldParent r.newParent (isDirectory (read 0) r.ino)
          (IsDir victim) (read 4) (read 5) now).ops = [] := by
        rw [hdir]
        simp [applyRenameNlink, hd, hvd]
      simp only [hops, append_nil] at hacc ⊢
      exact rename_over_file hs hrec hd hold hpin hvrec hvd hacc

theorem keeps_plan {op : NsOp} (hs : Sound s) (hread : ∀ i < op.needs, ReadFrom s (read i))
    (horder : ∀ i j, i ≤ j → j < op.needs → (read i).revision ≤ (read j).revision)
    (hsrc : ∀ ino ∈ op.source, ∀ i < op.needs, ∀ rec, getInode s ino = some rec →
      isDirectory (read i) ino = decide (IsDir rec))
    (hreg : op.Regular s read) (hcount : op.Countable s read)
    (hplan : op.plan read now = .txn tx) (hacc : accepts tx.ops)
    (hcmps : ∀ c ∈ tx.cmps, s.holds c = true) : op.Keeps s (s.commit tx.ops) := by
  cases op with
  | create parent name new extra =>
    refine keeps_create hs (fun hd => hread 0 ?_) hreg hcount hplan hacc hcmps
    simp [NsOp.needs, hd]
  | link ino parent name => exact keeps_link hs (hread 0 Nat.one_pos) hcount hplan hacc hcmps
  | unlink node parent name heldOpen => exact keeps_unlink hs hread hreg hplan hacc hcmps
  | rmdir parent name => exact keeps_rmdir hs hread hreg hcount hplan hacc hcmps
  | rename r =>
    exact keeps_rename hs hread (horder 1 2 (by decide) (by simp [NsOp.needs]))
      (hsrc r.ino rfl 0 (by simp [NsOp.needs])) hreg hcount hplan hacc hcmps
  | times ino u => exact keeps_times hs (hread 0 Nat.one_pos) hplan hcmps

end

end EtcFS.Namespace
