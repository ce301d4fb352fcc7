import EtcFS.Namespace.Atomic

/-!
# The operations keep the link counts

A transaction that commits exchanges some entries for others, and the counts of the records it
rewrites move by what those entries count for.
-/

namespace EtcFS.Namespace

open EtcFS.Core Ipc Option List
open Metadata hiding Key Val getInode

/-! ## What a commit does to records and entries -/

theorem getInode_commit (s : Tree) (ops : List (Op Val)) (ino : Nat) :
    getInode (s.commit ops) ino = (effect (.inode ino) ops).getD (getInode s ino) := by
  rw [getInode, getInode, Store.get_commit]
  cases effect (Key.inode ino) ops with
  | none => rfl
  | some v => cases v <;> rfl

theorem getInode_commit_append (s : Tree) (ops ops' : List (Op Val)) (ino : Nat) :
    getInode (s.commit (ops ++ ops')) ino =
      (effect (.inode ino) ops').getD (getInode (s.commit ops) ino) := by
  rw [getInode_commit, getInode_commit, effect_append]
  cases effect (Key.inode ino) ops' <;> rfl

@[simp] theorem effect_nil {k : Key} : effect k ([] : List (Op Val)) = none := rfl

@[simp] theorem effect_put_inode (i j : Nat) (rec : InodeRecord) (ops : List (Op Val)) :
    effect (.inode j) (.put (.inode i) rec :: ops) =
      (effect (.inode j) ops).or (if i = j then some (some rec) else none) := by
  rw [effect]
  split
  · next h =>
    subst h
    rw [Op.effect_put_self]
  · next h => rw [Op.effect_of_ne (by simpa [Op.key] using h)]

@[simp] theorem effect_delete_inode (i j : Nat) (ops : List (Op Val)) :
    effect (.inode j) (.delete (.inode i) :: ops) =
      (effect (.inode j) ops).or (if i = j then some none else none) := by
  simp [effect, Op.effect]

theorem effect_inode_cons {op : Op Val} (h : ∀ i, op.key ≠ .inode i) (j : Nat)
    (ops : List (Op Val)) : effect (.inode j) (op :: ops) = effect (.inode j) ops := by
  rw [effect, Op.effect_of_ne (h j), or_none]

@[simp] theorem effect_put_dirent (p : Nat) (n : String) (i j : Nat) (ops : List (Op Val)) :
    effect (.inode j) (.put (.dirent p n) i :: ops) = effect (.inode j) ops :=
  effect_inode_cons (fun _ => by simp [Op.key]) j ops

@[simp] theorem effect_delete_dirent (p : Nat) (n : String) (j : Nat) (ops : List (Op Val)) :
    effect (.inode j) (.delete (.dirent p n) :: ops) = effect (.inode j) ops :=
  effect_inode_cons (fun _ => by simp [Op.key]) j ops

@[simp] theorem effect_put_orphan (node : NodeID) (i j : Nat) (u : Unit) (ops : List (Op Val)) :
    effect (.inode j) (.put (.orphan node i) u :: ops) = effect (.inode j) ops :=
  effect_inode_cons (fun _ => by simp [Op.key]) j ops

@[simp] theorem effect_delete_symlink (i j : Nat) (ops : List (Op Val)) :
    effect (.inode j) (.delete (.symlink i) :: ops) = effect (.inode j) ops :=
  effect_inode_cons (fun _ => by simp [Op.key]) j ops

theorem effect_aside {ops : List (Op Val)} (h : ∀ op ∈ ops, op.key.aside = true) (j : Nat) :
    effect (.inode j) ops = none := by
  rw [effect_eq_none_iff]
  intro op hop hk
  have := h op hop
  rw [hk] at this
  cases this

theorem entries_commit (s : Tree) {ops : List (Op Val)} (hn : (ops.map Op.key).Nodup) :
    entries (s.commit ops) + (ops.map fun op => s.held decodeEntry op.key).sum =
      entries s + (ops.map (Op.leaves decodeEntry)).sum :=
  s.contents_commit decodeEntry hn

@[simp] theorem held_inode (s : Tree) (i : Nat) : s.held decodeEntry (.inode i) = 0 := by
  cases h : s.get (.inode i) <;> simp [Store.held, contribution, decodeEntry, h]

theorem held_aside (s : Tree) {k : Key} (h : k.aside = true) : s.held decodeEntry k = 0 := by
  cases k with
  | inode | dirent => cases h
  | symlink | orphan | lock =>
    simp only [Store.held, contribution]
    cases s.get _ <;> rfl

theorem held_dirent (s : Tree) (p : Nat) (n : String) : s.held decodeEntry (.dirent p n) =
      ((lookupDirent s p n).map fun i => ({⟨p, n, i⟩} : Multiset Entry)).getD 0 := by
  cases h : s.get (.dirent p n) <;>
    simp [Store.held, contribution, decodeEntry, lookupDirent, h]

@[simp] theorem leaves_put_inode (i : Nat) (rec : InodeRecord) :
    (Op.put (.inode i) rec : Op Val).leaves decodeEntry = 0 := rfl

@[simp] theorem leaves_put_dirent (p : Nat) (n : String) (i : Nat) :
    (Op.put (.dirent p n) i : Op Val).leaves decodeEntry = {⟨p, n, i⟩} := rfl

@[simp] theorem leaves_delete (k : Key) : (Op.delete k : Op Val).leaves decodeEntry = 0 := rfl

theorem leaves_aside {op : Op Val} (h : op.key.aside = true) : op.leaves decodeEntry = 0 := by
  cases op with
  | delete => rfl
  | put k v =>
    cases k with
    | inode | dirent => cases h
    | symlink | orphan | lock => rfl

def Inert (ops : List (Op Val)) : Prop :=
  ∀ op ∈ ops, op.key.aside = true ∨ ∃ i, op.key = .inode i

theorem Inert.append {ops ops' : List (Op Val)} (h : Inert ops) (h' : Inert ops') :
    Inert (ops ++ ops') := by
  intro op hop
  rcases mem_append.mp hop with hop | hop
  · exact h op hop
  · exact h' op hop

theorem Inert.sum_eq_zero {ops : List (Op Val)} (h : Inert ops) (s : Tree) :
    (ops.map fun op => s.held decodeEntry op.key).sum = 0 ∧
      (ops.map (Op.leaves decodeEntry)).sum = 0 := by
  have hheld : ∀ op ∈ ops, s.held decodeEntry op.key = 0 := by
    intro op hop
    rcases h op hop with ha | ⟨i, hi⟩
    · exact held_aside s ha
    · rw [hi, held_inode]
  have hleaves : ∀ op ∈ ops, op.leaves decodeEntry = 0 := by
    intro op hop
    rcases h op hop with ha | ⟨i, hi⟩
    · exact leaves_aside ha
    · cases op with
      | delete => rfl
      | put k v =>
        obtain rfl : k = .inode i := hi
        rfl
  constructor <;> refine List.sum_eq_zero fun x hx => ?_
  · obtain ⟨op, hop, rfl⟩ := List.mem_map.mp hx
    exact hheld op hop
  · obtain ⟨op, hop, rfl⟩ := List.mem_map.mp hx
    exact hleaves op hop

def DistinctDeletes (ops : List (Op Val)) : Prop :=
  ops.Pairwise fun a b => a.isDelete = true → b.isDelete = true → a.key ≠ b.key

theorem distinctDeletes_of_puts {puts : List (Op Val)} (hp : ∀ op ∈ puts, op.isDelete = false) :
    DistinctDeletes puts := by
  refine pairwise_of_forall_mem_list fun a ha b _ hd => ?_
  rw [hp a ha] at hd
  cases hd

theorem DistinctDeletes.append_puts {ops puts : List (Op Val)} (h : DistinctDeletes ops)
    (hp : ∀ op ∈ puts, op.isDelete = false) : DistinctDeletes (ops ++ puts) := by
  refine pairwise_append.mpr ⟨h, distinctDeletes_of_puts hp, ?_⟩
  intro a _ b hb _ hd
  rw [hp b hb] at hd
  cases hd

theorem nodup_of_accepts {ops : List (Op Val)} (h : accepts ops) (hd : DistinctDeletes ops) :
    (ops.map Op.key).Nodup := by
  rw [List.Nodup, pairwise_map]
  refine (h.and hd).imp ?_
  rintro a b ⟨hab, hne⟩ he
  exact hne (hab he).1 (hab he).2 he

theorem entries_commit_names (s : Tree) {ops rest : List (Op Val)} (hacc : accepts (ops ++ rest))
    (hnames : ∀ op ∈ ops, ∃ p n, op.key = .dirent p n) (hops : DistinctDeletes ops)
    (hrest : Inert rest) (hdel : DistinctDeletes rest) :
    entries (s.commit (ops ++ rest)) + (ops.map fun op => s.held decodeEntry op.key).sum =
      entries s + (ops.map (Op.leaves decodeEntry)).sum := by
  have hnodup : ((ops ++ rest).map Op.key).Nodup := by
    refine nodup_of_accepts hacc (pairwise_append.mpr ⟨hops, hdel, ?_⟩)
    intro a ha b hb _ _ hk
    obtain ⟨p, n, hp⟩ := hnames a ha
    rcases hrest b hb with hb | ⟨i, hi⟩
    · rw [← hk, hp] at hb
      cases hb
    · rw [hp, hi] at hk
      cases hk
  have h := entries_commit s hnodup
  obtain ⟨hheld, hleaves⟩ := hrest.sum_eq_zero s
  rwa [map_append, map_append, sum_append, sum_append, hheld, hleaves,
    add_zero, add_zero] at h

/-! ## How records move -/

theorem Moved.refl (rec : InodeRecord) : Moved 0 rec rec := ⟨rfl, rfl, by omega⟩

section

variable {s : Tree} {ops : List (Op Val)} {i : Nat} {rec : InodeRecord}

theorem recount_same (h : ∀ j, effect (.inode j) ops = none) :
    Recount s (s.commit ops) (fun _ => 0) none none := by
  have hget : ∀ j, getInode (s.commit ops) j = getInode s j := fun j => by
    rw [getInode_commit, h j, getD_none]
  refine ⟨by simp, by simp, fun j _ rec hrec => ?_, fun j _ hnone => by rw [hget, hnone]⟩
  exact ⟨rec, (hget j).trans hrec, Moved.refl rec⟩

theorem recount_put {rec' : InodeRecord} {delta : Int} (hrec : getInode s i = some rec)
    (hm : Moved delta rec rec')
    (h : ∀ j, effect (.inode j) ops = if i = j then some (some rec') else none) :
    Recount s (s.commit ops) (fun j => if j = i then delta else 0) none none := by
  refine ⟨by simp, by simp, fun j _ rec₀ hrec₀ => ?_, fun j _ hnone => ?_⟩
  · rw [getInode_commit, h j]
    by_cases hj : i = j
    · subst hj
      obtain rfl := some.inj (hrec.symm.trans hrec₀)
      exact ⟨rec', by simp, by simpa using hm⟩
    · exact ⟨rec₀, by simpa [hj] using hrec₀, by simpa [Ne.symm hj] using Moved.refl rec₀⟩
  · rw [getInode_commit, h j]
    have hj : i ≠ j := by
      rintro rfl
      rw [hrec] at hnone
      cases hnone
    simpa [hj] using hnone

theorem recount_delete (h : ∀ j, effect (.inode j) ops = if i = j then some none else none) :
    Recount s (s.commit ops) (fun _ => 0) none (some i) := by
  refine ⟨by simp, ?_, fun j hj rec₀ hrec₀ => ?_, fun j _ hnone => ?_⟩
  · intro j hj
    cases hj
    rw [getInode_commit, h i, if_pos rfl, getD_some]
  · have hne : i ≠ j := fun he => hj (he ▸ rfl)
    refine ⟨rec₀, ?_, Moved.refl rec₀⟩
    rw [getInode_commit, h j, if_neg hne, getD_none, hrec₀]
  · rw [getInode_commit, h j]
    split
    · rfl
    · exact hnone

theorem recount_create (hnone : getInode s i = none) (hown : rec.ino = i)
    (h : ∀ j, effect (.inode j) ops = if i = j then some (some rec) else none) :
    Recount s (s.commit ops) (fun _ => 0) (some i) none := by
  refine ⟨?_, by simp, fun j _ rec₀ hrec₀ => ?_, fun j hj hjnone => ?_⟩
  · intro j hj
    cases hj
    refine ⟨hnone, rec, ?_, hown⟩
    rw [getInode_commit, h i, if_pos rfl, getD_some]
  · have hne : i ≠ j := by
      rintro rfl
      rw [hnone] at hrec₀
      cases hrec₀
    refine ⟨rec₀, ?_, Moved.refl rec₀⟩
    rw [getInode_commit, h j, if_neg hne, getD_none, hrec₀]
  · have hne : i ≠ j := fun he => hj (he ▸ rfl)
    rw [getInode_commit, h j, if_neg hne, getD_none, hjnone]

end

structure Adjusts (s : Tree) (p : Nat) (delta : Int) (ops : List (Op Val)) : Prop where
  keys : ∀ op ∈ ops, op.key = .inode p ∧ op.isDelete = false
  moved : ∀ rec, getInode s p = some rec → (delta ≠ 0 → IsDir rec) ∧
    ∃ rec', (effect (.inode p) ops).getD (some rec) = some rec' ∧ Moved delta rec rec'
  missing : getInode s p = none → ops = []

namespace Adjusts

variable {s : Tree} {p : Nat} {delta : Int} {ops : List (Op Val)}

theorem nothing (s : Tree) (p : Nat) : Adjusts s p 0 [] :=
  ⟨by simp, fun rec _ => ⟨by simp, rec, rfl, Moved.refl rec⟩, fun _ => rfl⟩

theorem effect_of_ne (h : Adjusts s p delta ops) {j : Nat} (hj : j ≠ p) :
    effect (.inode j) ops = none := by
  rw [effect_eq_none_iff]
  intro op hop hk
  rw [(h.keys op hop).1] at hk
  exact hj (Key.inode.inj hk).symm

theorem inert (h : Adjusts s p delta ops) : Inert ops :=
  fun op hop => .inr ⟨p, (h.keys op hop).1⟩

theorem recount {a : List (Op Val)} {d : Nat → Int} {born died : Option Nat}
    (h : Adjusts s p delta ops) (hr : Recount s (s.commit a) d born died)
    (hp : effect (.inode p) a = none) :
    Recount s (s.commit (a ++ ops)) (fun j => d j + if j = p then delta else 0) born died := by
  have hsame : getInode (s.commit a) p = getInode s p := by
    rw [getInode_commit, hp, getD_none]
  have hget : ∀ j, j ≠ p → getInode (s.commit (a ++ ops)) j = getInode (s.commit a) j := by
    intro j hj
    rw [getInode_commit_append, h.effect_of_ne hj, getD_none]
  have hgone : getInode s p = none → getInode (s.commit (a ++ ops)) p = none := by
    intro hnone
    rw [getInode_commit_append, h.missing hnone, effect_nil, getD_none, hsame, hnone]
  refine ⟨fun j hj => ?_, fun j hj => ?_, fun j hj rec hrec => ?_, fun j hj hnone => ?_⟩
  · obtain ⟨hnone, rec, hrec, hown⟩ := hr.fresh j hj
    have hne : j ≠ p := by
      rintro rfl
      rw [hsame, hnone] at hrec
      cases hrec
    exact ⟨hnone, rec, (hget j hne).trans hrec, hown⟩
  · by_cases hjp : j = p
    · subst hjp
      exact hgone (hsame.symm.trans (hr.removed j hj))
    · exact (hget j hjp).trans (hr.removed j hj)
  · obtain ⟨rec', hrec', hm⟩ := hr.kept j hj rec hrec
    by_cases hjp : j = p
    · subst hjp
      obtain rfl := some.inj (hrec'.symm.trans (hsame.trans hrec))
      obtain ⟨-, rec'', hrec'', hm'⟩ := h.moved rec' hrec
      refine ⟨rec'', ?_, by simpa using hm.trans hm'⟩
      rw [getInode_commit_append, hsame, hrec, hrec'']
    · exact ⟨rec', (hget j hjp).trans hrec', by simpa [hjp] using hm⟩
  · by_cases hjp : j = p
    · exact hjp ▸ hgone (hjp ▸ hnone)
    · exact (hget j hjp).trans (hr.only j hj hnone)

end Adjusts

structure ReadFrom (s r : Tree) : Prop where
  later : r.Later s
  sound : Sound r

theorem ReadFrom.pinned {s r : Tree} (h : ReadFrom s r) {k : Key} {v : Val k} {rev : Nat}
    (hv : r.get k = some ⟨v, rev⟩) (hpin : s.holds (.modRevisionEq k rev) = true) :
    s.get k = some ⟨v, rev⟩ :=
  h.later.get_of_modRevision_eq hv (Store.holds_modRevisionEq.mp hpin)

theorem getInode_of_get {s : Tree} {i rev : Nat} {rec : InodeRecord}
    (h : s.get (.inode i) = some ⟨rec, rev⟩) : getInode s i = some rec := by
  rw [getInode, h, map_some]

theorem Sound.two_le {s : Tree} (h : Sound s) {p : Nat} {rec : InodeRecord}
    (hrec : getInode s p = some rec) (hd : IsDir rec) : 2 ≤ rec.nlink.toNat := by
  have hn := h.nlink p rec hrec
  have htwo : initialNlink rec.mode = 2 := if_pos hd
  rw [expectedNlink, if_pos hd, htwo] at hn
  rw [hn]
  exact Nat.le_add_right _ _

theorem adjusts {s r : Tree} (hr : ReadFrom s r) {p : Nat} {delta : Int} {now : Time}
    (hdelta : delta = 1 ∨ delta = -1) (hdir : ∀ rec, getInode r p = some rec → IsDir rec)
    (hmissing : getInode r p = none → getInode s p = none)
    (hfits : delta = 1 → ∀ rec, getInode s p = some rec → rec.nlink.toNat + 1 < 2 ^ 32)
    (hpin : ∀ c ∈ (adjustDirNlink r p delta now).cmps, s.holds c = true) :
    Adjusts s p delta (adjustDirNlink r p delta now).ops := by
  cases hget : r.get (.inode p) with
  | none =>
    have hnone : getInode s p = none := hmissing (by rw [getInode, hget, map_none])
    have hops : (adjustDirNlink r p delta now).ops = [] := by
      rw [adjustDirNlink, hget]
    rw [hops]
    refine ⟨by simp, fun rec hrec => ?_, fun _ => rfl⟩
    rw [hnone] at hrec
    cases hrec
  | some v =>
    obtain ⟨rec, rev⟩ := v
    have hread : getInode r p = some rec := getInode_of_get hget
    have htwo := hr.sound.two_le hread (hdir rec hread)
    -- either way the record is put back under the comparison, with its count moved
    obtain ⟨rec', hadj, hino, hmode, hnlink⟩ : ∃ rec' : InodeRecord,
        adjustDirNlink r p delta now = ⟨[inodeUnchanged p rev], [.put (.inode p) rec']⟩ ∧
          rec'.ino = rec.ino ∧ rec'.mode = rec.mode ∧
          rec'.nlink = if delta = 1 then rec.nlink + 1 else rec.nlink - 1 := by
      have hone : (1 : UInt32) ≤ rec.nlink := by
        rw [UInt32.le_iff_toNat_le]
        exact le_trans (by decide) htwo
      rcases hdelta with rfl | rfl
      · refine ⟨{ rec with nlink := rec.nlink + 1, mtime := now, ctime := now }, ?_, rfl, rfl, rfl⟩
        rw [adjustDirNlink, hget]
        rfl
      · refine ⟨{ rec with nlink := rec.nlink - 1, mtime := now, ctime := now }, ?_, rfl, rfl, rfl⟩
        rw [adjustDirNlink, hget]
        simp [hone]
    rw [hadj] at hpin ⊢
    have hnow := getInode_of_get (hr.pinned hget (hpin _ (mem_singleton_self _)))
    refine ⟨by simp [Op.key, Op.isDelete], fun rec₀ hrec₀ => ?_, fun hnone => ?_⟩
    · obtain rfl := some.inj (hnow.symm.trans hrec₀)
      refine ⟨fun _ => hdir _ hread, rec', by simp, hino, hmode, ?_⟩
      rcases hdelta with rfl | rfl
      · have hfit : rec.nlink.toNat + 1 < 2 ^ 32 := hfits rfl _ hnow
        rw [hnlink, if_pos rfl, UInt32.toNat_add]
        simp only [UInt32.reduceToNat]
        omega
      · rw [hnlink, if_neg (by decide), UInt32.toNat_sub_of_le]
        · simp only [UInt32.reduceToNat]
          omega
        · rw [UInt32.le_iff_toNat_le]
          exact le_trans (by decide) htwo
    · rw [hnow] at hnone
      cases hnone

/-! ## The operations, one by one -/

theorem share_singleton (isDir : Nat → Bool) (e : Entry) (ino : Nat) : share isDir {e} ino =
      if isDir ino then (if e.parent = ino ∧ isDir e.ino then 1 else 0)
      else (if e.ino = ino then 1 else 0) := by
  simp only [share, names_singleton, subdirs_singleton]

@[simp] theorem share_zero (isDir : Nat → Bool) (ino : Nat) : share isDir 0 ino = 0 := by
  simp [share]

section

variable {s : Tree} {A : List (Op Val)} {parent ino : Nat} {name : String}

def createOps (parent : Nat) (name : String) (new : NewRecord) (extra : CreateExtra) :
    List (Op Val) :=
  [.put (.dirent parent name) new.record.ino, .put (.inode new.record.ino) new.record] ++ extra.ops

theorem effect_createOps (parent : Nat) (name : String) (new : NewRecord) (extra : CreateExtra)
    (j : Nat) : effect (.inode j) (createOps parent name new extra) =
      if new.record.ino = j then some (some new.record) else none := by
  have hextra := effect_aside (fun op hop => (extra.outside op hop).1) j
  simp only [createOps, effect_append, hextra, none_or, effect_put_dirent,
    effect_put_inode, effect_nil]

variable {extra : CreateExtra}

theorem entries_create {new : NewRecord} (hacc : accepts (createOps parent name new extra ++ A))
    (hA : ∀ op ∈ A, op.key = .inode parent ∧ op.isDelete = false)
    (hfree : lookupDirent s parent name = none) :
    entries (s.commit (createOps parent name new extra ++ A)) =
      entries s + {⟨parent, name, new.record.ino⟩} := by
  have hputs : ∀ op ∈ Op.put (.inode new.record.ino) new.record :: (extra.ops ++ A),
      (op.key.aside = true ∨ ∃ i, op.key = .inode i) ∧ op.isDelete = false := by
    intro op hop
    rcases mem_cons.mp hop with rfl | hop
    · exact ⟨.inr ⟨_, rfl⟩, rfl⟩
    · rcases mem_append.mp hop with hop | hop
      · exact ⟨.inl (extra.outside op hop).1, (extra.outside op hop).2⟩
      · exact ⟨.inr ⟨parent, (hA op hop).1⟩, (hA op hop).2⟩
  have hsplit : createOps parent name new extra ++ A =
      [.put (.dirent parent name) new.record.ino] ++
        (.put (.inode new.record.ino) new.record :: (extra.ops ++ A)) := by
    simp [createOps]
  rw [hsplit] at hacc ⊢
  have hex := entries_commit_names s hacc (by simp [Op.key]) (pairwise_singleton _ _)
    (fun op hop => (hputs op hop).1)
    (distinctDeletes_of_puts fun op hop => (hputs op hop).2)
  simpa [held_dirent, hfree, Op.key] using hex

end

/-! ## The kinds of exchange -/

section

variable {s t : Tree} {e : Entry} {rec : InodeRecord}

theorem Sound.create (hs : Sound s) {new : NewRecord} (hunused : getInode s e.ino = none)
    (hborn : getInode t e.ino = some new.record)
    (hr : Recount s t (fun j => if IsDir new.record ∧ j = e.parent then 1 else 0) (some e.ino) none)
    (hparent : IsDir new.record → ∀ rec, getInode s e.parent = some rec → IsDir rec)
    (hempty : IsDir new.record → e.parent ≠ e.ino ∧
      ∀ e' ∈ entries s, e'.parent = e.ino → isDirectory s e'.ino = false)
    (he : entries t = entries s + {e}) : Sound t := by
  have hkind : eitherDir s t e.ino = decide (IsDir new.record) := hr.types_after _ _ hborn
  refine hs.exchange 0 {e} ⟨by rw [he, add_zero], hr, ?_, ?_, by simp, ?_, ?_⟩
  · intro j hj _
    obtain ⟨rec, hrecj⟩ := isSome_iff_exists.mp hj
    have hne : e.ino ≠ j := by
      rintro rfl
      rw [hunused] at hj
      cases hj
    by_cases hd : IsDir new.record ∧ j = e.parent
    · obtain ⟨hd, rfl⟩ := hd
      have hdir := hr.types_before _ rec hrecj
      rw [decide_eq_true (hparent hd rec hrecj)] at hdir
      simp [share_singleton, hkind, hd, hdir]
    · rw [if_neg hd, share_singleton, hkind]
      simp only [not_and] at hd
      simp [hne]
      grind
  · intro j hj rec hget
    cases hj
    obtain rfl := some.inj (hborn.symm.trans hget)
    rw [new.initial, share, hkind, he, names_add, subdirs_add, hs.names_eq_zero hunused]
    by_cases hd : IsDir new.record
    · have hnone : subdirs (eitherDir s t) (entries s) e.ino = 0 := by
        refine Multiset.countP_eq_zero.mpr ?_
        rintro e' he' ⟨hpar, hdir⟩
        rw [hr.types_before.eq_isDirectory (hs.named e' he'), (hempty hd).2 e' he' hpar] at hdir
        cases hdir
      have htwo : initialNlink new.record.mode = 2 := if_pos hd
      simp [htwo, hd, hnone, (hempty hd).1]
    · have hone : initialNlink new.record.mode = 1 := if_neg hd
      simp [hone, hd]
  · simp [hborn]
  · intro j _
    rw [names_singleton]
    simp

theorem Sound.same (hs : Sound s) (hr : Recount s t (fun _ => 0) none none)
    (he : entries t = entries s) : Sound t := by
  exact hs.exchange 0 0 ⟨by rw [he], hr, by simp, by simp, by simp, by simp, by simp⟩

theorem Sound.gain (hs : Sound s) (hrec : getInode s e.ino = some rec) (hdir : ¬ IsDir rec)
    (hr : Recount s t (fun j => if j = e.ino then 1 else 0) none none)
    (he : entries t = entries s + {e}) : Sound t := by
  have hkind : eitherDir s t e.ino = false := by
    rw [hr.types_before _ _ hrec, decide_eq_false hdir]
  refine hs.exchange 0 {e} ⟨by rw [he, add_zero], hr, ?_, by simp, by simp, ?_, ?_⟩
  · intro j _ _
    by_cases hj : j = e.ino
    · simp [hj, share_singleton, hkind]
    · simp [hj, share_singleton, hkind, Ne.symm hj]
  · obtain ⟨rec', hrec', -⟩ := hr.kept e.ino (by simp) rec hrec
    simp [hrec']
  · intro j hj
    have hbefore := hr.isDirectory_before (by simp) hj
    have hne : e.ino ≠ j := by
      rintro rfl
      rw [isDirectory_of_get hrec, decide_eq_false hdir] at hbefore
      cases hbefore
    simp [hne]

theorem Sound.lose (hs : Sound s) (hrec : getInode s e.ino = some rec) (hdir : ¬ IsDir rec)
    {died : Option Nat} (hr : Recount s t (fun j => if j = e.ino then -1 else 0) none died)
    (hdied : ∀ j ∈ died, j = e.ino ∧ rec.nlink.toNat ≤ 1) (he : entries t + {e} = entries s) :
    Sound t := by
  have hkind : eitherDir s t e.ino = false := by
    rw [hr.types_before _ _ hrec, decide_eq_false hdir]
  have hcount : rec.nlink.toNat = names (entries s) e.ino := by
    rw [hs.nlink _ _ hrec, expectedNlink, if_neg hdir]
  refine hs.exchange {e} 0 ⟨by rw [he, add_zero], hr, ?_, by simp, ?_, by simp, by simp⟩
  · intro j _ _
    by_cases hj : j = e.ino
    · simp [hj, share_singleton, hkind]
    · simp [hj, share_singleton, hkind, Ne.symm hj]
  · intro j hj
    obtain ⟨rfl, hle⟩ := hdied j hj
    simpa [← hcount] using hle

theorem Sound.lose_dir (hs : Sound s) (hrec : getInode s e.ino = some rec) (hdir : IsDir rec)
    (hr : Recount s t (fun j => if j = e.parent then -1 else 0) none (some e.ino))
    (hparent : ∀ rec, getInode s e.parent = some rec → IsDir rec)
    (he : entries t + {e} = entries s) : Sound t := by
  have hkind : eitherDir s t e.ino = true := by
    rw [hr.types_before _ _ hrec, decide_eq_true hdir]
  refine hs.exchange {e} 0 ⟨by rw [he, add_zero], hr, ?_, by simp, ?_, by simp, by simp⟩
  · intro j hj hjd
    obtain ⟨recj, hrecj⟩ := isSome_iff_exists.mp hj
    have hne : e.ino ≠ j := by simpa using hjd
    by_cases hjp : j = e.parent
    · subst hjp
      have hkp := hr.types_before _ _ hrecj
      rw [decide_eq_true (hparent recj hrecj)] at hkp
      simp [share_singleton, hkind, hkp]
    · simp [share_singleton, hkind, hne, hjp, Ne.symm hjp]
  · intro j hj
    cases hj
    simpa using hs.once e.ino (isDirectory_eq_true.mpr ⟨rec, hrec, hdir⟩)

theorem Sound.move (hs : Sound s) (old new : Entry) (hino : new.ino = old.ino)
    (hrec : getInode s old.ino = some rec) {delta : Nat → Int}
    (hr : Recount s t delta none none)
    (hdelta : ∀ j, delta j = if IsDir rec then
      (if j = new.parent then 1 else 0) - (if j = old.parent then 1 else 0) else 0)
    (hparents : IsDir rec → old.parent ≠ new.parent →
      ∀ rec, getInode s old.parent = some rec ∨ getInode s new.parent = some rec → IsDir rec)
    (he : entries t + {old} = entries s + {new}) : Sound t := by
  have hkind : eitherDir s t old.ino = decide (IsDir rec) := hr.types_before _ _ hrec
  refine hs.exchange {old} {new} ⟨he, hr, ?_, by simp, by simp, ?_, ?_⟩
  · intro j hj _
    obtain ⟨recj, hrecj⟩ := isSome_iff_exists.mp hj
    have hkj := hr.types_before _ _ hrecj
    rw [hdelta, share_singleton, share_singleton, hino, hkind]
    by_cases hd : IsDir rec
    · by_cases hsame : old.parent = new.parent
      · simp [hd, hsame]
      · by_cases hj : j = old.parent ∨ j = new.parent
        · -- a parent that is recounted is a directory
          have hdj : IsDir recj := by
            refine hparents hd hsame recj ?_
            rcases hj with rfl | rfl
            · exact .inl hrecj
            · exact .inr hrecj
          rw [decide_eq_true hdj] at hkj
          simp only [hkj, hd, decide_true, and_true, if_true, eq_comm]
          push_cast
          omega
        · rw [not_or] at hj
          simp [hd, hj.1, hj.2, Ne.symm hj.1, Ne.symm hj.2]
    · simp [hd]
  · obtain ⟨rec', hrec', -⟩ := hr.kept old.ino (by simp) rec hrec
    simp [hino, hrec']
  · intro j _
    simp [names_singleton, hino]

/-- A name takes the place of another, whose inode may go if it was its last. -/
theorem Sound.replace (hs : Sound s) (old target new : Entry) {delta : Nat → Int}
    {died : Option Nat} (hino : new.ino = old.ino) (hrec : getInode s old.ino = some rec)
    (hr : Recount s t delta none died)
    (hbalance : ∀ j, (getInode s j).isSome → j ∉ died → (share (eitherDir s t) {new} j : Int) =
      share (eitherDir s t) ({old} + {target}) j + delta j)
    (hlast : ∀ j ∈ died, j = target.ino ∧ names (entries s) j ≤ 1) (hnew : new ∈ entries t)
    (he : entries t + ({old} + {target}) = entries s + {new}) : Sound t := by
  have hcount : names (entries t) old.ino + names ({old} + {target}) old.ino =
      names (entries s) old.ino + names {new} old.ino := by
    rw [← names_add, he, names_add]
  refine hs.exchange ({old} + {target}) {new} ⟨he, hr, hbalance, by simp, ?_, ?_, ?_⟩
  · intro j hj
    obtain ⟨rfl, hle⟩ := hlast j hj
    simp only [names_add, names_singleton, hino, if_true]
    omega
  · intro e hmem
    obtain rfl := Multiset.mem_singleton.mp hmem
    -- the new name is there beside the two that go, so it was not the last
    have halive : old.ino ∉ died := by
      intro hd
      obtain ⟨heq, hle⟩ := hlast old.ino hd
      have hpos := hino ▸ names_pos hnew
      simp only [names_add, names_singleton, hino, ← heq, if_true] at hcount
      omega
    obtain ⟨rec', hrec', -⟩ := hr.kept old.ino halive rec hrec
    simp [hino, hrec']
  · intro j _
    simp only [names_add, names_singleton, hino]
    omega

theorem Sound.replace_file (hs : Sound s) (old target new : Entry) {victim : InodeRecord}
    {died : Option Nat} (hino : new.ino = old.ino) (hrec : getInode s old.ino = some rec)
    (hdir : ¬ IsDir rec) (hvictim : getInode s target.ino = some victim) (hvdir : ¬ IsDir victim)
    (hr : Recount s t (fun j => if j = target.ino then -1 else 0) none died)
    (hdied : ∀ j ∈ died, j = target.ino ∧ victim.nlink.toNat ≤ 1) (hnew : new ∈ entries t)
    (he : entries t + ({old} + {target}) = entries s + {new}) : Sound t := by
  have hkind : eitherDir s t old.ino = false := by
    rw [hr.types_before _ _ hrec, decide_eq_false hdir]
  have hvkind : eitherDir s t target.ino = false := by
    rw [hr.types_before _ _ hvictim, decide_eq_false hvdir]
  refine hs.replace old target new hino hrec hr (fun j _ _ => ?_) (fun j hj => ?_) hnew he
  · rw [share_add, share_singleton, share_singleton, share_singleton, hino, hkind, hvkind]
    by_cases hj : j = target.ino
    · simp [hj, hvkind]
    · simp [hj, Ne.symm hj]
  · obtain ⟨rfl, hle⟩ := hdied j hj
    rw [hs.nlink _ _ hvictim, expectedNlink, if_neg hvdir] at hle
    exact ⟨rfl, hle⟩

theorem Sound.replace_dir (hs : Sound s) (old target new : Entry) {victim : InodeRecord}
    (hino : new.ino = old.ino) (hparent : target.parent = new.parent)
    (hrec : getInode s old.ino = some rec) (hdir : IsDir rec)
    (hvictim : getInode s target.ino = some victim) (hvdir : IsDir victim)
    (hr : Recount s t (fun j => if j = old.parent then -1 else 0) none (some target.ino))
    (hold : ∀ rec, getInode s old.parent = some rec → IsDir rec) (hnew : new ∈ entries t)
    (he : entries t + ({old} + {target}) = entries s + {new}) : Sound t := by
  have hkind : eitherDir s t old.ino = true := by
    rw [hr.types_before _ _ hrec, decide_eq_true hdir]
  have hvkind : eitherDir s t target.ino = true := by
    rw [hr.types_before _ _ hvictim, decide_eq_true hvdir]
  refine hs.replace old target new hino hrec hr (fun j hj hjd => ?_) (fun j hj => ?_) hnew he
  · obtain ⟨recj, hrecj⟩ := isSome_iff_exists.mp hj
    have hkj := hr.types_before _ _ hrecj
    have hne : target.ino ≠ j := by simpa using hjd
    rw [share_add, share_singleton, share_singleton, share_singleton, hino, hkind, hvkind, hparent]
    by_cases hjp : j = old.parent
    · subst hjp
      rw [decide_eq_true (hold recj hrecj)] at hkj
      simp [hkj]
    · cases eitherDir s t j <;> simp [hjp, hne, Ne.symm hjp]
  · cases hj
    exact ⟨rfl, hs.once target.ino (isDirectory_eq_true.mpr ⟨victim, hvictim, hvdir⟩)⟩

end

end EtcFS.Namespace
