import EtcFS.Metadata.Keys

/-!
# Listing a directory page by page

The directory is listed and cut, or a page is read from the name the last reply ended with. A
character of a name stands for a byte.
-/

namespace EtcFS.Ipc

open EtcFS.Core Metadata List Option

structure DirentEntry where
  name : Text
  ino : Nat
  deriving DecidableEq, Repr

structure Directory where
  entries : List DirentEntry
  sorted : entries.Pairwise fun a b => before a.name b.name = true
  named : ∀ e ∈ entries, e.name ≠ []

def entryKey (parent : Nat) (name : Text) : Text := numberedKey prefixDirent parent name

def extractNameFromKey (key : Text) (parent : Nat) : Text :=
  if (direntPrefix parent).length < key.length then key.drop (direntPrefix parent).length else key

def Directory.keys (d : Directory) (parent : Nat) (p : Text → Bool) : List (Text × Nat) :=
  (d.entries.map fun e => (entryKey parent e.name, e.ino)).filter fun kv => p kv.1

def listed (parent : Nat) (kvs : List (Text × Nat)) : List DirentEntry :=
  kvs.map fun kv => ⟨extractNameFromKey kv.1 parent, kv.2⟩

def Directory.listDirents (d : Directory) (parent : Nat) : List DirentEntry :=
  listed parent (d.keys parent fun _ => true)

def Directory.listDirentsAfter (d : Directory) (parent : Nat) (after : Text) (limit : Nat) :
    List DirentEntry :=
  let start := if after.isEmpty then direntPrefix parent else entryKey parent after ++ ['\x00']
  let kvs := d.keys parent fun key => !before key start
  listed parent (if 0 < limit then kvs.take limit else kvs)

def minDirentCost (plus : Bool) : Nat := if plus then 24 + 8 + 128 else 24 + 8

def pageLimit (size : Nat) (plus : Bool) : Nat :=
  if size = 0 then 0
  else if 0 < size / minDirentCost plus then size / minDirentCost plus
  else 1

def direntCost (plus : Bool) (e : DirentEntry) : Nat :=
  let cost := 24 + (e.name.length + 7) / 8 * 8
  if plus then cost + 128 else cost

def fitting (plus : Bool) : Int → List DirentEntry → List DirentEntry
  | _, [] => []
  | budget, e :: entries =>
    if budget - direntCost plus e < 0 then []
    else e :: fitting plus (budget - direntCost plus e) entries

def truncateToBuffer (entries : List DirentEntry) (size : Nat) (plus : Bool) :
    List DirentEntry :=
  if size = 0 then entries
  else
    match fitting plus size entries with
    | [] => entries.take 1
    | page => page

structure DirCursor where
  offset : Nat
  name : Text
  used : Time
  deriving DecidableEq, Repr

def dirCursorMax : Nat := 1024

def dirCursorTTL : Time := 60 * 1000000000

abbrev DirCursors := AList fun _ : Nat => DirCursor

namespace DirCursors

def resumeAt (c : DirCursors) (ino offset : Nat) (now : Time) : Option Text × DirCursors :=
  if offset = 0 then (none, c)
  else
    match c.lookup ino with
    | none => (none, c)
    | some cur =>
      if cur.offset ≠ offset ∨ dirCursorTTL < now - cur.used then (none, c)
      else (some cur.name, c.insert ino { cur with used := now })

def oldest : List (Sigma fun _ : Nat => DirCursor) → Option (Nat × Time) :=
  foldl (fun found x =>
    match found with
    | none => some (x.1, x.2.used)
    | some (ino, used) => if x.2.used < used then some (x.1, x.2.used) else some (ino, used)) none

def evictOldest (c : DirCursors) : DirCursors :=
  match oldest c.entries with
  | none => c
  | some (ino, _) => c.erase ino

def record (c : DirCursors) (ino offset : Nat) (name : Text) (now : Time) : DirCursors :=
  if name.isEmpty then c
  else
    let c := if dirCursorMax ≤ c.entries.length ∧ ino ∉ c then c.evictOldest else c
    c.insert ino ⟨offset, name, now⟩

end DirCursors

def readPage (d : Directory) (after : Option Text) (ino offset size : Nat) (plus : Bool) :
    List DirentEntry :=
  match after with
  | some after => truncateToBuffer (d.listDirentsAfter ino after (pageLimit size plus)) size plus
  | none =>
    let all := d.listDirents ino
    truncateToBuffer (if all.length ≤ offset then [] else all.drop offset) size plus

def rescanPage (d : Directory) (ino offset size : Nat) (plus : Bool) : List DirentEntry :=
  readPage d none ino offset size plus

def DirCursors.note (c : DirCursors) (ino offset : Nat) (page : List DirentEntry) (now : Time) :
    DirCursors :=
  match page.getLast? with
  | some last => c.record ino (offset + page.length) last.name now
  | none => c

def direntPage (d : Directory) (c : DirCursors) (ino offset size : Nat) (plus : Bool)
    (now later : Time) : List DirentEntry × DirCursors :=
  let (after, c) := c.resumeAt ino offset now
  let page := readPage d after ino offset size plus
  (page, c.note ino offset page later)

/-! ## What fits -/

section

variable {plus : Bool} {entries : List DirentEntry} {size : Nat}

theorem minDirentCost_le {e : DirentEntry} (h : e.name ≠ []) :
    minDirentCost plus ≤ direntCost plus e := by
  have hlen := length_pos_iff.mpr h
  simp only [minDirentCost, direntCost]
  split <;> omega

theorem minDirentCost_pos (plus : Bool) : 0 < minDirentCost plus := by
  cases plus <;> decide

theorem fitting_take (hnamed : ∀ e ∈ entries, e.name ≠ []) {n : Nat} {budget : Int}
    (hbudget : budget < (n + 1) * minDirentCost plus) :
    fitting plus budget (entries.take n) = fitting plus budget entries := by
  induction entries generalizing n budget with
  | nil => rw [take_nil]
  | cons e entries ih =>
    obtain ⟨he, hrest⟩ := forall_mem_cons.mp hnamed
    have hcost : (minDirentCost plus : Int) ≤ direntCost plus e :=
      Int.ofNat_le.mpr (minDirentCost_le he)
    cases n with
    | zero =>
      rw [take_zero, fitting, fitting, if_pos]
      simp only [Nat.cast_zero, Int.zero_add, Int.one_mul] at hbudget
      omega
    | succ n =>
      rw [take_succ_cons, fitting, fitting, ih hrest]
      rw [Int.add_mul, Int.one_mul] at hbudget ⊢
      push_cast at hbudget
      rw [Int.add_mul, Int.one_mul] at hbudget
      omega

theorem fitting_ne_nil {budget : Int} (h : fitting plus budget entries ≠ []) : entries ≠ [] := by
  rintro rfl
  exact h rfl

theorem truncateToBuffer_take (hnamed : ∀ e ∈ entries, e.name ≠ []) (hsize : size ≠ 0) :
    truncateToBuffer (entries.take (pageLimit size plus)) size plus =
      truncateToBuffer entries size plus := by
  have hpos := minDirentCost_pos plus
  have hlimit : size < (pageLimit size plus + 1) * minDirentCost plus := by
    have hdiv := Nat.lt_div_mul_add (a := size) hpos
    rw [pageLimit, if_neg hsize]
    split
    · rw [Nat.add_mul, Nat.one_mul]
      omega
    · rename_i hzero
      have hlt := (Nat.div_eq_zero_iff.mp (Nat.eq_zero_of_not_pos hzero)).resolve_left
        (Nat.ne_of_gt hpos)
      omega
  have hone : 1 ≤ pageLimit size plus := by
    rw [pageLimit, if_neg hsize]
    split
    · assumption
    · exact Nat.le_refl _
  have hbudget : (size : Int) < (pageLimit size plus + 1) * minDirentCost plus := by
    exact_mod_cast hlimit
  rw [truncateToBuffer, truncateToBuffer, if_neg hsize, if_neg hsize,
    fitting_take hnamed hbudget, take_take, Nat.min_eq_left hone]

theorem truncateToBuffer_prefix : truncateToBuffer entries size plus <+: entries := by
  have hfit : ∀ budget : Int, fitting plus budget entries <+: entries := by
    induction entries with
    | nil => exact fun _ => prefix_rfl
    | cons e entries ih =>
      intro budget
      rw [fitting]
      split
      · exact nil_prefix
      · exact cons_prefix_cons.mpr ⟨rfl, ih _⟩
  rw [truncateToBuffer]
  split
  · exact prefix_rfl
  · split
    · exact take_prefix _ _
    · exact hfit size

theorem truncateToBuffer_eq_nil_iff : truncateToBuffer entries size plus = [] ↔ entries = [] := by
  rw [truncateToBuffer]
  split
  · exact Iff.rfl
  · cases hfit : fitting plus size entries with
    | nil => exact (take_eq_nil_iff).trans (or_iff_right Nat.one_ne_zero)
    | cons e page =>
      have hne : fitting plus size entries ≠ [] := by
        rw [hfit]
        exact cons_ne_nil _ _
      exact iff_of_false (cons_ne_nil _ _) (fitting_ne_nil hne)

end

/-! ## Reading on from a name -/

section

variable {d : Directory} {parent offset size : Nat} {plus : Bool} {e : DirentEntry}

theorem entryKey_eq (parent : Nat) (name : Text) :
    entryKey parent name = direntPrefix parent ++ name := by
  simp only [entryKey, numberedKey, direntPrefix, numberedPrefix, append_assoc,
    cons_append, nil_append]

theorem extractNameFromKey_entryKey {name : Text} (h : name ≠ []) :
    extractNameFromKey (entryKey parent name) parent = name := by
  have hlen := length_pos_iff.mpr h
  rw [extractNameFromKey, entryKey_eq, if_pos (by rw [length_append]; omega), drop_left]

theorem listed_keys (d : Directory) (parent : Nat) (p : Text → Bool) :
    listed parent (d.keys parent p) = d.entries.filter fun e => p (entryKey parent e.name) := by
  rw [listed, Directory.keys, List.filter_map, List.map_map]
  refine (map_congr_left fun e he => ?_).trans (List.map_id _)
  have hname := d.named e (mem_of_mem_filter he)
  show DirentEntry.mk (extractNameFromKey (entryKey parent e.name) parent) e.ino = e
  rw [extractNameFromKey_entryKey hname]

theorem listDirents_eq (d : Directory) (parent : Nat) : d.listDirents parent = d.entries := by
  rw [Directory.listDirents, listed_keys, filter_true]

theorem rescanPage_eq (d : Directory) (ino offset size : Nat) (plus : Bool) :
    rescanPage d ino offset size plus = truncateToBuffer (d.entries.drop offset) size plus := by
  simp only [rescanPage, readPage, listDirents_eq]
  split
  · rename_i hend
    rw [drop_eq_nil_of_le hend]
  · rfl

theorem not_before_entryKey_iff {after name : Text} :
    ¬ before (entryKey parent name) (entryKey parent after ++ ['\x00']) = true ↔
      before after name = true := by
  rw [entryKey_eq, entryKey_eq, append_assoc, before_append]
  exact not_before_snoc_zero

theorem filter_after (h : d.entries[offset]? = some e) :
    d.entries.filter (fun x => before e.name x.name) = d.entries.drop (offset + 1) := by
  obtain ⟨hlt, he⟩ := List.getElem?_eq_some_iff.mp h
  have htake : ∀ x ∈ d.entries.take (offset + 1), ¬ before e.name x.name = true := by
    intro x hx hbefore
    obtain ⟨i, hi, rfl⟩ := mem_take_iff_getElem.mp hx
    rcases Nat.lt_or_ge i offset with hio | hio
    · have hi : i < d.entries.length := Nat.lt_trans hio hlt
      have hx := pairwise_iff_getElem.mp d.sorted i offset hi hlt hio
      rw [he] at hx
      exact before_asymm hbefore hx
    · have heq : i = offset := by omega
      subst heq
      rw [he] at hbefore
      exact not_before_self _ hbefore
  have hdrop : ∀ x ∈ d.entries.drop (offset + 1), before e.name x.name = true := by
    intro x hx
    obtain ⟨i, hi, rfl⟩ := mem_drop_iff_getElem.mp hx
    rw [← he]
    exact pairwise_iff_getElem.mp d.sorted offset _ hlt _ (by omega)
  calc d.entries.filter (fun x => before e.name x.name)
      = (d.entries.take (offset + 1) ++ d.entries.drop (offset + 1)).filter
          (fun x => before e.name x.name) := by rw [take_append_drop]
    _ = d.entries.drop (offset + 1) := by
        rw [filter_append, filter_eq_nil_iff.mpr htake, filter_eq_self.mpr hdrop, nil_append]

theorem readPage_resumed (h : d.entries[offset]? = some e) :
    readPage d (some e.name) parent (offset + 1) size plus =
      rescanPage d parent (offset + 1) size plus := by
  have hname : e.name.isEmpty = false :=
    isEmpty_eq_false_iff.mpr (d.named e (mem_of_getElem? h))
  have hnamed : ∀ x ∈ d.entries.drop (offset + 1), x.name ≠ [] := fun x hx =>
    d.named x (mem_of_mem_drop hx)
  have hfound : listed parent (d.keys parent fun key =>
      !before key (entryKey parent e.name ++ ['\x00'])) = d.entries.drop (offset + 1) := by
    rw [listed_keys, ← filter_after h]
    refine filter_congr fun x _ => Bool.eq_iff_iff.mpr ?_
    rw [Bool.not_eq_true', ← Bool.not_eq_true]
    exact not_before_entryKey_iff
  rw [rescanPage_eq, readPage, Directory.listDirentsAfter]
  simp only [hname, Bool.false_eq_true, if_false]
  by_cases hsize : size = 0
  · have hlimit : ¬ 0 < pageLimit size plus := by simp [pageLimit, hsize]
    rw [if_neg hlimit, hfound]
  · by_cases hlimit : 0 < pageLimit size plus
    · rw [if_pos hlimit, listed, map_take, ← listed, hfound, truncateToBuffer_take hnamed hsize]
    · rw [if_neg hlimit, hfound]

end

/-! ## Cursors -/

namespace DirCursors

variable {c : DirCursors} {i j offset : Nat} {name : Text} {now : Time} {cur : DirCursor}

theorem resumeAt_eq_some (h : (c.resumeAt i offset now).1 = some name) :
    ∃ cur, c.lookup i = some cur ∧ cur.offset = offset ∧ cur.name = name := by
  rw [resumeAt] at h
  split at h
  · cases h
  · split at h
    · cases h
    · rename_i cur hcur
      split at h
      · cases h
      · rename_i hfresh
        exact ⟨cur, hcur, Decidable.not_not.mp fun hne => hfresh (.inl hne), some.inj h⟩

theorem lookup_resumeAt (h : (c.resumeAt j offset now).2.lookup i = some cur) :
    ∃ old, c.lookup i = some old ∧ old.offset = cur.offset ∧ old.name = cur.name := by
  have hsame : ∀ {c' : DirCursors}, c' = c → c'.lookup i = some cur →
      ∃ old, c.lookup i = some old ∧ old.offset = cur.offset ∧ old.name = cur.name := by
    rintro _ rfl h
    exact ⟨cur, h, rfl, rfl⟩
  rw [resumeAt] at h
  split at h
  · exact hsame rfl h
  · split at h
    · exact hsame rfl h
    · rename_i old hold
      split at h
      · exact hsame rfl h
      · by_cases hij : i = j
        · subst hij
          rw [AList.lookup_insert] at h
          cases h
          exact ⟨old, hold, rfl, rfl⟩
        · rw [AList.lookup_insert_ne hij] at h
          exact ⟨cur, h, rfl, rfl⟩

theorem lookup_evictOldest (h : c.evictOldest.lookup i = some cur) : c.lookup i = some cur := by
  rw [evictOldest] at h
  split at h
  · exact h
  · rename_i ino _ _
    by_cases hi : i = ino
    · subst hi
      rw [AList.lookup_erase] at h
      cases h
    · rwa [AList.lookup_erase_ne hi] at h

theorem lookup_record (h : (c.record j offset name now).lookup i = some cur) :
    i = j ∧ cur = ⟨offset, name, now⟩ ∨ c.lookup i = some cur := by
  rw [record] at h
  split at h
  · exact .inr h
  · by_cases hij : i = j
    · subst hij
      rw [AList.lookup_insert] at h
      exact .inl ⟨rfl, (some.inj h).symm⟩
    · rw [AList.lookup_insert_ne hij] at h
      split at h
      · exact .inr (lookup_evictOldest h)
      · exact .inr h

def Agrees (c : DirCursors) (d : Directory) (ino : Nat) : Prop :=
  ∀ cur, c.lookup ino = some cur →
    ∃ k e, cur.offset = k + 1 ∧ d.entries[k]? = some e ∧ e.name = cur.name

variable {d : Directory} {ino size : Nat} {plus : Bool}

theorem agrees_empty (d : Directory) (ino : Nat) : Agrees ∅ d ino := fun _ h => by
  rw [AList.lookup_empty] at h
  cases h

theorem Agrees.resumeAt (hc : c.Agrees d ino) (j offset : Nat) (now : Time) :
    (c.resumeAt j offset now).2.Agrees d ino := by
  intro cur h
  obtain ⟨old, hold, hoffset, hname⟩ := lookup_resumeAt h
  rw [← hoffset, ← hname]
  exact hc old hold

theorem Agrees.record_ne (hc : c.Agrees d ino) (hj : j ≠ ino) (offset : Nat) (name : Text)
    (now : Time) : (c.record j offset name now).Agrees d ino := by
  intro cur h
  rcases lookup_record h with ⟨rfl, -⟩ | h
  · exact absurd rfl hj
  · exact hc cur h

theorem Agrees.note (hc : c.Agrees d ino) {page : List DirentEntry}
    (hpage : page <+: d.entries.drop offset) (now : Time) :
    (c.note ino offset page now).Agrees d ino := by
  rw [DirCursors.note]
  split
  · rename_i last hlast
    intro cur h
    rcases lookup_record h with ⟨-, rfl⟩ | h
    · have hpos : 0 < page.length := length_pos_iff.mpr (getLast?_isSome.mp (by
        rw [hlast]; rfl))
      rw [getLast?_eq_getElem?] at hlast
      obtain ⟨rest, hrest⟩ := hpage
      have hat : d.entries[offset + (page.length - 1)]? = some last := by
        rw [← getElem?_drop, ← hrest, getElem?_append_left (by omega), hlast]
      refine ⟨offset + (page.length - 1), last, ?_, hat, rfl⟩
      show offset + page.length = _
      omega
    · exact hc cur h
  · exact hc

theorem Agrees.readPage_eq (hc : c.Agrees d ino) (offset size : Nat) (plus : Bool) (now : Time) :
    readPage d (c.resumeAt ino offset now).1 ino offset size plus =
      rescanPage d ino offset size plus := by
  cases hafter : (c.resumeAt ino offset now).1 with
  | none => rfl
  | some after =>
    obtain ⟨cur, hcur, rfl, rfl⟩ := resumeAt_eq_some hafter
    obtain ⟨k, e, hk, he, hname⟩ := hc cur hcur
    rw [hk, ← hname]
    exact readPage_resumed he

end DirCursors

theorem rescanPage_prefix (d : Directory) (ino offset size : Nat) (plus : Bool) :
    rescanPage d ino offset size plus <+: d.entries.drop offset := by
  rw [rescanPage_eq]
  exact truncateToBuffer_prefix

theorem rescanPage_eq_nil_iff {d : Directory} {ino offset size : Nat} {plus : Bool} :
    rescanPage d ino offset size plus = [] ↔ d.entries.length ≤ offset := by
  rw [rescanPage_eq, truncateToBuffer_eq_nil_iff, drop_eq_nil_iff]

end EtcFS.Ipc
