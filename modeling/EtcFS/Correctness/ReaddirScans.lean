import EtcFS.Ipc.Readdir

/-!
# Scans of one directory

Any number of callers list an unchanged directory through one shared cursor. A page is the one a
full rescan would give.
-/

namespace EtcFS.Correctness

open EtcFS.Core Metadata Ipc Option List

structure PageRequest where
  size : Nat
  plus : Bool
  after : Option Text
  deriving DecidableEq, Repr

structure DirScan where
  offset : Nat := 0
  seen : List DirentEntry := []
  asked : Option PageRequest := none
  ended : Bool := false
  deriving DecidableEq, Repr

structure DirScans where
  cursors : DirCursors
  scans : Nat → DirScan

namespace DirScans

inductive Act where
  /-- The scan asks for its next page. -/
  | ask (i : Nat) (size : Nat) (plus : Bool) (now : Time)
  /-- The scan is answered and consumes the first entries of the page. -/
  | answer (i : Nat) (consumed : Nat) (now : Time)
  /-- The request of the scan fails. -/
  | fail (i : Nat)
  /-- A request on another directory looks its cursor up. -/
  | lookElsewhere (other offset : Nat) (now : Time)
  /-- A request on another directory records where it ended. -/
  | recordElsewhere (other offset : Nat) (name : Text) (now : Time)

def set (s : DirScans) (i : Nat) (scan : DirScan) : DirScans :=
  { s with scans := Function.update s.scans i scan }

def page (d : Directory) (ino : Nat) (scan : DirScan) (q : PageRequest) : List DirentEntry :=
  readPage d q.after ino scan.offset q.size q.plus

def machine (d : Directory) (ino : Nat) : Machine DirScans Act where
  step s
    | .ask i size plus now =>
      let scan := s.scans i
      if scan.asked = none ∧ scan.ended = false then
        let (after, cursors) := s.cursors.resumeAt ino scan.offset now
        some ({ s with cursors }.set i { scan with asked := some ⟨size, plus, after⟩ })
      else none
    | .answer i consumed now =>
      let scan := s.scans i
      scan.asked.bind fun q =>
        let sent := page d ino scan q
        if consumed ≤ sent.length then
          some ({ s with cursors := s.cursors.note ino scan.offset sent now }.set i
            { offset := scan.offset + consumed
              seen := scan.seen ++ sent.take consumed
              asked := none
              ended := sent.isEmpty })
        else none
    | .fail i => some (s.set i { s.scans i with asked := none })
    | .lookElsewhere other offset now =>
      if other ≠ ino then some { s with cursors := (s.cursors.resumeAt other offset now).2 }
      else none
    | .recordElsewhere other offset name now =>
      if other ≠ ino then some { s with cursors := s.cursors.record other offset name now }
      else none

def begin (cursors : DirCursors) : DirScans where
  cursors := cursors
  scans := fun _ => {}

/-! ## What a scan keeps -/

structure Holds (d : Directory) (ino : Nat) (scan : DirScan) : Prop where
  inside : scan.offset ≤ d.entries.length
  seen : scan.seen = d.entries.take scan.offset
  asked : ∀ q, scan.asked = some q →
    page d ino scan q = rescanPage d ino scan.offset q.size q.plus
  ended : scan.ended = true → scan.seen = d.entries

structure Good (d : Directory) (ino : Nat) (s : DirScans) : Prop where
  cursors : s.cursors.Agrees d ino
  scans : ∀ i, Holds d ino (s.scans i)

variable {d : Directory} {ino : Nat} {s t : DirScans} {scan : DirScan}

theorem good_begin {c : DirCursors} (hc : c.Agrees d ino) : Good d ino (begin c) where
  cursors := hc
  scans := fun _ =>
    { inside := Nat.zero_le _
      seen := rfl
      asked := fun _ h => absurd h (some_ne_none _).symm
      ended := fun h => Bool.noConfusion h }

theorem Good.set (h : Good d ino s) (i : Nat) (hscan : Holds d ino scan) :
    Good d ino (s.set i scan) where
  cursors := h.cursors
  scans := fun j => by
    show Holds d ino (Function.update s.scans i scan j)
    rcases eq_or_ne j i with rfl | hij
    · rwa [Function.update_self]
    · rw [Function.update_of_ne hij]
      exact h.scans j

theorem Good.withCursors (h : Good d ino s) {c : DirCursors} (hc : c.Agrees d ino) :
    Good d ino { s with cursors := c } := ⟨hc, h.scans⟩

theorem Holds.ask (h : Holds d ino scan) {c : DirCursors} (hc : c.Agrees d ino) (size : Nat)
    (plus : Bool) (now : Time) : Holds d ino
      { scan with asked := some ⟨size, plus, (c.resumeAt ino scan.offset now).1⟩ } where
  inside := h.inside
  seen := h.seen
  asked := by
    rintro q hq
    cases hq
    exact hc.readPage_eq scan.offset size plus now
  ended := h.ended

theorem Holds.fail (h : Holds d ino scan) : Holds d ino { scan with asked := none } where
  inside := h.inside
  seen := h.seen
  asked := fun _ h => absurd h (some_ne_none _).symm
  ended := h.ended

theorem Holds.answer (h : Holds d ino scan) {q : PageRequest} (hq : scan.asked = some q)
    {consumed : Nat} (hle : consumed ≤ (page d ino scan q).length) : Holds d ino
      { offset := scan.offset + consumed
        seen := scan.seen ++ (page d ino scan q).take consumed
        asked := none
        ended := (page d ino scan q).isEmpty } := by
  have hpage := h.asked q hq
  rw [hpage] at hle ⊢
  have hprefix := rescanPage_prefix d ino scan.offset q.size q.plus
  have hlen := hprefix.length_le
  rw [length_drop] at hlen
  have hinside := h.inside
  have htaken : (rescanPage d ino scan.offset q.size q.plus).take consumed =
      (d.entries.drop scan.offset).take consumed := by
    obtain ⟨rest, hrest⟩ := hprefix
    rw [← hrest, take_append_of_le_length hle]
  have hseen : scan.seen ++ (rescanPage d ino scan.offset q.size q.plus).take consumed =
      d.entries.take (scan.offset + consumed) := by
    rw [htaken, h.seen, take_add]
  have hoffset : scan.offset + consumed ≤ d.entries.length := by omega
  refine ⟨hoffset, hseen, fun _ h => absurd h (some_ne_none _).symm, fun hended => ?_⟩
  have hend := rescanPage_eq_nil_iff.mp (isEmpty_iff.mp hended)
  exact hseen.trans (take_of_length_le (Nat.le_add_right_of_le hend))

theorem Good.step (h : Good d ino s) {a : Act} (hstep : (machine d ino).step s a = some t) :
    Good d ino t := by
  cases a with
  | ask i size plus now =>
    obtain ⟨-, rfl⟩ := ite_some_none_eq_some.mp hstep
    exact (h.withCursors (h.cursors.resumeAt ino _ now)).set i
      ((h.scans i).ask h.cursors size plus now)
  | answer i consumed now =>
    obtain ⟨q, hq, hstep⟩ := bind_eq_some_iff.mp hstep
    obtain ⟨hle, rfl⟩ := ite_some_none_eq_some.mp hstep
    have hprefix : page d ino (s.scans i) q <+: d.entries.drop (s.scans i).offset := by
      rw [(h.scans i).asked q hq]
      exact rescanPage_prefix ..
    exact (h.withCursors (h.cursors.note hprefix now)).set i ((h.scans i).answer hq hle)
  | fail i =>
    cases hstep
    exact h.set i (h.scans i).fail
  | lookElsewhere other offset now =>
    obtain ⟨-, rfl⟩ := ite_some_none_eq_some.mp hstep
    exact h.withCursors (h.cursors.resumeAt other offset now)
  | recordElsewhere other offset name now =>
    obtain ⟨hother, rfl⟩ := ite_some_none_eq_some.mp hstep
    exact h.withCursors (h.cursors.record_ne hother offset name now)

/-! ## The result -/

structure Complete (d : Directory) (ino : Nat) (s : DirScans) (a : Act) (t : DirScans) : Prop where
  answered : ∀ i consumed now q, a = .answer i consumed now → (s.scans i).asked = some q →
    page d ino (s.scans i) q = rescanPage d ino (s.scans i).offset q.size q.plus
  next : ∀ offset size plus now later,
    (direntPage d t.cursors ino offset size plus now later).1 =
      rescanPage d ino offset size plus
  ended : ∀ i, (t.scans i).ended = true → (t.scans i).seen = d.entries

/-- Along every run, from cursors that are right or missing, each page is the one of a full
rescan and each scan that ended has seen the directory. -/
theorem scans_complete (d : Directory) (ino : Nat) (c : DirCursors) (hc : c.Agrees d ino)
    (as : List Act) : (machine d ino).Along (Complete d ino) (begin c) as := by
  refine Machine.Along.of_invariant ?_ (good_begin hc) (Machine.along_true _ _)
  intro s a t hs _ hstep
  have ht := hs.step hstep
  exact ⟨ht,
    { answered := fun i _ _ q _ hq => (hs.scans i).asked q hq
      next := fun offset size plus now _ => ht.cursors.readPage_eq offset size plus now
      ended := fun i => (ht.scans i).ended }⟩

def threeEntries : List DirentEntry := [⟨['a'], 11⟩, ⟨['b'], 12⟩, ⟨['c', 'd'], 13⟩]

theorem threeEntries_sorted :
    threeEntries.Pairwise fun a b => before a.name b.name = true := by decide

theorem threeEntries_named : ∀ e ∈ threeEntries, e.name ≠ [] := by decide

def threeNames : Directory := ⟨threeEntries, threeEntries_sorted, threeEntries_named⟩

def twoScans : List Act :=
  [.ask 0 70 false 0, .answer 0 1 1, .ask 1 32 false 2, .answer 1 1 3, .ask 0 0 true 4,
    .answer 0 2 5, .ask 1 32 false 6, .recordElsewhere 9 4 ['z'] 7, .answer 1 1 8,
    .ask 0 64 false 9, .answer 0 0 10, .ask 1 32 false 11, .answer 1 1 12, .ask 1 32 false 13,
    .answer 1 0 14]

theorem scans_complete_twoScans :
    ((machine threeNames 7).exec (begin ∅) twoScans).map
        (fun t => ((t.scans 0).ended, (t.scans 0).seen, (t.scans 1).ended, (t.scans 1).seen)) =
      some (true, threeNames.entries, true, threeNames.entries) ∧
    (machine threeNames 7).Along (Complete threeNames 7) (begin ∅) twoScans :=
  ⟨by decide +kernel, scans_complete _ _ _ (DirCursors.agrees_empty _ _) _⟩

end DirScans

end EtcFS.Correctness
