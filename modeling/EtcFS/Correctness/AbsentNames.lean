import EtcFS.Ipc.DirentCache

/-!
# Names answered to be absent

A cached set has every name its directory has, unless a removal reaches the cache after the report
that the name is back, or a fill crosses a gap.
-/

namespace EtcFS.Correctness

open EtcFS.Core Ipc List Option Function

structure CaughtUp (s : DirentWorld) : Prop where
  watching : s.watching = true
  pending : s.pending = []
  acks : s.acks = []
  fills : s.fills = []

def AbsencesRight (ttl : Nat) (s : DirentWorld) : Prop :=
  ∀ now parent name, s.cache.absent ttl now parent name = true → name ∉ s.dirents parent

def Reported (s : DirentWorld) (parent : Nat) (name : String) : Prop :=
  name ∈ s.dirents parent ∧ ¬ s.Awaits parent name
  deriving Decidable

def InStep (s : DirentWorld) : DirentStep → Prop
  | .ack (.deleted parent name :: _) => ¬ Reported s parent name
  | .endFill fill _ _ _ => s.cache.installs fill.parent = true →
      ∀ other ∈ s.fills.erase fill, other.parent ≠ fill.parent
  | .ack [] | .ack (.created _ _ :: _) | .peer _ | .commit _ | .deliver | .gap | .reopen | .arm
  | .beginFill _ _ | .readFill _ | .abandonFill _ | .look _ _ | .seen _ _ => True

instance (s : DirentWorld) : DecidablePred (InStep s)
  | .ack (.deleted parent name :: _) => inferInstanceAs (Decidable (¬ Reported s parent name))
  | .endFill fill _ _ _ => inferInstanceAs (Decidable (s.cache.installs fill.parent = true → _))
  | .ack [] | .ack (.created _ _ :: _) | .peer _ | .commit _ | .deliver | .gap | .reopen | .arm
  | .beginFill _ _ | .readFill _ | .abandonFill _ | .look _ _ | .seen _ _ =>
    inferInstanceAs (Decidable True)

/-! ## What the cache's operations do to its sets -/

def Covers (c : DirentCache) (need : Nat → String → Prop) : Prop :=
  ∀ parent d, c.dirs.lookup parent = some d → d.tooBig = false →
    ∀ name, need parent name → name ∈ d.names

structure Idle (c : DirentCache) : Prop where
  armed : c.armed = false
  dirs : ∀ parent, c.dirs.lookup parent = none
  filling : ∀ parent, c.filling parent = none

section

variable {c : DirentCache} {need : Nat → String → Prop}

theorem Covers.mono {need' : Nat → String → Prop} (h : Covers c need)
    (hle : ∀ p n, need' p n → need p n) : Covers c need' :=
  fun p d hd hbig n hn => h p d hd hbig n (hle p n hn)

theorem Idle.covers (h : Idle c) : Covers c need := by
  intro p d hd
  rw [h.dirs p] at hd
  cases hd

variable {parent : Nat} {c' : DirentCache}

theorem mutableLocked_eq_some {d : DirentSet} :
    c.mutableLocked parent = some d ↔ c.dirs.lookup parent = some d ∧ d.tooBig = false := by
  simp [DirentCache.mutableLocked, filter_eq_some_iff]

/-- A change of `name` is noted: `name` is in the set if it is `present`, and the other names
stay. -/
structure Hears (c c' : DirentCache) (parent : Nat) (name : String) (present : Bool) : Prop where
  armed : c'.armed = c.armed
  filling : c'.filling = (c.notedLocked parent).filling
  other : ∀ p ≠ parent, c'.dirs.lookup p = c.dirs.lookup p
  own : ∀ d', c'.dirs.lookup parent = some d' → ∃ d, c.dirs.lookup parent = some d ∧
    (d'.tooBig = false → d.tooBig = false ∧ (∀ n ∈ d.names, n ≠ name → n ∈ d'.names) ∧
      (present = true → name ∈ d'.names))

variable {name : String} {present : Bool}

theorem hears_notedLocked (h : ∀ d, c.mutableLocked parent = some d → present = false) :
    Hears c (c.notedLocked parent) parent name present := by
  refine ⟨rfl, rfl, fun _ _ => rfl, fun d hd => ⟨d, hd, fun hbig => ⟨hbig, fun n hn _ => hn, ?_⟩⟩⟩
  rw [h d (mutableLocked_eq_some.mpr ⟨hd, hbig⟩)]
  exact (absurd · Bool.false_ne_true)

theorem hears_insert {d d' : DirentSet} {names : Int} (hm : c.mutableLocked parent = some d)
    (hnames : ∀ n ∈ d.names, n ≠ name → n ∈ d'.names) (hname : present = true → name ∈ d'.names) :
    Hears c { c.notedLocked parent with dirs := c.dirs.insert parent d', names := names }
      parent name present := by
  refine ⟨rfl, rfl, fun p hp => AList.lookup_insert_ne hp, fun e he => ?_⟩
  obtain ⟨hd, hbig⟩ := mutableLocked_eq_some.mp hm
  rw [AList.lookup_insert] at he
  cases he
  exact ⟨d, hd, fun _ => ⟨hbig, hnames, hname⟩⟩

theorem hears_insertLocked {d : DirentSet} (hm : c.mutableLocked parent = some d)
    (mine : Finset String) :
    Hears c ((c.notedLocked parent).insertLocked parent d name mine) parent name present :=
  hears_insert hm (fun _ hn _ => Finset.mem_insert_of_mem hn) fun _ => Finset.mem_insert_self ..

theorem hears_removeLocked {d : DirentSet} (hm : c.mutableLocked parent = some d)
    (mine : Finset String) :
    Hears c ((c.notedLocked parent).removeLocked parent d name mine) parent name false :=
  hears_insert hm (fun _ hn hne => Finset.mem_erase.mpr ⟨hne, hn⟩) (absurd · Bool.false_ne_true)

theorem hears_created : Hears c (c.created parent name) parent name true := by
  rw [DirentCache.created]
  cases hm : c.mutableLocked parent with
  | none => exact hears_notedLocked (by simp [hm])
  | some d => exact hears_insertLocked hm _

theorem hears_deleted : Hears c (c.deleted parent name) parent name false := by
  rw [DirentCache.deleted]
  cases hm : c.mutableLocked parent with
  | none => exact hears_notedLocked fun _ _ => rfl
  | some d => exact hears_removeLocked hm _

theorem hears_observed : Hears c (c.observed parent name present) parent name present := by
  rw [DirentCache.observed]
  cases hm : c.mutableLocked parent with
  | none => exact hears_notedLocked (by simp [hm])
  | some d =>
    cases present with
    | true => exact hears_insertLocked hm _
    | false =>
      simp only [Bool.false_eq_true, if_false]
      split
      · exact hears_notedLocked fun _ _ => rfl
      · exact hears_removeLocked hm _

theorem Hears.covers (hc : Hears c c' parent name present) {need' : Nat → String → Prop}
    (h : Covers c need) (hle : ∀ p n, need' p n → ¬ (p = parent ∧ n = name) → need p n)
    (hneed : need' parent name → present = true) : Covers c' need' := by
  intro p d' hd' hbig' n hn
  by_cases hp : p = parent
  · subst hp
    obtain ⟨d, hd, hnames⟩ := hc.own d' hd'
    obtain ⟨hbig, hother, hname⟩ := hnames hbig'
    by_cases he : n = name
    · subst he
      exact hname (hneed hn)
    · exact hother n (h p d hd hbig n (hle p n hn fun h => he h.2)) he
  · rw [hc.other p hp] at hd'
    exact h p d' hd' hbig' n (hle p n hn fun h => hp h.1)

theorem Hears.filling_cases (h : Hears c c' parent name present) {p cnt : Nat}
    (hp : c'.filling p = some cnt) : p = parent ∧ 0 < cnt ∧ c.filling p ≠ none ∨
      p ≠ parent ∧ c.filling p = some cnt := by
  rw [h.filling, DirentCache.notedLocked] at hp
  by_cases he : p = parent
  · subst he
    simp only [update_self] at hp
    obtain ⟨k, hk, rfl⟩ := map_eq_some_iff.mp hp
    exact .inl ⟨rfl, Nat.succ_pos k, by simp [hk]⟩
  · simp only [update_of_ne he] at hp
    exact .inr ⟨he, hp⟩

theorem Idle.hears (h : Idle c) (hc : Hears c c' parent name present) : Idle c' := by
  refine ⟨hc.armed.trans h.armed, fun p => ?_, fun p => eq_none_iff_forall_ne_some.mpr ?_⟩
  · by_cases hp : p = parent
    · subst hp
      refine eq_none_iff_forall_ne_some.mpr fun d' hd' => ?_
      obtain ⟨d, hd, -⟩ := hc.own d' hd'
      rw [h.dirs] at hd
      cases hd
    · rw [hc.other p hp, h.dirs]
  · intro cnt hp
    rcases hc.filling_cases hp with ⟨-, -, hne⟩ | ⟨-, heq⟩
    · exact hne (h.filling p)
    · rw [h.filling p] at heq
      cases heq

theorem Idle.abandonFill (h : Idle c) (parent : Nat) : Idle (c.abandonFill parent) := by
  refine ⟨h.armed, h.dirs, fun p => ?_⟩
  rw [DirentCache.abandonFill]
  by_cases hp : p = parent
  · simp [hp]
  · simp [hp, h.filling]

theorem filling_abandonFill {p cnt : Nat}
    (h : (c.abandonFill parent).filling p = some cnt) : p ≠ parent ∧ c.filling p = some cnt := by
  rw [DirentCache.abandonFill] at h
  by_cases hp : p = parent
  · simp [hp] at h
  · exact ⟨hp, by simpa [hp] using h⟩

/-- Sets are only dropped. -/
structure Drops (c c' : DirentCache) : Prop where
  armed : c'.armed = c.armed
  filling : c'.filling = c.filling
  dirs : ∀ p d, c'.dirs.lookup p = some d → c.dirs.lookup p = some d

theorem drops_dropLocked (parent : Nat) : Drops c (c.dropLocked parent) := by
  rw [DirentCache.dropLocked]
  cases c.dirs.lookup parent with
  | none => exact ⟨rfl, rfl, fun _ _ => id⟩
  | some d =>
    refine ⟨rfl, rfl, fun p e he => ?_⟩
    by_cases hp : p = parent
    · subst hp
      rw [AList.lookup_erase] at he
      cases he
    · rwa [AList.lookup_erase_ne hp] at he

theorem drops_evictLocked {victims : List Nat} (hc : c.evictLocked victims = some c') :
    Drops c c' := by
  induction victims generalizing c with
  | nil =>
    obtain ⟨-, hc⟩ := ite_none_left_eq_some.mp hc
    cases hc
    exact ⟨rfl, rfl, fun _ _ => id⟩
  | cons parent rest ih =>
    obtain ⟨-, hc⟩ := ite_none_right_eq_some.mp hc
    have hdrop := drops_dropLocked (c := c) parent
    have hrest := ih hc
    exact ⟨hrest.armed.trans hdrop.armed, hrest.filling.trans hdrop.filling,
      fun p d hd => hdrop.dirs p d (hrest.dirs p d hd)⟩

theorem install_eq (parent : Nat) (entries : Finset String) (now : Nat) : ∃ d names,
    c.install parent entries now = { c.dropLocked parent with
      dirs := (c.dropLocked parent).dirs.insert parent d, names := names } ∧
    (d.tooBig = false → d.names = entries) := by
  rw [DirentCache.install]
  split
  · exact ⟨_, _, rfl, (nomatch ·)⟩
  · exact ⟨_, _, rfl, fun _ => rfl⟩

theorem endFill_spec {now : Nat} {entries : Finset String} {victims : List Nat} (h : Covers c need)
    (hneed : c.installs parent = true → ∀ n, need parent n → n ∈ entries)
    (hc : c.endFill parent entries now victims = some c') :
    Covers c' need ∧ c'.filling = (c.abandonFill parent).filling := by
  rw [DirentCache.endFill] at hc
  split at hc
  · next hinst =>
    have hdrop := drops_dropLocked (c := c.abandonFill parent) parent
    obtain ⟨e, names, heq, hentries⟩ := install_eq (c := c.abandonFill parent) parent entries now
    rw [heq] at hc
    have hevict := drops_evictLocked hc
    refine ⟨fun p d hd hbig n hn => ?_, hevict.filling.trans hdrop.filling⟩
    have hd := hevict.dirs p d hd
    by_cases hp : p = parent
    · subst hp
      rw [AList.lookup_insert] at hd
      cases hd
      rw [hentries hbig]
      exact hneed hinst n hn
    · rw [AList.lookup_insert_ne hp] at hd
      exact h p d (hdrop.dirs p d hd) hbig n hn
  · cases hc
    exact ⟨h, rfl⟩

end

/-! ## What the watch has yet to report -/

theorem mem_record_of_ne {s : DirentWorld} {e : DirentEvent} {parent : Nat} {name : String}
    (h : ¬ (e.parent = parent ∧ e.name = name)) :
    name ∈ (s.record e).dirents parent ↔ name ∈ s.dirents parent := by
  by_cases hp : parent = e.parent
  · subst hp
    have hn : name ≠ e.name := fun he => h ⟨rfl, he.symm⟩
    simp only [DirentWorld.record, update_self]
    split <;> simp [hn]
  · simp [DirentWorld.record, hp]

def Faithful (dirents : Nat → Finset String) : List DirentEvent → Prop
  | [] => True
  | e :: rest => ((∃ e' ∈ rest, e'.parent = e.parent ∧ e'.name = e.name) ∨
      (e.name ∈ dirents e.parent → e.present = true)) ∧ Faithful dirents rest

theorem faithful_record {s : DirentWorld} {pending : List DirentEvent}
    (h : Faithful s.dirents pending) (e : DirentEvent) :
    Faithful (s.record e).dirents (pending ++ [e]) := by
  induction pending with
  | nil =>
    refine ⟨.inr fun hmem => ?_, trivial⟩
    by_contra hfalse
    simp [DirentWorld.record, hfalse] at hmem
  | cons a rest ih =>
    obtain ⟨hlast, hrest⟩ := h
    refine ⟨?_, ih hrest⟩
    by_cases hsame : e.parent = a.parent ∧ e.name = a.name
    · exact .inl ⟨e, by simp, hsame⟩
    · rcases hlast with ⟨e', he', hkey⟩ | hpresent
      · exact .inl ⟨e', mem_append_left _ he', hkey⟩
      · refine .inr fun hmem => hpresent ?_
        exact (mem_record_of_ne hsame).mp hmem

/-! ## Runs -/

structure NamesCovered (s : DirentWorld) : Prop where
  closed : s.watching = false → Idle s.cache ∧ s.pending = []
  faithful : Faithful s.dirents s.pending
  sets : Covers s.cache (Reported s)
  claims : ∀ p cnt, s.cache.filling p = some cnt → ∃ f ∈ s.fills, f.parent = p ∧
    ∀ entries, f.read = some entries → 0 < cnt ∨ ∀ n, Reported s p n → n ∈ entries

namespace NamesCovered

variable {s : DirentWorld}

theorem absencesRight (h : NamesCovered s) (hpending : s.pending = []) (ttl : Nat) :
    AbsencesRight ttl s := by
  intro now parent name habsent hmem
  rw [DirentCache.absent, Bool.and_eq_true, Option.any_eq_true] at habsent
  obtain ⟨-, d, hd, hd'⟩ := habsent
  simp only [Bool.and_eq_true, Bool.not_eq_true', decide_eq_true_eq] at hd'
  refine hd'.2 (h.sets parent d hd hd'.1.1 name ⟨hmem, ?_⟩)
  rintro ⟨e, he, -⟩
  rw [hpending] at he
  cases he

theorem record (h : NamesCovered s) (e : DirentEvent) : NamesCovered (s.record e) := by
  cases hw : s.watching with
  | false =>
    obtain ⟨hidle, hpending⟩ := h.closed hw
    have hpend : (s.record e).pending = [] := by simp [DirentWorld.record, hw, hpending]
    refine ⟨fun _ => ⟨hidle, hpend⟩, ?_, hidle.covers, fun p cnt hp => ?_⟩
    · rw [hpend]
      trivial
    · rw [show (s.record e).cache.filling p = none from hidle.filling p] at hp
      cases hp
  | true =>
    have hpend : (s.record e).pending = s.pending ++ [e] := by simp [DirentWorld.record, hw]
    have hle : ∀ p n, Reported (s.record e) p n → Reported s p n := by
      rintro p n ⟨hmem, hno⟩
      have hne : ¬ (e.parent = p ∧ e.name = n) := by
        intro he
        exact hno ⟨e, by simp [hpend], he⟩
      refine ⟨(mem_record_of_ne hne).mp hmem, ?_⟩
      rintro ⟨e', he', hkey⟩
      exact hno ⟨e', by simp [hpend, he'], hkey⟩
    refine ⟨fun hclosed => ?_, ?_, h.sets.mono hle, fun p cnt hp => ?_⟩
    · rw [show (s.record e).watching = s.watching from rfl, hw] at hclosed
      cases hclosed
    · rw [hpend]
      exact faithful_record h.faithful e
    · obtain ⟨f, hf, hparent, hread⟩ := h.claims p cnt hp
      exact ⟨f, hf, hparent, fun entries he =>
        (hread entries he).imp_right fun hall n hn => hall n (hle p n hn)⟩

theorem change (h : NamesCovered s) (op : NameChange) : NamesCovered (s.change op) := by
  rw [DirentWorld.change]
  generalize op.events = events
  induction events generalizing s with
  | nil => exact h
  | cons e rest ih => exact ih (h.record e)

variable {c : DirentCache}

theorem hears (h : NamesCovered s) {t : DirentWorld} {parent : Nat} {name : String} {present : Bool}
    (hc : Hears s.cache t.cache parent name present) (hfills : t.fills = s.fills)
    (hclosed : t.watching = false → s.watching = false ∧ t.pending = [])
    (hfaithful : Faithful t.dirents t.pending)
    (hle : ∀ p n, Reported t p n → ¬ (p = parent ∧ n = name) → Reported s p n)
    (hneed : Reported t parent name → present = true) : NamesCovered t := by
  refine ⟨fun hw => ?_, hfaithful, hc.covers h.sets hle hneed, fun p cnt hp => ?_⟩
  · exact ⟨(h.closed (hclosed hw).1).1.hears hc, (hclosed hw).2⟩
  · rw [hfills]
    rcases hc.filling_cases hp with ⟨rfl, hpos, hold⟩ | ⟨hne, hold⟩
    · obtain ⟨k, hk⟩ := ne_none_iff_exists'.mp hold
      obtain ⟨f, hf, hparent, -⟩ := h.claims p k hk
      exact ⟨f, hf, hparent, fun _ _ => .inl hpos⟩
    · obtain ⟨f, hf, hparent, hread⟩ := h.claims p cnt hold
      exact ⟨f, hf, hparent, fun entries he => (hread entries he).imp_right fun hall n hn =>
        hall n (hle p n hn fun hk => hne hk.1)⟩

theorem deliver (h : NamesCovered s) {e : DirentEvent} {rest : List DirentEvent}
    (hpending : s.pending = e :: rest) :
    NamesCovered { s with
      cache := s.cache.observed e.parent e.name e.present, pending := rest } := by
  have hfaithful := h.faithful
  rw [hpending] at hfaithful
  obtain ⟨hlast, hrest⟩ := hfaithful
  refine h.hears hears_observed rfl (fun hw => ?_) hrest ?_ fun hneed => ?_
  · have hnone := (h.closed hw).2
    rw [hpending] at hnone
    cases hnone
  · rintro p n ⟨hmem, hno⟩ hne
    refine ⟨hmem, ?_⟩
    rintro ⟨e', he', hkey⟩
    rw [hpending] at he'
    rcases mem_cons.mp he' with rfl | he'
    · exact hne ⟨hkey.1.symm, hkey.2.symm⟩
    · exact hno ⟨e', he', hkey⟩
  · rcases hlast with hagain | hpresent
    · exact absurd hagain hneed.2
    · exact hpresent hneed.1

theorem beginFill (h : NamesCovered s) {ttl now parent : Nat}
    (hc : s.cache.beginFill ttl now parent = some c) :
    NamesCovered { s with cache := c, fills := ⟨parent, none⟩ :: s.fills } := by
  obtain ⟨⟨harmed, -, -⟩, rfl⟩ := ite_some_none_eq_some.mp hc
  refine ⟨fun hw => ?_, h.faithful, h.sets, fun p cnt hp => ?_⟩
  · rw [(h.closed hw).1.armed] at harmed
    cases harmed
  · by_cases he : p = parent
    · exact ⟨⟨parent, none⟩, mem_cons_self, he.symm, by simp⟩
    · obtain ⟨f, hf, hclaim⟩ := h.claims p cnt (by simpa [he] using hp)
      exact ⟨f, mem_cons_of_mem _ hf, hclaim⟩

theorem readFill (h : NamesCovered s) {fill : DirentFill} (hread : fill.read = none) :
    NamesCovered { s with
      fills := ⟨fill.parent, some (s.dirents fill.parent)⟩ :: s.fills.erase fill } := by
  refine ⟨h.closed, h.faithful, h.sets, fun p cnt hp => ?_⟩
  obtain ⟨f, hf, hparent, hclaim⟩ := h.claims p cnt hp
  by_cases he : f = fill
  · subst he
    refine ⟨_, mem_cons_self, hparent, fun entries hentries => .inr fun n hn => ?_⟩
    cases hentries
    rw [hparent]
    exact hn.1
  · exact ⟨f, mem_cons_of_mem _ ((mem_erase_of_ne he).mpr hf), hparent, hclaim⟩

theorem claims_over (h : NamesCovered s) {fill : DirentFill}
    (hc : c.filling = (s.cache.abandonFill fill.parent).filling) :
    ∀ p cnt, c.filling p = some cnt → ∃ f ∈ s.fills.erase fill, f.parent = p ∧
      ∀ entries, f.read = some entries → 0 < cnt ∨ ∀ n, Reported s p n → n ∈ entries := by
  intro p cnt hp
  rw [hc] at hp
  obtain ⟨hne, hold⟩ := filling_abandonFill hp
  obtain ⟨f, hf, hparent, hclaim⟩ := h.claims p cnt hold
  have he : f ≠ fill := by
    rintro rfl
    exact hne hparent.symm
  exact ⟨f, (mem_erase_of_ne he).mpr hf, hparent, hclaim⟩

theorem endFill (h : NamesCovered s) {fill : DirentFill} {entries : Finset String} {now : Nat}
    {victims : List Nat} (hread : fill.read = some entries)
    (halone : s.cache.installs fill.parent = true →
      ∀ other ∈ s.fills.erase fill, other.parent ≠ fill.parent)
    (hc : s.cache.endFill fill.parent entries now victims = some c) :
    NamesCovered { s with cache := c, fills := s.fills.erase fill } := by
  have hown : s.cache.installs fill.parent = true →
      ∀ n, Reported s fill.parent n → n ∈ entries := by
    intro hinst n hn
    have hclaim : s.cache.filling fill.parent = some 0 := by
      rw [DirentCache.installs, Bool.and_eq_true, beq_iff_eq] at hinst
      exact hinst.2
    obtain ⟨f, hf, hparent, hf'⟩ := h.claims _ _ hclaim
    obtain rfl : f = fill := by
      by_contra he
      exact halone hinst f ((mem_erase_of_ne he).mpr hf) hparent
    rcases hf' entries hread with hpos | hall
    · cases hpos
    · exact hall n hn
  obtain ⟨hsets, hfilling⟩ := endFill_spec h.sets hown hc
  refine ⟨fun hw => ?_, h.faithful, hsets, h.claims_over hfilling⟩
  obtain ⟨hidle, hpending⟩ := h.closed hw
  have hnot : ¬ s.cache.installs fill.parent = true := by
    rw [DirentCache.installs, hidle.armed]
    exact Bool.false_ne_true
  rw [DirentCache.endFill, if_neg hnot] at hc
  cases hc
  exact ⟨hidle.abandonFill _, hpending⟩

theorem abandonFill (h : NamesCovered s) (fill : DirentFill) : NamesCovered { s with
      cache := s.cache.abandonFill fill.parent, fills := s.fills.erase fill } :=
  ⟨fun hw => ⟨(h.closed hw).1.abandonFill _, (h.closed hw).2⟩, h.faithful, h.sets,
    h.claims_over rfl⟩

theorem gap (s : DirentWorld) :
    NamesCovered { s with watching := false, pending := [], cache := s.cache.reset } := by
  have hidle : Idle s.cache.reset := ⟨rfl, fun _ => AList.lookup_empty _, fun _ => rfl⟩
  refine ⟨fun _ => ⟨hidle, rfl⟩, trivial, hidle.covers, fun p cnt hp => ?_⟩
  cases hp

end NamesCovered

theorem namesCovered_step {ttl : Nat} {s t : DirentWorld} {step : DirentStep} (h : NamesCovered s)
    (hin : InStep s step) (hstep : (direntCaching ttl).step s step = some t) : NamesCovered t := by
  cases step with
  | peer op =>
    obtain ⟨-, rfl⟩ := ite_some_none_eq_some.mp hstep
    exact h.change op
  | commit op =>
    obtain ⟨-, rfl⟩ := ite_some_none_eq_some.mp hstep
    have hc := h.change op
    exact ⟨hc.closed, hc.faithful, hc.sets, hc.claims⟩
  | ack calls =>
    obtain ⟨-, hstep⟩ := ite_none_right_eq_some.mp hstep
    cases calls with
    | nil => cases hstep
    | cons call rest =>
      cases hstep
      have hclosed := fun hw => And.intro hw (h.closed hw).2
      cases call with
      | created parent name =>
        exact h.hears hears_created rfl hclosed h.faithful (fun _ _ hn _ => hn) fun _ => rfl
      | deleted parent name =>
        exact h.hears hears_deleted rfl hclosed h.faithful (fun _ _ hn _ => hn) (absurd · hin)
  | deliver =>
    cases hpending : s.pending with
    | nil => simp [direntCaching, hpending] at hstep
    | cons e rest =>
      simp only [direntCaching, hpending] at hstep
      cases hstep
      exact h.deliver hpending
  | gap =>
    obtain ⟨-, rfl⟩ := ite_some_none_eq_some.mp hstep
    exact NamesCovered.gap s
  | reopen =>
    obtain ⟨-, ht⟩ := ite_none_left_eq_some.mp hstep
    cases ht
    exact ⟨by simp, h.faithful, h.sets, h.claims⟩
  | arm =>
    obtain ⟨hw, rfl⟩ := ite_some_none_eq_some.mp hstep
    refine ⟨fun hclosed => ?_, h.faithful, h.sets, h.claims⟩
    rw [show s.watching = false from hclosed] at hw
    cases hw
  | beginFill parent now =>
    obtain ⟨c, hc, rfl⟩ := map_eq_some_iff.mp hstep
    exact h.beginFill hc
  | readFill fill =>
    obtain ⟨⟨-, hread⟩, rfl⟩ := ite_some_none_eq_some.mp hstep
    exact h.readFill hread
  | endFill fill entries now victims =>
    obtain ⟨⟨-, hread⟩, hstep⟩ := ite_none_right_eq_some.mp hstep
    obtain ⟨c, hc, rfl⟩ := map_eq_some_iff.mp hstep
    exact h.endFill hread hin hc
  | abandonFill fill =>
    obtain ⟨-, rfl⟩ := ite_some_none_eq_some.mp hstep
    exact h.abandonFill fill
  | look parent name =>
    obtain ⟨-, rfl⟩ := ite_some_none_eq_some.mp hstep
    exact ⟨h.closed, h.faithful, h.sets, h.claims⟩
  | seen parent name =>
    obtain ⟨-, rfl⟩ := ite_some_none_eq_some.mp hstep
    exact h.hears hears_observed rfl (fun hw => ⟨hw, (h.closed hw).2⟩) h.faithful
      (fun _ _ hn _ => hn) fun _ => rfl

def freshDaemon (dirents : Nat → Finset String) : DirentWorld where
  dirents := dirents
  watching := false
  pending := []
  cache := newDirentCache
  acks := []
  fills := []
  lookups := []

/-- From a daemon that has just started, in every state of every run that is caught up, a
name is answered to be absent only if it is, if removals and fills reach the cache in
step with the watch. -/
theorem along_absencesRight (ttl : Nat) (dirents : Nat → Finset String) {steps : List DirentStep}
    (hin : (direntCaching ttl).Along (fun s step _ => InStep s step) (freshDaemon dirents) steps) :
    (direntCaching ttl).Along (fun _ _ t => CaughtUp t → AbsencesRight ttl t)
      (freshDaemon dirents) steps := by
  have hinv : NamesCovered (freshDaemon dirents) := NamesCovered.gap (freshDaemon dirents)
  refine Machine.Along.of_invariant (I := NamesCovered) ?_ hinv hin
  intro s step t hs hc hstep
  have ht := namesCovered_step hs hc hstep
  exact ⟨ht, fun hcaught => ht.absencesRight hcaught.pending ttl⟩

def inStepRun : List DirentStep :=
  [.reopen, .arm, .beginFill 1 0, .readFill ⟨1, none⟩, .peer (.create 1 "b"), .deliver,
    .endFill ⟨1, some {"a"}⟩ {"a"} 1 [], .beginFill 1 2, .readFill ⟨1, none⟩,
    .endFill ⟨1, some {"a", "b"}⟩ {"a", "b"} 3 [], .commit (.move 1 "a" 1 "b"),
    .ack [.deleted 1 "a", .created 1 "b"], .deliver, .ack [.created 1 "b"], .deliver, .gap,
    .peer (.create 1 "c"), .reopen, .arm, .beginFill 1 4, .readFill ⟨1, none⟩,
    .endFill ⟨1, some {"b", "c"}⟩ {"b", "c"} 5 []]

/-- The run ends with an absence answered from the third fill. -/
theorem inStepRun_absencesRight :
    (((direntCaching 10).exec (freshDaemon fun _ => {"a"}) inStepRun).any fun t =>
        t.cache.absent 10 6 1 "a") = true ∧
      (direntCaching 10).Along (fun _ _ t => CaughtUp t → AbsencesRight 10 t)
        (freshDaemon fun _ => {"a"}) inStepRun :=
  ⟨by decide +kernel, along_absencesRight 10 _ (by decide +kernel)⟩

def lateRemoval : List DirentStep :=
  [.reopen, .arm, .beginFill 1 0, .readFill ⟨1, none⟩, .endFill ⟨1, some {"a"}⟩ {"a"} 0 [],
    .commit (.remove 1 "a"), .peer (.create 1 "a"), .deliver, .deliver, .ack [.deleted 1 "a"]]

/-- Everything has been reported and nothing is in flight, the store has the name, and it
is answered to be absent. -/
theorem lateRemoval_hides :
    ∃ t, (direntCaching 10).exec (freshDaemon fun _ => {"a"}) lateRemoval = some t ∧ CaughtUp t ∧
      "a" ∈ t.dirents 1 ∧ t.cache.absent 10 1 1 "a" = true ∧ ¬ AbsencesRight 10 t := by
  have hrun : (((direntCaching 10).exec (freshDaemon fun _ => {"a"}) lateRemoval).any fun t =>
      t.watching && decide (t.pending = []) && decide (t.acks = []) && decide (t.fills = []) &&
        decide ("a" ∈ t.dirents 1) && t.cache.absent 10 1 1 "a") = true := by
    decide +kernel
  obtain ⟨t, ht, h⟩ := (Option.any_eq_true ..).mp hrun
  simp only [Bool.and_eq_true, decide_eq_true_eq] at h
  obtain ⟨⟨⟨⟨⟨hwatching, hpending⟩, hacks⟩, hfills⟩, hmem⟩, habsent⟩ := h
  exact ⟨t, ht, ⟨hwatching, hpending, hacks, hfills⟩, hmem, habsent,
    fun hright => hright 1 1 "a" habsent hmem⟩

end EtcFS.Correctness
