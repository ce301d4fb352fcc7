import EtcFS.Ipc.DirReply

/-!
# The reply to READDIRPLUS is read back

A name has no terminator of its own: it is the high byte of the entry's type, which comes next, that
ends it. No cookie wraps, since a page starts inside the directory or where an earlier one ended.
-/

namespace EtcFS.Correctness

open Ipc Metadata Namespace

/-! ## What the mount recovers -/

def attrOf (rec : InodeRecord) : EtcfsAttr :=
  ⟨UInt64.ofNat rec.ino, UInt64.ofNat rec.size, UInt64.ofNat rec.blocks, unix rec.atime,
    unix rec.mtime, unix rec.ctime, nanosecond rec.atime, nanosecond rec.mtime,
    nanosecond rec.ctime, rec.mode, rec.nlink, rec.uid, rec.gid, rec.rdev, rec.blksize⟩

def recovered (c : ReplyArgs) (i : Nat) (e : ListedEntry) : DirentryPlus :=
  ⟨e.name, e.ino, c.offset + UInt64.ofNat i + 1, attrOf (c.shownRecord e), c.entryTimeout,
    c.attrTimeout⟩

section

variable {c : ReplyArgs} {size : List UInt8 → Nat} {bufsz : Nat}

theorem reads_rbAttr (rec : InodeRecord) : Reads rbAttr (wAttr rec) (attrOf rec) := by
  unfold rbAttr wAttr
  iterate 6 refine (reads_rbU64 _).bind ?_
  iterate 9 refine (reads_rbU32 _).bind ?_
  exact .pure _

theorem reads_rbEntryTail (e : ListedEntry) (i : Nat) :
    Reads rbEntryTail [w32 (direntType e.record), w64 (c.offset + UInt64.ofNat i + 1),
        [wAttr (c.shownRecord e), w32 c.entryTimeout, w32 c.attrTimeout].flatten].flatten
      (c.offset + UInt64.ofNat i + 1, attrOf (c.shownRecord e), c.entryTimeout, c.attrTimeout) := by
  rw [List.flatten_cons, List.flatten_cons, List.flatten_cons, List.flatten_nil, List.append_nil,
    ← List.flatten_cons, ← List.flatten_cons]
  unfold rbEntryTail
  refine (reads_rbU32 _).bind ((reads_rbU64 _).bind ((reads_rbAttr _).bind ?_))
  exact (reads_rbU32 _).bind ((reads_rbU32 _).bind (.pure _))

theorem w32_direntType (rec : Option InodeRecord) : ∃ bs, w32 (direntType rec) = 0 :: bs := by
  cases rec with
  | none => exact ⟨_, rfl⟩
  | some rec =>
    simp only [direntType]
    split_ifs <;> exact ⟨_, rfl⟩

theorem cookie_gt {off : UInt64} {i : Nat} (h : off.toNat + i + 1 < 2 ^ 64) :
    ¬ off + UInt64.ofNat i + 1 ≤ off := by
  rw [UInt64.le_iff_toNat_le, UInt64.toNat_add, UInt64.toNat_add, UInt64.toNat_ofNat',
    UInt64.toNat_one]
  omega

theorem rbEntries_eq {es : List ListedEntry} {i used : Nat} {r : Rbuf}
    (hnames : ∀ e ∈ es, 0 ∉ e.name) (hlens : ∀ e ∈ es, e.name.length < 2 ^ 32)
    (hroom : used + (es.map fun e => size e.name).sum ≤ bufsz)
    (hcookie : c.offset.toNat + i + es.length < 2 ^ 64) (hr : Unread r (c.listBytes true i es)) :
    ∃ r', rbEntries size bufsz c.offset es.length used r =
        some ((es.zipIdx i).map fun ei => recovered c ei.2 ei.1, r') ∧
      Unread r' [] ∧ r'.p = r.p := by
  induction es generalizing i used r with
  | nil => exact ⟨r, rfl, hr, rfl⟩
  | cons e es ih =>
    rw [List.length_cons] at hcookie
    rw [List.map_cons, List.sum_cons] at hroom
    rw [ReplyArgs.listBytes, ReplyArgs.entryBytes, List.flatten_cons, List.flatten_cons,
      List.flatten_cons, List.flatten_singleton, List.append_assoc, List.append_assoc,
      List.append_assoc, if_pos rfl] at hr
    obtain ⟨r₁, hino, hr, hp₁⟩ := reads_rbU64 _ r _ hr
    obtain ⟨r₂, hnl, hr, hp₂⟩ := reads_rbU32 _ r₁ _ hr
    have hname : r₂.p.drop r₂.off.toNat = _ := hr.rest
    obtain ⟨r₃, hdn, hr, hp₃⟩ := rbBytes_eq hr
      ((UInt32.toNat_ofNat' ..).trans (Nat.mod_eq_of_lt (hlens e List.mem_cons_self)))
    obtain ⟨r₄, htail, hr, hp₄⟩ := reads_rbEntryTail (c := c) e i r₃ _ hr
    have hroom' : used + size e.name + (es.map fun e => size e.name).sum ≤ bufsz := by omega
    obtain ⟨r₅, hrest, hend, hp₅⟩ := ih (fun e he => hnames e (List.mem_cons_of_mem _ he))
      (fun e he => hlens e (List.mem_cons_of_mem _ he)) hroom' (by omega) hr
    -- The name is read through the pointer only now, from the reply as a whole.
    have hstr : cString (r₄.p.drop r₂.off.toNat) = some e.name := by
      obtain ⟨bs, hbs⟩ := w32_direntType e.record
      rw [hp₄, hp₃, hname, List.flatten_cons, hbs]
      exact cString_eq (hnames e List.mem_cons_self)
    have hbeyond : ¬ c.offset + UInt64.ofNat i + 1 ≤ c.offset := cookie_gt (by omega)
    have hfits : ¬ size e.name > bufsz - used := by omega
    refine ⟨r₅, ?_, hend, ((hp₅.trans hp₄).trans hp₃).trans (hp₂.trans hp₁)⟩
    simp only [List.length_cons, rbEntries, bind, StateT.bind, hino, hnl, hdn, htail,
      Option.bind_some, if_neg hbeyond, get, getThe, MonadStateOf.get, StateT.get,
      liftM, monadLift, MonadLift.monadLift, StateT.lift, hstr, if_neg hfits, hrest, reader_pure,
      Option.pure_def]
    rfl

theorem length_listBytes (es : List ListedEntry) (i : Nat) :
    (c.listBytes true i es).length = (es.map fun e => 116 + e.name.length).sum := by
  induction es generalizing i with
  | nil => rfl
  | cons e es ih =>
    have hentry : (c.entryBytes true i e).length = 116 + e.name.length := by
      simp only [ReplyArgs.entryBytes, wAttr, w64, w32, if_true, List.flatten_cons,
        List.flatten_nil, List.length_append, List.length_cons, List.length_nil]
      omega
    rw [ReplyArgs.listBytes, List.length_append, ih, hentry, List.map_cons, List.sum_cons]

end

/-! ## Positions -/

section

variable {c : DirCursors} {n : Nat}

theorem length_listDirentsAfter_le (d : Directory) (ino limit : Nat) (after : Core.Text) :
    (d.listDirentsAfter ino after limit).length ≤ d.entries.length := by
  have hkeys : ∀ p, (d.keys ino p).length ≤ d.entries.length := fun p =>
    (List.length_filter_le _ _).trans (List.length_map _).le
  simp only [Directory.listDirentsAfter, listed, List.length_map]
  split
  · exact (List.length_take_le' ..).trans (hkeys _)
  · exact hkeys _

/-- A page ends inside the directory, or within its length of where an earlier page ended. -/
theorem answer_fits (h : ∀ i cur, c.lookup i = some cur → cur.offset ≤ n) (q : ListRequest)
    (hpage : (q.answer c).1 ≠ []) :
    q.offset.toNat + (q.answer c).1.length ≤ n + q.dir.entries.length := by
  simp only [ListRequest.answer, direntPage] at hpage ⊢
  cases hafter : (c.resumeAt q.ino q.offset.toNat q.now).1 with
  | none =>
    rw [hafter] at hpage
    have hle : (rescanPage q.dir q.ino q.offset.toNat q.size.toNat q.plus).length ≤ _ :=
      List.IsPrefix.length_le ( rescanPage_prefix ..)
    have hlt := mt rescanPage_eq_nil_iff.mpr hpage
    rw [List.length_drop] at hle
    rw [rescanPage] at hle
    omega
  | some after =>
    obtain ⟨cur, hcur, hoffset, -⟩ := DirCursors.resumeAt_eq_some hafter
    have hle := h _ _ hcur
    have hlen : (readPage q.dir (some after) q.ino q.offset.toNat q.size.toNat q.plus).length ≤ _ :=
      truncateToBuffer_prefix.length_le.trans (length_listDirentsAfter_le ..)
    omega

theorem answer_cursors (h : ∀ i cur, c.lookup i = some cur → cur.offset ≤ n) (q : ListRequest)
    {i : Nat} {cur : DirCursor} (hcur : (q.answer c).2.lookup i = some cur) :
    cur.offset ≤ n + q.dir.entries.length := by
  have hold : (c.resumeAt q.ino q.offset.toNat q.now).2.lookup i = some cur →
      cur.offset ≤ n + q.dir.entries.length := by
    intro hcur
    obtain ⟨old, hold, hoffset, -⟩ := DirCursors.lookup_resumeAt hcur
    exact hoffset ▸ (h i old hold).trans (Nat.le_add_right ..)
  have hfits := answer_fits h q
  simp only [ListRequest.answer, direntPage, DirCursors.note] at hfits hcur
  split at hcur
  · rename_i last hlast
    rcases DirCursors.lookup_record hcur with ⟨-, rfl⟩ | hcur
    · refine hfits fun hnil => ?_
      rw [hnil] at hlast
      cases hlast
    · exact hold hcur
  · exact hold hcur

theorem foldl_answer_le (qs : List ListRequest)
    (h : ∀ i cur, c.lookup i = some cur → cur.offset ≤ n) (i : Nat) (cur : DirCursor)
    (hcur : (qs.foldl (fun c q => (q.answer c).2) c).lookup i = some cur) :
    cur.offset ≤ n + (qs.map fun q => q.dir.entries.length).sum := by
  induction qs generalizing c n with
  | nil => exact h i cur hcur
  | cons q qs ih =>
    rw [List.map_cons, List.sum_cons, ← Nat.add_assoc]
    exact ih (fun _ _ => answer_cursors h q) hcur

theorem cursorsAfter_le (qs : List ListRequest) (i : Nat) (cur : DirCursor)
    (hcur : (cursorsAfter qs).lookup i = some cur) :
    cur.offset ≤ (qs.map fun q => q.dir.entries.length).sum := by
  have hle := foldl_answer_le (c := ∅) (n := 0) qs (fun i cur h => by simp at h) i cur hcur
  rwa [Nat.zero_add] at hle

end

/-! ## The result -/

theorem lengths_le {size : List UInt8 → Nat} (hsize : ∀ name, 152 + name.length ≤ size name)
    (es : List ListedEntry) : (es.map fun e => 116 + e.name.length).sum + 36 * es.length ≤
      (es.map fun e => size e.name).sum := by
  induction es with
  | nil => exact Nat.le_refl 0
  | cons e es ih =>
    have he := hsize e.name
    simp only [List.map_cons, List.sum_cons, List.length_cons]
    omega

theorem bufsz_lt (q : ListRequest) : q.bufsz < 2 ^ 32 := by
  rw [ListRequest.bufsz]
  split
  · exact q.size.toNat_lt
  · decide

/-- In the buffer of a kernel that has room, the mount recovers the entries of the page in order,
with every word and with every name, looks at no byte outside the reply and ends where it ends.
The page is one of any directory, for a daemon that has answered any requests before; an entry
takes the FUSE library 152 bytes and its name. -/
theorem readdirplus_recovers (c : ReplyArgs) (before : List ListRequest) (q : ListRequest)
    (page : List DirentEntry) (hpage : page = (q.answer (cursorsAfter before)).1)
    (hoffset : c.offset = q.offset) (direntSize : List UInt8 → Nat)
    (hnames : ∀ e ∈ page, 0 ∉ (c.listedEntry e).name)
    (hsize : ∀ name, 152 + name.length ≤ direntSize name)
    (hroom : (page.map fun e => direntSize (c.listedEntry e).name).sum ≤ q.bufsz)
    (hserved : ((before ++ [q]).map fun q => q.dir.entries.length).sum < 2 ^ 64) :
    ∃ r, ecReaddirplus direntSize q.bufsz c.offset (rbNew (c.readdirResp true page)) =
        some (some (page.zipIdx.map fun ei => recovered c ei.2 (c.listedEntry ei.1)), r) ∧
      r.ok = true ∧ r.off.toNat = (c.readdirResp true page).length := by
  obtain ⟨es, hes⟩ : ∃ es, es = page.map c.listedEntry := ⟨_, rfl⟩
  have hcount : es.length = page.length := by rw [hes, List.length_map]
  have hroom' : 0 + (es.map fun e => direntSize e.name).sum ≤ q.bufsz := by
    rwa [Nat.zero_add, hes, List.map_map]
  have hcookie : c.offset.toNat + 0 + es.length < 2 ^ 64 := by
    have hoff := c.offset.toNat_lt
    by_cases hnil : page = []
    · rw [hcount, hnil]
      exact hoff
    · have hfits := answer_fits (cursorsAfter_le before) q (hpage ▸ hnil)
      rw [← hpage, ← hoffset] at hfits
      simp only [List.map_append, List.sum_append, List.map_cons, List.map_nil, List.sum_cons,
        List.sum_nil] at hserved
      omega
  have hlist : (c.readdirResp true page).length =
      8 + (es.map fun e => 116 + e.name.length).sum := by
    rw [← length_listBytes (c := c) es 0, hes]
    simp only [ReplyArgs.readdirResp, w32, List.flatten_cons, List.flatten_nil,
      List.length_append, List.length_cons, List.length_nil]
    omega
  have hsum := lengths_le hsize es
  have hbuf := bufsz_lt q
  have hshort : es.length < 2 ^ 32 ∧ (c.readdirResp true page).length < 2 ^ 32 := by
    by_cases hnil : es = []
    · rw [hlist, hnil]
      decide
    · have hlen := List.length_pos_iff.mpr hnil
      omega
  have hlens : ∀ e ∈ es, e.name.length < 2 ^ 32 := by
    intro e he
    obtain ⟨front, back, rfl⟩ := List.append_of_mem he
    simp only [List.map_append, List.map_cons, List.sum_append, List.sum_cons] at hlist
    omega
  have hnames' : ∀ e ∈ es, 0 ∉ e.name := by
    intro e he
    obtain ⟨x, hx, rfl⟩ := List.mem_map.mp (hes ▸ he)
    exact hnames x hx
  have hr := unread_rbNew hshort.2
  rw [ReplyArgs.readdirResp, List.flatten_cons, List.flatten_cons, List.flatten_singleton,
    ← hes] at hr
  obtain ⟨r₁, herr, hr, hp₁⟩ := reads_rbU32 _ _ _ hr
  obtain ⟨r₂, hn, hr, hp₂⟩ := reads_rbU32 _ r₁ _ hr
  obtain ⟨r₃, hread, hend, hp₃⟩ := rbEntries_eq hnames' hlens hroom' hcookie hr
  have hn' : (UInt32.ofNat page.length).toNat = es.length := by
    rw [UInt32.toNat_ofNat', ← hcount]
    exact Nat.mod_eq_of_lt hshort.1
  refine ⟨r₃, ?_, hend.ok, ?_⟩
  · have hzip : (es.zipIdx 0).map (fun ei => recovered c ei.2 ei.1) =
        page.zipIdx.map fun ei => recovered c ei.2 (c.listedEntry ei.1) := by
      rw [hes, List.zipIdx_map, List.map_map]
      rfl
    rw [hzip] at hread
    simp only [ecReaddirplus, bind, StateT.bind, ReplyArgs.readdirResp, List.flatten_cons,
      List.flatten_nil, List.append_nil, ← hes, herr, Option.bind_some, ne_eq, not_true_eq_false,
      if_false, hn, hn', hread, reader_pure]
  · have hoff := hend.length
    rw [hp₃, hp₂, hp₁, List.length_nil, Nat.add_zero] at hoff
    rw [hoff, ReplyArgs.readdirResp, List.flatten_cons, List.flatten_cons, List.flatten_singleton,
      ← hes]
    rfl

def sampleRecord : InodeRecord := ⟨12, 4096, 8, 0o40755, 2, 0, 0, 0, 4096, 5, 6, 7⟩

def sampleArgs : ReplyArgs := ⟨1, fun ino => if ino = 12 then some sampleRecord else none, 1, 2, id⟩

def sampleEntries : List DirentEntry := [⟨['a'], 11⟩, ⟨['b', 'c'], 12⟩, ⟨['d'], 13⟩]

def samplePage (offset : UInt64) (size : UInt32) : ListRequest :=
  ⟨⟨sampleEntries, by decide, by decide⟩, 7, offset, size, true, 0, 1⟩

/-- The second page of a directory, which the cursor of the first one resumes. -/
theorem readdirplus_recovers_sample :
    ∃ r, ecReaddirplus (fun name => 152 + name.length) 400 1
        (rbNew (sampleArgs.readdirResp true [⟨['b', 'c'], 12⟩, ⟨['d'], 13⟩])) =
        some (some [recovered sampleArgs 0 ⟨[98, 99], 12, some sampleRecord⟩,
          recovered sampleArgs 1 ⟨[100], 13, none⟩], r) ∧
      r.ok = true ∧
      r.off.toNat = (sampleArgs.readdirResp true [⟨['b', 'c'], 12⟩, ⟨['d'], 13⟩]).length :=
  readdirplus_recovers sampleArgs [samplePage 0 160] (samplePage 1 400) _ (by decide +kernel) rfl
    (fun name => 152 + name.length) (by decide +kernel) (fun _ => Nat.le_refl _) (by decide +kernel)
    (by decide +kernel)

end EtcFS.Correctness
