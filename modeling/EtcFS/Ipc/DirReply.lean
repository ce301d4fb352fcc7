import EtcFS.Ipc.Readdir
import EtcFS.Ipc.Wire
import EtcFS.Namespace.Atomic

/-!
# The reply to READDIRPLUS

The daemon writes a page of entries behind a count. The mount reads them back in a loop and hands
each name on as a C string.
-/

namespace EtcFS.Ipc

open EtcFS.Core Metadata Namespace

/-! ## The daemon -/

/-- An entry of a page, with the record of its inode if there is one. -/
structure ListedEntry where
  name : List UInt8
  ino : UInt64
  record : Option InodeRecord

def direntTypeFile : UInt32 := 8

def direntType : Option InodeRecord → UInt32
  | none => direntTypeFile
  | some rec =>
    if rec.mode &&& sIFMT = modeDir then 4
    else if rec.mode &&& sIFMT = modeSymlink then 10
    else direntTypeFile

/-- The time of a record that was never given one, as nanoseconds from 1970. -/
def zeroTime : Time := -62135596800 * 10 ^ 9

def unix (t : Time) : UInt64 := UInt64.ofInt (t / 10 ^ 9)

def nanosecond (t : Time) : UInt32 := UInt32.ofNat (t % 10 ^ 9).toNat

def wAttr (rec : InodeRecord) : List UInt8 :=
  [w64 (UInt64.ofNat rec.ino), w64 (UInt64.ofNat rec.size), w64 (UInt64.ofNat rec.blocks),
    w64 (unix rec.atime), w64 (unix rec.mtime), w64 (unix rec.ctime),
    w32 (nanosecond rec.atime), w32 (nanosecond rec.mtime), w32 (nanosecond rec.ctime),
    w32 rec.mode, w32 rec.nlink, w32 rec.uid, w32 rec.gid, w32 rec.rdev, w32 rec.blksize].flatten

/-- What a reply depends on besides the page: the position that was asked for, the records, the
timeouts, and what this node has yet to publish of a record. -/
structure ReplyArgs where
  offset : UInt64
  records : Nat → Option InodeRecord
  entryTimeout : UInt32
  attrTimeout : UInt32
  withPending : InodeRecord → InodeRecord

namespace ReplyArgs

variable (c : ReplyArgs)

def shownRecord (e : ListedEntry) : InodeRecord :=
  c.withPending (e.record.getD ⟨e.ino.toNat, 0, 0, 0, 0, 0, 0, 0, 0, zeroTime, zeroTime, zeroTime⟩)

def entryBytes (plus : Bool) (i : Nat) (e : ListedEntry) : List UInt8 :=
  [w64 e.ino, w32 (UInt32.ofNat e.name.length), e.name,
    [w32 (direntType e.record), w64 (c.offset + UInt64.ofNat i + 1),
      if plus then [wAttr (c.shownRecord e), w32 c.entryTimeout, w32 c.attrTimeout].flatten
      else []].flatten].flatten

def listBytes (plus : Bool) : Nat → List ListedEntry → List UInt8
  | _, [] => []
  | i, e :: es => c.entryBytes plus i e ++ listBytes plus (i + 1) es

def listedEntry (e : DirentEntry) : ListedEntry :=
  ⟨e.name.map fun b => UInt8.ofNat b.toNat, UInt64.ofNat e.ino, c.records e.ino⟩

/-- The reply of `readdirResp` for the page that `direntPage` returns. -/
def readdirResp (plus : Bool) (page : List DirentEntry) : List UInt8 :=
  [w32 0, w32 (UInt32.ofNat page.length), c.listBytes plus 0 (page.map c.listedEntry)].flatten

end ReplyArgs

/-! ## The mount -/

structure EtcfsAttr where
  ino : UInt64
  size : UInt64
  blocks : UInt64
  atime : UInt64
  mtime : UInt64
  ctime : UInt64
  atimeNsec : UInt32
  mtimeNsec : UInt32
  ctimeNsec : UInt32
  mode : UInt32
  nlink : UInt32
  uid : UInt32
  gid : UInt32
  rdev : UInt32
  blksize : UInt32
  deriving DecidableEq, Repr

structure DirentryPlus where
  name : List UInt8
  ino : UInt64
  off : UInt64
  attr : EtcfsAttr
  entryTimeout : UInt32
  attrTimeout : UInt32
  deriving DecidableEq, Repr

def rbAttr : Reader EtcfsAttr := do
  let ino ← rbU64
  let size ← rbU64
  let blocks ← rbU64
  let atime ← rbU64
  let mtime ← rbU64
  let ctime ← rbU64
  let atimeNsec ← rbU32
  let mtimeNsec ← rbU32
  let ctimeNsec ← rbU32
  let mode ← rbU32
  let nlink ← rbU32
  let uid ← rbU32
  let gid ← rbU32
  let rdev ← rbU32
  let blksize ← rbU32
  return ⟨ino, size, blocks, atime, mtime, ctime, atimeNsec, mtimeNsec, ctimeNsec, mode, nlink,
    uid, gid, rdev, blksize⟩

/-- What follows the name of an entry. -/
def rbEntryTail : Reader (UInt64 × EtcfsAttr × UInt32 × UInt32) := do
  let _ ← rbU32
  let dOff ← rbU64
  let a ← rbAttr
  let entryTimeout ← rbU32
  let attrTimeout ← rbU32
  return (dOff, a, entryTimeout, attrTimeout)

/-- The loop of `ec_readdirplus`. The size of an entry in the kernel's buffer is up to the
FUSE library, which takes the name as a C string. -/
def rbEntries (direntSize : List UInt8 → Nat) (bufsz : Nat) (offCookie : UInt64) :
    Nat → Nat → Reader (List DirentryPlus)
  | 0, _ => pure []
  | count + 1, used => do
    let di ← rbU64
    let nl ← rbU32
    match ← rbBytes nl with
    | none => pure []
    | some dn =>
      let t ← rbEntryTail
      if t.1 ≤ offCookie then rbEntries direntSize bufsz offCookie count used
      else
        let r ← get
        let name ← (cString (r.p.drop dn) : Option (List UInt8))
        if direntSize name > bufsz - used then pure []
        else
          let es ← rbEntries direntSize bufsz offCookie count (used + direntSize name)
          return ⟨name, di, t.1, t.2.1, t.2.2.1, t.2.2.2⟩ :: es

/-- Models `ec_readdirplus` on a reply; `none` inside is a request that was answered with
an error. -/
def ecReaddirplus (direntSize : List UInt8 → Nat) (bufsz : Nat) (off : UInt64) :
    Reader (Option (List DirentryPlus)) := do
  let err ← rbU32
  if err ≠ 0 then return none
  else
    let count ← rbU32
    let es ← rbEntries direntSize bufsz off count.toNat 0
    return some es

/-! ## Requests of a daemon's life -/

/-- A request for a page, and the directory as it is when the page is read. -/
structure ListRequest where
  dir : Directory
  ino : Nat
  offset : UInt64
  size : UInt32
  plus : Bool
  now : Time
  later : Time

def ListRequest.answer (q : ListRequest) (c : DirCursors) : List DirentEntry × DirCursors :=
  direntPage q.dir c q.ino q.offset.toNat q.size.toNat q.plus q.now q.later

/-- The cursors of a daemon that has answered these. -/
def cursorsAfter (qs : List ListRequest) : DirCursors :=
  qs.foldl (fun c q => (q.answer c).2) ∅

/-- The buffer of the kernel that asks for a page of this size. -/
def ListRequest.bufsz (q : ListRequest) : Nat := if 0 < q.size then q.size.toNat else 4096

end EtcFS.Ipc
