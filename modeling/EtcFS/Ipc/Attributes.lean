import EtcFS.Metadata.Schema

/-!
# Attribute changes of an inode record

What a setattr, a queued timestamp update and the operations on names write onto a record that the
transaction pins.
-/

namespace EtcFS.Ipc

open EtcFS.Core Metadata Option

/-- The bits of a setattr's valid mask. -/
def fattrMode : UInt32 := 0x1
@[inherit_doc fattrMode] def fattrUID : UInt32 := 0x2
@[inherit_doc fattrMode] def fattrGID : UInt32 := 0x4
@[inherit_doc fattrMode] def fattrSize : UInt32 := 0x8
@[inherit_doc fattrMode] def fattrAtime : UInt32 := 0x10
@[inherit_doc fattrMode] def fattrMtime : UInt32 := 0x20
@[inherit_doc fattrMode] def fattrAtimeNow : UInt32 := 0x80
@[inherit_doc fattrMode] def fattrMtimeNow : UInt32 := 0x100
@[inherit_doc fattrMode] def fattrCtime : UInt32 := 0x400

def sIFMT : UInt32 := 0o170000

structure SetattrFields where
  size : Nat
  mode : UInt32
  uid : UInt32
  gid : UInt32
  atime : Time
  mtime : Time
  ctime : Time

def Selects (valid bits : UInt32) : Prop := valid &&& bits ≠ 0
  deriving Decidable

def applySetattr (rec : InodeRecord) (valid : UInt32) (f : SetattrFields) (now : Time) :
    InodeRecord :=
  { rec with
    size := if Selects valid fattrSize then f.size else rec.size
    mode := if Selects valid fattrMode then (rec.mode &&& sIFMT) ||| (f.mode &&& ~~~ sIFMT)
      else rec.mode
    uid := if Selects valid fattrUID then f.uid else rec.uid
    gid := if Selects valid fattrGID then f.gid else rec.gid
    atime := if Selects valid fattrAtimeNow then now
      else if Selects valid fattrAtime then f.atime else rec.atime
    mtime := if Selects valid fattrMtimeNow then now
      else if Selects valid fattrMtime then f.mtime else rec.mtime
    ctime := if Selects valid (fattrMode ||| fattrUID ||| fattrGID ||| fattrSize) ∧
        ¬ Selects valid fattrCtime then now
      else if Selects valid fattrCtime then f.ctime else rec.ctime }

structure TimeUpdate where
  bump : Option Time
  atime : Option Time
  mtime : Option Time
  ctime : Option Time

def forward (clock : Time) : Option Time → Time
  | none => clock
  | some t => if clock < t then t else clock

def TimeUpdate.apply (u : TimeUpdate) (rec : InodeRecord) : InodeRecord :=
  let assigned := { rec with
    atime := u.atime.getD rec.atime
    mtime := u.mtime.getD rec.mtime
    ctime := forward rec.ctime u.ctime }
  match u.bump with
  | none => assigned
  | some t => if assigned.mtime < t then { assigned with mtime := t, ctime := t } else assigned

theorem size_queued (queued : Option TimeUpdate) (rec : InodeRecord) :
    ((queued.map fun u => u.apply rec).getD rec).size = rec.size := by
  cases queued with
  | none => rfl
  | some u =>
    simp only [map_some, getD_some, TimeUpdate.apply]
    split
    · rfl
    · split <;> rfl

/-! ## Read-modify-writes of a record -/

def modeDir : UInt32 := 0o040000

def modeFile : UInt32 := 0o100000

def unlinkInode (rec : InodeRecord) (now : Time) : Option InodeRecord :=
  if rec.mode &&& sIFMT = modeDir then none
  else if rec.nlink > 1 then some { rec with nlink := rec.nlink - 1, ctime := now }
  else none

inductive RecordOp where
  /-- `commitSetattr`, with the timestamps queued for the inode. -/
  | setattr (valid : UInt32) (f : SetattrFields) (now : Time) (queued : Option TimeUpdate)
  /-- `AtomicLink`. -/
  | link (now : Time)
  /-- `AtomicUnlinkKeepingOpen`. A last link that this node holds open is kept as an orphan. -/
  | unlink (now : Time) (heldOpen : Bool)
  /-- `AtomicRename` over a name of the inode. -/
  | renameOver (now : Time)
  /-- `commitInodeTimes`. -/
  | times (u : TimeUpdate)

def RecordOp.apply (rec : InodeRecord) : RecordOp → Option (Option InodeRecord)
  | .setattr valid f now queued =>
    some (some (applySetattr ((queued.map fun u => u.apply rec).getD rec) valid f now))
  | .link now =>
    if rec.mode &&& sIFMT = modeDir then none
    else some (some { rec with nlink := rec.nlink + 1, ctime := now })
  | .unlink now heldOpen =>
    if rec.nlink ≤ 1 ∧ rec.mode &&& sIFMT ≠ modeDir ∧ heldOpen = true then
      some (some { rec with nlink := 0, ctime := now })
    else some (unlinkInode rec now)
  | .renameOver now => some (unlinkInode rec now)
  | .times u => if u.apply rec = rec then none else some (some (u.apply rec))

def putRecord (ino : Nat) : Option InodeRecord → Op Val
  | some rec => .put (.inode ino) rec
  | none => .delete (.inode ino)

def RecordOp.commit (op : RecordOp) (ino : Nat) (s : Etcd) : Option Etcd := do
  let record ← getInode s ino
  let next ← op.apply record
  s.txn [.modRevisionEq (.inode ino) (s.modRevision (.inode ino))] [putRecord ino next]

end EtcFS.Ipc
