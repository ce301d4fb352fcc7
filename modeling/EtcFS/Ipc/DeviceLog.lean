import EtcFS.Ipc.Pending

/-!
# The device under writes

A payload goes to the device in groups of adjacent runs. The device may refuse a write, or take less
than it was given without an error.
-/

namespace EtcFS.Ipc

open EtcFS.Core Metadata Arena

inductive DeviceReply where
  /-- No error. The last bytes, so many of them, were not taken. -/
  | wrote (left : Nat)
  | failed
  deriving DecidableEq, Repr

abbrev DeviceLog := List BufferedRun

def writeRun (log : DeviceLog) (r : BufferedRun) : DeviceReply → Bool × DeviceLog
  | .wrote left => (true, log ++ [⟨r.diskOff, r.buf.take (r.buf.length - left)⟩])
  | .failed => (false, log)

def writeGroups (device : Nat → DeviceReply) :
    Nat → DeviceLog → List BufferedRun → Bool × DeviceLog
  | _, log, [] => (true, log)
  | i, log, g :: groups =>
    let w := writeRun log g (device i)
    let rest := writeGroups device (i + 1) w.2 groups
    (w.1 && rest.1, rest.2)

/-- Models `flushData` once the runs are merged: the groups in the order in which they reach the
device, and whether every write went without an error. -/
def flushInOrder (device : Nat → DeviceReply) (order : List BufferedRun) (dev : Bytes) :
    Bool × Bytes :=
  let w := writeGroups device 0 [] order
  (w.1, w.2.foldl Bytes.writeRun dev)

end EtcFS.Ipc
