import EtcFS.Core.Submission
import EtcFS.Ipc.File

/-!
# A guarded commit under faults

The commit when requests and replies may be lost and the read that tells a fence apart may fail.
-/

namespace EtcFS.Ipc

open EtcFS.Core Metadata Arena

def Node.fenced (n : Node) (s : Etcd) : Bool :=
  ((s.get (.gen n.id)).map Versioned.value).getD 0 != n.gen

inductive CommitResult where
  | committed
  | fenced
  | rejected
  | failed
  deriving DecidableEq, Repr

def commitGuarded (n : Node) (cmps : List (Cmp Val)) (ops : List (Op Val))
    (replies : List Reply) (checked : Bool) (s : Etcd) : CommitResult × Etcd :=
  match Store.submit (n.guard :: cmps) ops (replies.take etcdAttempts) s with
  | (.committed, t) => (.committed, t)
  | (.failed, t) => (.failed, t)
  | (.rejected, t) => (if checked && n.fenced t then .fenced else .rejected, t)

end EtcFS.Ipc
