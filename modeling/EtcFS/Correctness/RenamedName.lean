import EtcFS.Namespace.Keeps

/-!
# The name a rename takes away

A rename's transaction compares that the old name exists, and not what it refers to.
-/

namespace EtcFS.Correctness

open EtcFS.Core Namespace Ipc
open Metadata hiding Key Val getInode

end EtcFS.Correctness
