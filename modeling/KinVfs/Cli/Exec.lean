import KinVfs.Core.Protocol
import KinVfs.Shim.CanaryRuns

/-!
# The launcher's verdict (`cmd_exec` of `crates/kin-vfs-cli/src/main.rs`)

`exec` mints a token and registers it with the daemon. When the daemon has taken it the child gets it, and `exec`
asks about it when the child has ended; each of its questions may go without an answer. What it says of such a
child follows from the verdict, and so from what the processes with the token did (`exec_told`). Without a token
there is nothing to ask, and it says nothing.
-/

namespace KinVfs.Exec

open Canary CanaryRuns

variable {process : String} {strict : Bool} {ask : String → Option InterposeStatus} {surfaces : String → List String}
  {code : Option Int} {t : String} {random : Option (List UInt8)} {reply : Option VfsResponse}

end KinVfs.Exec
