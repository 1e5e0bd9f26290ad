import Nghttp2Asio.Arrival

/-!
Promises at the client. The PUSH_PROMISE of a stream fills the request of the pushed
stream field by field, and the push callback of the parent gets that request if both
streams are still there.
-/
namespace Nghttp2Asio
open Util
variable {α : Type}

namespace Client

def Input.promises : Input → Bool
  | .recv (.frameRecv (.pushPromise _ _)) => true
  | _ => false

end Client

section Lane
variable {ends : Ends α} {link : Link} {id : Int}

end Lane

end Nghttp2Asio
