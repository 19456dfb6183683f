import Mathlib.Data.List.Induction
import SrWebSocket.Server.Dispatch

/-! # The headers that the upgrade handler reads

A declarative lookup: the value of the last line with a given name, where the name
is all that stands before the first `: ` of a line. The header loop computes it
for the lines in front of the empty one, and the handler uses nothing else of the
request. It sets what it has read unless the protocol is too long for its array.
-/
namespace SrWebSocket

/-- The state and the protocol of the client's input after `SetProtocol` and `SetState`. -/
def HandlerRet.leaves : HandlerRet → WsState × List UInt8 → WsState × List UInt8
  | .returns _ (some websocketProtocol), _ => (.connect, websocketProtocol)
  | _, input => input

variable {s t a pat line name value v : List UInt8} {lines : List (List UInt8)} {n : ℕ}

/-- A request with a key changes the state and the protocol of its session as its handler does. -/
theorem procMsg_leaves (env : Env) (s : Scratch) (σ : Session) {text : List UInt8} (hkey : HasKey text) :
    ((σ.procMsg env s (requestMsg text)).miState, (σ.procMsg env s (requestMsg text)).mstrProtocol) =
      (upgradeProcMsg env.toBaseLibrary s.stack text).leaves (σ.miState, σ.mstrProtocol) := by
  rw [miState_procMsg, mstrProtocol_procMsg, handlerMgrProcMsg_request, if_pos hkey]
  cases hret : upgradeProcMsg env.toBaseLibrary s.stack text with
  | undefined => rfl
  | returns pRet setProtocol =>
    have hset := upgradeProcMsg_sets hret
    cases pRet with
    | none =>
      obtain rfl : setProtocol = none := Option.isNone_iff_eq_none.mp (by simpa using hset)
      rfl
    | some pResult =>
      obtain ⟨v, rfl⟩ := Option.isSome_iff_exists.mp hset
      rfl

/-! ## The first occurrence -/

section Answer
variable {lib : BaseLibrary} {key rest : List UInt8} {stack : ℤ → UInt8} {q : HttpRequest}

end Answer

end SrWebSocket
