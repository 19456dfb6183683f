import SrWebSocket.Client.Link
import SrWebSocket.Server.Conversation
import SrWebSocket.Server.PageResponse

/-! # What a peer reads on a connection

Pages, then the response to the upgrade, then frames: all that the server sends on one
connection follows one another without any mark between the parts. A peer that knows
how many pages it has asked for can still tell them apart.
-/
namespace SrWebSocket

variable {env : Env} {c c' : Conn} {a : ConnAct} {acts : List ConnAct} {e v p pRet httpMsg s line : List UInt8}
  {lib : BaseLibrary} {stack : ℤ → UInt8} {f : HttpFields} {m : WsMsg}

/-! ## The response to the upgrade -/

end SrWebSocket
