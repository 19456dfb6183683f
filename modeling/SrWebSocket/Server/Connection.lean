import SrWebSocket.Parse.EncodeMsg
import SrWebSocket.Server.UpgradeHandler
import SrWebSocket.Stream.Receiver

/-! # A connection of the server

One `CWsInput` with the handlers that `CWsHandlerMgr::Init` registers. Bytes are
pushed by the network thread; `ProcMsg` moves them into the cache and, before the
upgrade, handles whatever is there as one HTTP request. After the upgrade each
call of `DecodeMsg` is a step of its own, together with what `CWsHandlerMgr`
does with the message that it hands out. Steps also carry what the language does
not fix: the memory that the code looks at before it has written it.
-/
namespace SrWebSocket

/-- `WS_STATE`; no code sets `WS_STATE_UNCONNECT`. -/
inductive WsState where
  | none
  | connect
deriving DecidableEq

inductive Handler where
  | get
  | upgrade
  | echo
deriving DecidableEq

/-- `mmapHandlers` after `Init`. -/
def mmapHandlers : List (List UInt8 × Handler) :=
  [(fieldGet, .get), (fieldWebsocketKey, .upgrade), (wsProtocolEcho, .echo)]

def getHandler (strProtocol : List UInt8) : Option Handler := mmapHandlers.lookup strProtocol

/-- `CWsMsg`, for a client that is present. -/
structure CWsMsg where
  mstrProtocol : List UInt8
  mstrHttpMsg : List UInt8
  mpMsg : Option WsMsg

/-- What the server finds outside its own code: the base library and the bytes of
`index.html`, none when there is no such file. -/
structure Env extends BaseLibrary where
  indexHtml : List UInt8

/-- Memory that a handler gets with unknown contents. -/
structure Scratch where
  stack : ℤ → UInt8
  alloc : ℕ → UInt8

def decimal (n : ℕ) : List UInt8 := (Nat.toDigits 10 n).map fun c => UInt8.ofNat c.toNat

/-- `CWsGetHandler::ProcMsg`; its buffer is empty when the file is. -/
def getProcMsg (env : Env) : List UInt8 :=
  if 0 < env.indexHtml.length then
    ascii "HTTP/1.1 200 OK\r\nContent-Type: html\r\nContent-Length: " ++ decimal env.indexHtml.length ++
      ascii "\r\n\r\n" ++ env.indexHtml
  else []

/-- `CWsEchoHandler::ProcMsg`. -/
def echoProcMsg (alloc : ℕ → UInt8) (pMsg : CWsMsg) : Option (List UInt8) :=
  match pMsg.mpMsg with
  | some msg => encodeMsg 64 alloc msg.pBuffer wsFrameText.toNat
  | none => none

/-- `ProcMsg` of a registered handler. -/
def Handler.procMsg (env : Env) (s : Scratch) (pMsg : CWsMsg) : Handler → HandlerRet
  | .get => .returns (some (getProcMsg env)) none
  | .upgrade => upgradeProcMsg env.toBaseLibrary s.stack pMsg.mstrHttpMsg
  | .echo => .returns (echoProcMsg s.alloc pMsg) none

/-- Whether `CWsHandlerMgr::ProcMsg` passes a message on by its frame type. -/
def IsData (m : WsMsg) : Prop := m.frameType = wsFrameText ∨ m.frameType = wsFrameBinary

instance (m : WsMsg) : Decidable (IsData m) := inferInstanceAs (Decidable (_ ∨ _))

/-- How `CWsHandlerMgr::ProcMsg` is left. -/
inductive ProcExit where
  /-- a control message, deleted -/
  | dropped
  /-- the assertion on the handler, which returns without a `delete` -/
  | noHandler
  /-- a result, sent if it is not empty; result and message deleted -/
  | handled (h : Handler) (pResult : List UInt8) (setProtocol : Option (List UInt8))
  /-- `pResult->GetBuffer()` on NULL -/
  | nullResult (h : Handler)
  | undefined (h : Handler)

/-- `CWsHandlerMgr::ProcMsg`. -/
def handlerMgrProcMsg (env : Env) (s : Scratch) (pMsg : CWsMsg) : ProcExit :=
  if pMsg.mpMsg.all fun m => IsData m then
    match getHandler pMsg.mstrProtocol with
    | none => .noHandler
    | some h =>
      match h.procMsg env s pMsg with
      | .undefined => .undefined h
      | .returns none _ => .nullResult h
      | .returns (some pResult) setProtocol => .handled h pResult setProtocol
  else .dropped

/-- A call of a handler: the state of the input when it was made, and the bytes
handed to `Send`, if any. -/
structure Event where
  state : WsState
  handler : Handler
  sent : Option (List UInt8)
deriving DecidableEq

inductive Fault where
  | nullResult
  | undefined
deriving DecidableEq

/-- What the handlers see of a `CWsInput`, with the handler calls made for it so
far and its `CWsMsg` objects: how many were created, and the numbers of those deleted. -/
structure Session where
  miState : WsState
  mstrProtocol : List UInt8
  events : List Event
  created : ℕ
  deleted : List ℕ
  fault : Option Fault

def Session.start : Session where
  miState := .none
  mstrProtocol := []
  events := []
  created := 0
  deleted := []
  fault := none

/-- A new `CWsMsg` is given to `CWsHandlerMgr::ProcMsg`. -/
def Session.procMsg (env : Env) (s : Scratch) (σ : Session) (pMsg : CWsMsg) : Session :=
  let event (h : Handler) (sent : Option (List UInt8)) : Event := { state := σ.miState, handler := h, sent := sent }
  match handlerMgrProcMsg env s pMsg with
  | .dropped => { σ with created := σ.created + 1, deleted := σ.deleted ++ [σ.created] }
  | .noHandler => { σ with created := σ.created + 1 }
  | .handled h pResult setProtocol =>
    { σ with
      created := σ.created + 1
      deleted := σ.deleted ++ [σ.created]
      events := σ.events ++ [event h (if pResult ≠ [] then some pResult else none)]
      mstrProtocol := setProtocol.getD σ.mstrProtocol
      miState := if setProtocol.isSome then .connect else σ.miState }
  | .nullResult h =>
    { σ with created := σ.created + 1, events := σ.events ++ [event h none], fault := some .nullResult }
  | .undefined h =>
    { σ with created := σ.created + 1, events := σ.events ++ [event h none], fault := some .undefined }

structure Conn extends Receiver, Session where
  mpRecvBuffer : List UInt8

def Conn.start : Conn where
  toReceiver := .start
  toSession := .start
  mpRecvBuffer := []

/-- Whether `ParseMsg` takes the bytes for an HTTP request. -/
def IsGet (pMsg : List UInt8) : Prop := fieldGet <+: cstr pMsg

instance (pMsg : List UInt8) : Decidable (IsGet pMsg) := inferInstanceAs (Decidable (_ <+: _))

/-- `strstr(pMsg, WEBSOCKETKEY)`. -/
def HasKey (pMsg : List UInt8) : Prop := (find fieldWebsocketKey (cstr pMsg)).isSome

instance (pMsg : List UInt8) : Decidable (HasKey pMsg) := inferInstanceAs (Decidable (_ = true))

def requestMsg (pMsg : List UInt8) : CWsMsg where
  mstrProtocol := if HasKey pMsg then fieldWebsocketKey else fieldGet
  mstrHttpMsg := pMsg
  mpMsg := none

def frameMsg (strProtocol : List UInt8) (m : WsMsg) : CWsMsg where
  mstrProtocol := strProtocol
  mstrHttpMsg := []
  mpMsg := some m

/-- The bytes that `ProcMsg` finds in the cache. -/
def Conn.arrived (c : Conn) : List UInt8 := c.mstMsgCache.pBuffer ++ c.mpRecvBuffer

/-- `ParseMsg` before the upgrade. -/
def Conn.parseHttp (env : Env) (s : Scratch) (c : Conn) : Conn :=
  let pWsMsg := requestMsg c.mstMsgCache.pBuffer
  let σ :=
    if IsGet c.mstMsgCache.pBuffer then
      Session.procMsg env s { c.toSession with mstrProtocol := pWsMsg.mstrProtocol } pWsMsg
    else c.toSession
  { c with mstMsgCache := { c.mstMsgCache with pBuffer := [] }, toSession := σ }

/-- `ParseMsg`, up to its loop. -/
def Conn.parseMsg (env : Env) (s : Scratch) (c : Conn) : Conn :=
  if c.mstMsgCache.pBuffer = [] then c
  else
    match c.miState with
    | .none => c.parseHttp env s
    | .connect => { c with parsing := decide (c.mstrProtocol ≠ []) }

/-- What `ProcMsg` does under its lock. -/
def Conn.moveMsg (c : Conn) : Conn :=
  { c with mstMsgCache := c.mstMsgCache.append c.mpRecvBuffer, mpRecvBuffer := [] }

/-- `CWsInput::ProcMsg`, up to the loop of `ParseMsg`. -/
def Conn.procMsg (env : Env) (s : Scratch) (c : Conn) : Conn := c.moveMsg.parseMsg env s

/-- The loop body of `ParseMsg` after a call of `DecodeMsg`. -/
def Conn.afterDecode (env : Env) (s : Scratch) (c : Conn) (ret : DecodeRet) : Conn :=
  let c := { c with toReceiver := c.toReceiver.afterCall ret }
  if ret.iRet = 0 then c
  else
    match ret.pWsMsg with
    | none => c
    | some m => { c with toSession := c.toSession.procMsg env s (frameMsg c.mstrProtocol m) }

inductive ConnAct where
  | push (pMsg : List UInt8)
  | proc (s : Scratch)
  | decode (junk : ℕ → UInt8) (s : Scratch)

/-- No buffer outgrows half of the 64-bit address space. -/
def Conn.step (env : Env) (c : Conn) : ConnAct → Option Conn
  | .push pMsg => if c.fault = none then some { c with mpRecvBuffer := c.mpRecvBuffer ++ pMsg } else none
  | .proc s =>
    if c.fault = none ∧ c.parsing = false ∧ c.arrived.length < 2 ^ 63 then some (c.procMsg env s) else none
  | .decode junk s =>
    if c.fault = none ∧ c.parsing = true then
      (decodeMsg 64 (callFuel c.mstMsgCache) junk c.mstMsgCache c.mpMsg).map (c.afterDecode env s)
    else none

def sampleEnv : Env where
  toBaseLibrary := sampleLibrary
  indexHtml := ascii "<p>hi</p>"

def zeroScratch : Scratch where
  stack := zeroStack
  alloc _ := 0

/-- A client that asks for a protocol and then sends the text `a`. -/
def textRun (protocol : List UInt8) (hlf : (10 : UInt8) ∉ protocol) (hnul : (0 : UInt8) ∉ protocol) : List ConnAct :=
  [.push (sampleRequest protocol hlf hnul).text, .proc zeroScratch, .push [0x81, 1, 97], .proc zeroScratch,
    .decode zeroScratch.alloc zeroScratch, .decode zeroScratch.alloc zeroScratch]

theorem exec_textRun_echo :
    ∃ c, Machine.exec (Conn.step sampleEnv) .start (textRun wsProtocolEcho (by decide) (by decide)) = some c ∧
      c.fault = none := by
  have hrun : (Machine.exec (Conn.step sampleEnv) .start (textRun wsProtocolEcho (by decide) (by decide))).map
      (fun c => c.fault) = some none := by decide +kernel
  exact Option.map_eq_some_iff.mp hrun

end SrWebSocket
