import SrWebSocket.General.Iteration
import SrWebSocket.Parse.MsgFrame

/-! # The message decoder

`DecodeMsg` runs two loops over the receive buffer of a connection. The scan
moves a cursor over the frames that have arrived, up to the first FIN bit; the
reassembly then walks the same frames again and copies their payloads into a new
message. The cache keeps the cursor and the running totals between calls. Memory
behind the used bytes may change from call to call and is a parameter of each.
-/
namespace SrWebSocket

/-- `tagWsMsg`. -/
structure WsMsg where
  pBuffer : List UInt8
  frameType : UInt8
deriving DecidableEq

/-- `tagWsMsgCache`; the flag `iComplete` only ever holds 0 or 1. -/
structure WsMsgCache where
  pBuffer : List UInt8
  iCurFrameIndex : ℕ
  iCurFrameLen : ℕ
  iTotalFrameLen : ℕ
  iComplete : Bool
deriving DecidableEq

/-- A newly constructed cache whose buffer holds `bytes`. -/
def WsMsgCache.fresh (bytes : List UInt8) : WsMsgCache where
  pBuffer := bytes
  iCurFrameIndex := 0
  iCurFrameLen := 0
  iTotalFrameLen := 0
  iComplete := false

/-- `CMemBuffer::Append` on the buffer of the cache. -/
def WsMsgCache.append (c : WsMsgCache) (bytes : List UInt8) : WsMsgCache :=
  { c with pBuffer := c.pBuffer ++ bytes }

/-! ## The scan -/

/-- How the scan loop is left: at its end or by `break`, with the value of `iRet`,
or by the assertion on `TryDecodeLen`, which returns from `DecodeMsg`. -/
inductive ScanExit where
  | leave (iRet : ℕ) (pMsgCache : WsMsgCache)
  | assertFailed (pMsgCache : WsMsgCache)
deriving DecidableEq

/-- One iteration of the scan loop. -/
def scanStep (w : ℕ) (junk : ℕ → UInt8) (c : WsMsgCache) : WsMsgCache ⊕ ScanExit :=
  if addSize w wsMinMsgExpectLen c.iCurFrameIndex ≤ c.pBuffer.length then
    let pMsgPkg := memory c.pBuffer junk
    let bFin := decide (pMsgPkg c.iCurFrameIndex &&& 0x80 = 0x80)
    match tryDecodeLen w fun i => pMsgPkg (c.iCurFrameIndex + i) with
    | none => .inr (.assertFailed c)
    | some stFrame =>
      let c := { c with iCurFrameLen := stFrame.expectsize }
      if addSize w c.iCurFrameLen c.iCurFrameIndex ≤ c.pBuffer.length then
        let c := { c with
          iTotalFrameLen := addSize w c.iTotalFrameLen stFrame.payloadLength
          iCurFrameIndex := addSize w c.iCurFrameIndex c.iCurFrameLen
          iCurFrameLen := 0 }
        if bFin then .inr (.leave 1 { c with iComplete := true }) else .inl c
      else .inr (.leave 0 c)
  else .inr (.leave 0 c)

/-! ## The reassembly -/

structure Reassembly where
  iOffset : ℕ
  iPayloadOffset : ℕ
  pWsMsg : Option WsMsg
deriving DecidableEq

/-- How the reassembly loop is left: at its end, or by one of its two assertions,
both of which return 1 from `DecodeMsg`. -/
inductive ReassemblyExit where
  | leave (r : Reassembly)
  | assertFailed (pWsMsg : Option WsMsg)
deriving DecidableEq

/-- One iteration of the reassembly loop; it reads the cache and never changes it. -/
def reassembleStep (w : ℕ) (junk : ℕ → UInt8) (c : WsMsgCache) (r : Reassembly) :
    Reassembly ⊕ ReassemblyExit :=
  if r.iOffset < c.iCurFrameIndex ∧ r.iPayloadOffset ≤ c.iTotalFrameLen then
    let pMsgPkg := memory c.pBuffer junk
    let pTmpWsMsg := r.pWsMsg.getD { pBuffer := [], frameType := 0 }
    match tryDecodeLen w fun i => pMsgPkg (r.iOffset + i) with
    | none => .inr (.assertFailed (some pTmpWsMsg))
    | some stFrame =>
      let frameType := if pTmpWsMsg.frameType = 0 then stFrame.frameType else pTmpWsMsg.frameType
      if frameType = stFrame.frameType ∨ stFrame.frameType = wsFrameContinuation then
        let pBuffer := pTmpWsMsg.pBuffer ++
          slice pMsgPkg (r.iOffset + stFrame.payloadOffset) stFrame.payloadLength
        let pBuffer :=
          if stFrame.mask ∧ 4 < stFrame.payloadOffset then
            let maskingKey := fun i => pMsgPkg (r.iOffset + stFrame.payloadOffset - 4 + i)
            xorLoop maskingKey r.iPayloadOffset stFrame.payloadLength pBuffer
          else pBuffer
        .inl {
          iOffset := addSize w r.iOffset stFrame.expectsize
          iPayloadOffset := addSize w r.iPayloadOffset stFrame.payloadLength
          pWsMsg := some { pBuffer := pBuffer, frameType := frameType } }
      else .inr (.assertFailed (some { pTmpWsMsg with frameType := frameType }))
  else .inr (.leave r)

structure DecodeRet where
  iRet : ℕ
  pMsgCache : WsMsgCache
  pWsMsg : Option WsMsg
deriving DecidableEq

/-- The part of `DecodeMsg` under `if (pMsgCache->iComplete)`. -/
def reassemble (w fuel : ℕ) (junk : ℕ → UInt8) (iRet : ℕ) (c : WsMsgCache) (pWsMsg : Option WsMsg) :
    Option DecodeRet :=
  match Iteration.run (reassembleStep w junk c) fuel
      { iOffset := 0, iPayloadOffset := 0, pWsMsg := pWsMsg } with
  | none => none
  | some (.assertFailed pWsMsg) => some ⟨1, c, pWsMsg⟩
  | some (.leave r) =>
    if (r.pWsMsg.map fun m => m.pBuffer.length) = some c.iTotalFrameLen then
      let iRemain := subSize w c.pBuffer.length r.iOffset
      some {
        iRet := iRet
        pMsgCache :=
          { pBuffer := slice (memory c.pBuffer junk) r.iOffset iRemain
            iCurFrameIndex := subSize w c.iCurFrameIndex r.iOffset
            iCurFrameLen := 0
            iTotalFrameLen := subSize w c.iTotalFrameLen r.iPayloadOffset
            iComplete := false }
        pWsMsg := r.pWsMsg }
    else some ⟨1, c, r.pWsMsg⟩

/-- `CWsMsgParse::DecodeMsg`. Each of its loops is given `fuel` iterations; `none`
says that one of them is not over by then. -/
def decodeMsg (w fuel : ℕ) (junk : ℕ → UInt8) (c : WsMsgCache) (pWsMsg : Option WsMsg) :
    Option DecodeRet :=
  if c.pBuffer.length < addSize w c.iCurFrameLen c.iCurFrameIndex then some ⟨0, c, pWsMsg⟩
  else
    match Iteration.run (scanStep w junk) fuel c with
    | none => none
    | some (.assertFailed c) => some ⟨0, c, pWsMsg⟩
    | some (.leave iRet c) =>
      if c.iComplete then reassemble w fuel junk iRet c pWsMsg else some ⟨iRet, c, pWsMsg⟩

end SrWebSocket
