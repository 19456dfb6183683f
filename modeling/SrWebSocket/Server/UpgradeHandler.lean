import SrWebSocket.General.Memory
import SrWebSocket.Server.HttpText

/-! # The upgrade handler

The response to an upgrade request is built by four chained calls of `snprintf`
on a local array of 600 bytes. Each call adds the length it would have written to
`iOffset`, and the next one takes the difference to 600 as its size. The array is
shown with the memory around it, so that a call or a read that leaves it has a
meaning too.
-/
namespace SrWebSocket

/-- The parts of the base library that the handler uses: `COpensslSha::Sha1` and
`COpensslBase64::Base64Encode`, where `none` is NULL. -/
structure BaseLibrary where
  sha1 : List UInt8 → List UInt8
  base64Encode : List UInt8 → Option (List UInt8)

/-- A digest has 20 bytes, and 20 bytes are encoded by 28 characters. -/
structure BaseLibrary.Works (lib : BaseLibrary) : Prop where
  sha1_length : ∀ s, (lib.sha1 s).length = 20
  base64_length : ∀ s, s.length = 20 → ∃ e, lib.base64Encode s = some e ∧ e.length = 28 ∧ (0 : UInt8) ∉ e

def wsUpgradeResponseLen : ℤ := 600

def toInt (n : ℤ) : ℤ := n.bmod (2 ^ 32)

def toSize (n : ℤ) : ℕ := (n % 2 ^ 64).toNat

/-- The local array `szTmp`, at index 0, with the memory around it, and `iOffset`. -/
structure Response where
  szTmp : ℤ → UInt8
  iOffset : ℤ

/-- `iOffset += snprintf(szTmp + iOffset, WS_UPGRADE_RESPONSE_LEN - iOffset, ..)` for a
call that formats `text`. -/
def Response.snprintf (r : Response) (text : List UInt8) : Response where
  szTmp i :=
    let size := toSize (toInt (wsUpgradeResponseLen - r.iOffset))
    let n := min text.length (size - 1)
    if r.iOffset ≤ i ∧ i < r.iOffset + n then text.getD (i - r.iOffset).toNat 0
    else if i = r.iOffset + n ∧ 0 < size then 0
    else r.szTmp i
  iOffset := toInt (r.iOffset + text.length)

def statusLines : List UInt8 :=
  ascii "HTTP/1.1 101 Switching Protocols\r\nUpgrade: websocket\r\nConnection: upgrade\r\nSec-WebSocket-Accept: "

def protocolLine (websocketProtocol : List UInt8) : List UInt8 :=
  ascii "\r\nSec-WebSocket-Protocol: " ++ cstr websocketProtocol

def blankLine : List UInt8 := ascii "\r\n\r\n"

/-- The array before each `snprintf`, and last at `Append`. -/
def responseSteps (pEncode websocketProtocol : List UInt8) (stack : ℤ → UInt8) : List Response :=
  let r₀ : Response := { szTmp := stack, iOffset := 0 }
  let r₁ := r₀.snprintf statusLines
  let r₂ := r₁.snprintf (cstr pEncode)
  let r₃ := if websocketProtocol ≠ [] then r₂.snprintf (protocolLine websocketProtocol) else r₂
  let r₄ := r₃.snprintf blankLine
  [r₀, r₁, r₂, r₃, r₄]

/-- `pRet->Append(szTmp, iOffset)`. -/
def Response.append (r : Response) : List UInt8 := (List.range (toSize r.iOffset)).map fun i : ℕ => r.szTmp i

def appended (steps : List Response) : List UInt8 := (steps.getLast?.map Response.append).getD []

def guid : List UInt8 := ascii "258EAFA5-E914-47DA-95CA-C5AB0DC85B11"

/-- The value of `Sec-WebSocket-Accept`. -/
def BaseLibrary.accept (lib : BaseLibrary) (websocketKey : List UInt8) : Option (List UInt8) :=
  lib.base64Encode (lib.sha1 (cstr (websocketKey ++ guid)))

/-- What a handler's `ProcMsg` does: something that the language leaves undefined,
or a return of `pRet`, with the protocol that it has set, if any. -/
inductive HandlerRet where
  | undefined
  | returns (pRet : Option (List UInt8)) (setProtocol : Option (List UInt8))
deriving DecidableEq

/-- `CWsUpgradeHandler::ProcMsg` for a message with a client. With the protocol it
sets the state to `WS_STATE_CONNECT`. -/
def upgradeProcMsg (lib : BaseLibrary) (stack : ℤ → UInt8) (httpMsg : List UInt8) : HandlerRet :=
  match readFields httpMsg with
  | none => .undefined
  | some f =>
    if f.websocketKey = [] then .returns none none
    else
      match lib.accept f.websocketKey with
      | none => .returns none none
      | some pEncode =>
        if pEncode = [] then .returns none none
        else
          let steps := responseSteps pEncode f.websocketProtocol stack
          -- past the end of the array the calls and the `Append` are undefined
          if steps.all fun r => 0 ≤ r.iOffset ∧ r.iOffset ≤ wsUpgradeResponseLen then
            .returns (some (appended steps))
              (some (if f.websocketProtocol ≠ [] then f.websocketProtocol else wsProtocolBlank))
          else .undefined

/-! ## The response that is meant -/

def responseText (pEncode websocketProtocol : List UInt8) : List UInt8 :=
  statusLines ++ pEncode ++
    (if websocketProtocol ≠ [] then ascii "\r\nSec-WebSocket-Protocol: " ++ websocketProtocol else []) ++ blankLine

/-- `iOffset` stays in the array and exactly the response is appended. -/
def ResponseExact (pEncode websocketProtocol : List UInt8) (stack : ℤ → UInt8) : Prop :=
  (∀ r ∈ responseSteps pEncode websocketProtocol stack, r.iOffset ≤ wsUpgradeResponseLen) ∧
    appended (responseSteps pEncode websocketProtocol stack) = responseText pEncode websocketProtocol

/-- The array holds `bytes` and `iOffset` stands behind them. -/
def Response.Holds (r : Response) (bytes : List UInt8) : Prop :=
  r.iOffset = bytes.length ∧ ∀ i (hi : i < bytes.length), r.szTmp i = bytes[i]

variable {r : Response} {bytes text v e : List UInt8} {stack : ℤ → UInt8}

theorem upgradeProcMsg_sets {lib : BaseLibrary} {httpMsg : List UInt8} {pRet setProtocol : Option (List UInt8)}
    (h : upgradeProcMsg lib stack httpMsg = .returns pRet setProtocol) : setProtocol.isSome = pRet.isSome := by
  unfold upgradeProcMsg at h
  split at h
  · cases h
  dsimp only at h
  split at h
  · cases h
    rfl
  split at h
  · cases h
    rfl
  split at h
  · cases h
    rfl
  split at h
  · cases h
    rfl
  · cases h

theorem toInt_of_le {n : ℤ} (h0 : 0 ≤ n) (h : n ≤ 1000) : toInt n = n := by
  unfold toInt Int.bmod
  dsimp only
  split <;> omega

theorem toSize_of_nonneg {n : ℤ} (h0 : 0 ≤ n) (h : n ≤ 1000) : toSize n = n.toNat := by
  unfold toSize
  omega

theorem neg_le_toInt (n : ℤ) : -(2 ^ 31) ≤ toInt n := by
  unfold toInt Int.bmod
  dsimp only
  split <;> omega

theorem toSize_le {n : ℤ} (hlow : -(2 ^ 31) ≤ n) (h : n ≤ wsUpgradeResponseLen) (hsize : toSize n < 2 ^ 64 - 2 ^ 31) :
    toSize n ≤ 600 := by
  unfold toSize wsUpgradeResponseLen at *
  omega

theorem holds_start (stack : ℤ → UInt8) : Response.Holds { szTmp := stack, iOffset := 0 } [] :=
  ⟨rfl, fun i hi => absurd hi (Nat.not_lt_zero i)⟩

theorem snprintf_iOffset (r : Response) (text : List UInt8) :
    (r.snprintf text).iOffset = toInt (r.iOffset + text.length) := rfl

theorem holds_snprintf_offset (h : r.Holds bytes) (hfit : bytes.length + text.length ≤ 1000) :
    (r.snprintf text).iOffset = (bytes ++ text).length := by
  have hoff := h.1
  rw [snprintf_iOffset, hoff, List.length_append, toInt_of_le] <;> omega

theorem Response.Holds.snprintf (h : r.Holds bytes) (hfit : bytes.length + text.length < 600) :
    (r.snprintf text).Holds (bytes ++ text) := by
  obtain ⟨hoff, hmem⟩ := h
  refine ⟨holds_snprintf_offset ⟨hoff, hmem⟩ (by omega), fun i hi => ?_⟩
  have hsize : toSize (toInt (wsUpgradeResponseLen - r.iOffset)) = 600 - bytes.length := by
    unfold wsUpgradeResponseLen
    rw [toInt_of_le (by omega) (by omega), toSize_of_nonneg (by omega) (by omega)]
    omega
  have hmin : min text.length (600 - bytes.length - 1) = text.length := by omega
  rw [List.length_append] at hi
  unfold Response.snprintf
  dsimp only
  rw [hsize, hmin, hoff]
  by_cases hlt : i < bytes.length
  · rw [if_neg (by omega), if_neg (by omega), hmem i hlt, List.getElem_append_left hlt]
  · have hk : ((i : ℤ) - bytes.length).toNat = i - bytes.length := by omega
    rw [if_pos (by omega), hk, List.getElem_append_right (by omega), List.getD_eq_getElem _ _ (by omega)]

theorem Response.Holds.append (h : r.Holds bytes) (hlen : bytes.length ≤ 1000) : r.append = bytes := by
  have hsize : toSize r.iOffset = bytes.length := by
    rw [h.1, toSize_of_nonneg (by omega) (by omega)]
    omega
  apply List.ext_getElem
  · simp [Response.append, hsize]
  · intro i hi hi'
    simp only [Response.append, List.getElem_map, List.getElem_range]
    exact h.2 i hi'

/-! ## When the response is exact -/

def protocolPart (v : List UInt8) : List UInt8 :=
  if v ≠ [] then ascii "\r\nSec-WebSocket-Protocol: " ++ v else []

theorem responseText_eq (e v : List UInt8) : responseText e v = statusLines ++ e ++ protocolPart v ++ blankLine := rfl

theorem length_statusLines : statusLines.length = 97 := by decide

theorem length_blankLine : blankLine.length = 4 := by decide

theorem length_protocolPart (v : List UInt8) : (protocolPart v).length = if v ≠ [] then 26 + v.length else 0 := by
  have hname : (ascii "\r\nSec-WebSocket-Protocol: ").length = 26 := by decide
  unfold protocolPart
  split
  · rw [List.length_append, hname]
  · rfl

section Steps
variable (e v : List UInt8) (stack : ℤ → UInt8)

def afterAccept : Response :=
  (Response.snprintf { szTmp := stack, iOffset := 0 } statusLines).snprintf (cstr e)

def afterProtocol : Response :=
  if v ≠ [] then (afterAccept e stack).snprintf (protocolLine v) else afterAccept e stack

theorem responseSteps_eq :
    responseSteps e v stack =
      [{ szTmp := stack, iOffset := 0 }, Response.snprintf { szTmp := stack, iOffset := 0 } statusLines,
        afterAccept e stack, afterProtocol e v stack, (afterProtocol e v stack).snprintf blankLine] := rfl

theorem appended_eq : appended (responseSteps e v stack) = ((afterProtocol e v stack).snprintf blankLine).append := rfl

end Steps

theorem holds_statusLines (stack : ℤ → UInt8) :
    (Response.snprintf { szTmp := stack, iOffset := 0 } statusLines).Holds statusLines := by
  have hfit : ([] : List UInt8).length + statusLines.length < 600 := by
    rw [length_statusLines]
    decide
  have h := (holds_start stack).snprintf hfit
  rwa [List.nil_append] at h

theorem holds_accept (he : e.length = 28) (hz : (0 : UInt8) ∉ e) (stack : ℤ → UInt8) :
    (afterAccept e stack).Holds (statusLines ++ e) := by
  rw [afterAccept, cstr_eq_self hz]
  exact (holds_statusLines stack).snprintf (by rw [length_statusLines, he]; decide)

theorem holds_protocol (he : e.length = 28) (hz : (0 : UInt8) ∉ e) (hv : (0 : UInt8) ∉ v) (hlen : v.length ≤ 445)
    (stack : ℤ → UInt8) : (afterProtocol e v stack).Holds (statusLines ++ e ++ protocolPart v) := by
  have hacc := holds_accept he hz stack
  have hpart := length_protocolPart v
  unfold afterProtocol
  by_cases hnil : v ≠ []
  · rw [if_pos hnil] at hpart ⊢
    have hline : protocolLine v = protocolPart v := by rw [protocolLine, cstr_eq_self hv, protocolPart, if_pos hnil]
    rw [hline]
    exact hacc.snprintf (by rw [List.length_append, length_statusLines, he, hpart]; omega)
  · rw [if_neg hnil, protocolPart, if_neg hnil, List.append_nil]
    exact hacc

theorem afterProtocol_iOffset (he : e.length = 28) (hz : (0 : UInt8) ∉ e) (hv : (0 : UInt8) ∉ v) (hnil : v ≠ [])
    (stack : ℤ → UInt8) : (afterProtocol e v stack).iOffset = toInt (151 + v.length) := by
  have hpart := length_protocolPart v
  rw [if_pos hnil] at hpart
  have hline : (protocolLine v).length = 26 + v.length := by
    rw [← hpart, protocolLine, cstr_eq_self hv, protocolPart, if_pos hnil]
  rw [afterProtocol, if_pos hnil, snprintf_iOffset, (holds_accept he hz stack).1, hline, List.length_append,
    length_statusLines, he]
  congr 1
  omega

theorem length_responseText (he : e.length = 28) :
    (responseText e v).length = 129 + (protocolPart v).length := by
  rw [responseText_eq, List.length_append, List.length_append, List.length_append, length_statusLines, he,
    length_blankLine]
  omega

theorem responseExact_of_le (he : e.length = 28) (hz : (0 : UInt8) ∉ e) (hv : (0 : UInt8) ∉ v)
    (hlen : v.length ≤ 444) (stack : ℤ → UInt8) :
    (∀ r ∈ responseSteps e v stack, 0 ≤ r.iOffset ∧ r.iOffset ≤ wsUpgradeResponseLen) ∧
      appended (responseSteps e v stack) = responseText e v := by
  have hpart : (protocolPart v).length ≤ 470 := by
    rw [length_protocolPart]
    split <;> omega
  have hstatus := holds_statusLines stack
  have hacc := holds_accept he hz stack
  have hprot := holds_protocol he hz hv (by omega) stack
  have hpre : (statusLines ++ e ++ protocolPart v).length = 125 + (protocolPart v).length := by
    rw [List.length_append, List.length_append, length_statusLines, he]
  have hend := hprot.snprintf (by rw [hpre, length_blankLine]; omega : _ + blankLine.length < 600)
  rw [← responseText_eq] at hend
  have hall := length_responseText (v := v) he
  constructor
  · intro r hr
    have hoff : ∃ bytes : List UInt8, r.Holds bytes ∧ bytes.length ≤ 600 := by
      rw [responseSteps_eq] at hr
      simp only [List.mem_cons, List.not_mem_nil, or_false] at hr
      rcases hr with rfl | rfl | rfl | rfl | rfl
      · exact ⟨[], holds_start stack, by decide⟩
      · exact ⟨_, hstatus, by rw [length_statusLines]; decide⟩
      · exact ⟨_, hacc, by rw [List.length_append, length_statusLines, he]; decide⟩
      · exact ⟨_, hprot, by omega⟩
      · exact ⟨_, hend, by omega⟩
    obtain ⟨bytes, ⟨hb, _⟩, hle⟩ := hoff
    unfold wsUpgradeResponseLen
    omega
  · rw [appended_eq]
    exact hend.append (by omega)

/-- With 445 bytes the last byte of the response is a NUL, and with more `iOffset`
leaves the array. -/
theorem length_le_of_responseExact (he : e.length = 28) (hz : (0 : UInt8) ∉ e) (hv : (0 : UInt8) ∉ v)
    (hsmall : v.length < 2 ^ 63) (h : ResponseExact e v stack) : v.length ≤ 444 := by
  by_contra hlong
  have hnil : v ≠ [] := by
    rintro rfl
    exact hlong (Nat.zero_le _)
  have hpart := length_protocolPart v
  rw [if_pos hnil] at hpart
  obtain ⟨hoffs, htext⟩ := h
  have hoff₄ : ((afterProtocol e v stack).snprintf blankLine).iOffset = toInt (toInt (151 + v.length) + 4) := by
    rw [snprintf_iOffset, afterProtocol_iOffset he hz hv hnil, length_blankLine]
    rfl
  have hlast := hoffs _ (by rw [responseSteps_eq]; simp : (afterProtocol e v stack).snprintf blankLine ∈ _)
  rw [hoff₄] at hlast
  rw [appended_eq] at htext
  have hsize : toSize (toInt (toInt (151 + v.length) + 4)) = 155 + v.length := by
    have := congrArg List.length htext
    rw [length_responseText he, hpart] at this
    simp only [Response.append, List.length_map, List.length_range, hoff₄] at this
    omega
  have hle := toSize_le (neg_le_toInt _) hlast (by omega)
  have h445 : v.length = 445 := by omega
  have hprot := holds_protocol he hz hv (by omega) stack
  have hpre : (statusLines ++ e ++ protocolPart v).length = 596 := by
    rw [List.length_append, List.length_append, length_statusLines, he, hpart, h445]
  have hnul : ((afterProtocol e v stack).snprintf blankLine).szTmp 599 = 0 := by
    have hroom : toSize (toInt (wsUpgradeResponseLen - (596 : ℕ))) = 4 := by decide
    unfold Response.snprintf
    dsimp only
    rw [hprot.1, hpre, hroom, length_blankLine, if_neg (by omega), if_pos (by omega)]
  have hget : (responseText e v)[599]? = some 10 := by
    rw [responseText_eq, List.getElem?_append_right (by omega), hpre]
    decide
  rw [← htext] at hget
  have hrange : (List.range (toSize ((afterProtocol e v stack).snprintf blankLine).iOffset))[599]? = some 599 := by
    rw [hoff₄, hsize, h445, List.getElem?_range (by omega)]
  simp only [Response.append, List.getElem?_map, hrange, Option.map_some] at hget
  have hcast : ((599 : ℕ) : ℤ) = 599 := rfl
  rw [hcast, hnul] at hget
  exact absurd hget (by decide)

def protocolOf (f : HttpFields) : List UInt8 :=
  if f.websocketProtocol ≠ [] then f.websocketProtocol else wsProtocolBlank

theorem BaseLibrary.Works.accept {lib : BaseLibrary} (hlib : lib.Works) (websocketKey : List UInt8) :
    ∃ e, lib.accept websocketKey = some e ∧ e.length = 28 ∧ (0 : UInt8) ∉ e :=
  hlib.base64_length _ (hlib.sha1_length _)

/-- With a key the handler returns unless `iOffset` leaves the array. -/
theorem upgradeProcMsg_key {lib : BaseLibrary} {httpMsg pEncode : List UInt8} {f : HttpFields}
    (hf : readFields httpMsg = some f) (hkey : f.websocketKey ≠ []) (he : lib.accept f.websocketKey = some pEncode)
    (hne : pEncode ≠ []) (stack : ℤ → UInt8) :
    upgradeProcMsg lib stack httpMsg =
      if ∀ r ∈ responseSteps pEncode f.websocketProtocol stack, 0 ≤ r.iOffset ∧ r.iOffset ≤ wsUpgradeResponseLen then
        .returns (some (appended (responseSteps pEncode f.websocketProtocol stack))) (some (protocolOf f))
      else .undefined := by
  unfold upgradeProcMsg
  rw [hf]
  dsimp only
  rw [if_neg hkey, he]
  dsimp only
  rw [if_neg hne]
  apply if_congr _ rfl rfl
  simp only [List.all_eq_true, decide_eq_true_eq]

/-- A request with a key and a protocol of at most 444 bytes gets the response that is meant. -/
theorem upgradeProcMsg_eq {lib : BaseLibrary} {httpMsg pEncode : List UInt8} {f : HttpFields} (hlib : lib.Works)
    (hf : readFields httpMsg = some f) (hkey : f.websocketKey ≠ []) (he : lib.accept f.websocketKey = some pEncode)
    (hlen : f.websocketProtocol.length ≤ 444) (stack : ℤ → UInt8) :
    upgradeProcMsg lib stack httpMsg =
      .returns (some (responseText pEncode f.websocketProtocol)) (some (protocolOf f)) := by
  obtain ⟨e, he', hlen', hz⟩ := hlib.accept f.websocketKey
  obtain rfl := Option.some.inj (he.symm.trans he')
  obtain ⟨hin, htext⟩ := responseExact_of_le hlen' hz (readFields_zero hf).2 hlen stack
  have hne : pEncode ≠ [] := by
    rintro rfl
    exact absurd hlen' (by decide)
  rw [upgradeProcMsg_key hf hkey he hne, if_pos hin, htext]

/-- The response to a request with a key is built inside its array, and is the one
that is meant, exactly when the protocol has at most 444 bytes. -/
theorem responseExact_iff (lib : BaseLibrary) (hlib : lib.Works) (httpMsg : List UInt8) (f : HttpFields)
    (hf : readFields httpMsg = some f) (hkey : f.websocketKey ≠ []) (hsmall : f.websocketProtocol.length < 2 ^ 63)
    (stack : ℤ → UInt8) :
    ∃ pEncode, lib.accept f.websocketKey = some pEncode ∧
      (ResponseExact pEncode f.websocketProtocol stack ↔ f.websocketProtocol.length ≤ 444) ∧
      (f.websocketProtocol.length ≤ 444 → upgradeProcMsg lib stack httpMsg =
        .returns (some (responseText pEncode f.websocketProtocol)) (some (protocolOf f))) := by
  obtain ⟨e, he, hlen, hz⟩ := hlib.accept f.websocketKey
  have hv := (readFields_zero hf).2
  refine ⟨e, he, ⟨length_le_of_responseExact hlen hz hv hsmall, fun hle => ?_⟩,
    fun hle => upgradeProcMsg_eq hlib hf hkey he hle stack⟩
  obtain ⟨hin, htext⟩ := responseExact_of_le hlen hz hv hle stack
  exact ⟨fun r hr => (hin r hr).2, htext⟩

/-- A base library that answers one key, `dGhlIHNhbXBsZSBub25jZQ==`, as the real one does. -/
def sampleLibrary : BaseLibrary where
  sha1 _ := [0xb3, 0x7a, 0x4f, 0x2c, 0xc0, 0x62, 0x4f, 0x16, 0x90, 0xf6, 0x46, 0x06, 0xcf, 0x38, 0x59, 0x45, 0xb2,
    0xbe, 0xc4, 0xea]
  base64Encode _ := some (ascii "s3pPLMBiTxaQ9kYGzzhZRbK+xOo=")

theorem sampleLibrary_works : sampleLibrary.Works where
  sha1_length _ := rfl
  base64_length _ _ := ⟨_, rfl, by decide, by decide⟩

def sampleRequest (protocol : List UInt8) (hlf : (10 : UInt8) ∉ protocol) (hnul : (0 : UInt8) ∉ protocol) :
    HttpRequest where
  lines := [ascii "GET /chat HTTP/1.1", fieldWebsocketKey ++ ascii ": " ++ ascii "dGhlIHNhbXBsZSBub25jZQ==",
    fieldWebsocketProtocol ++ ascii ": " ++ protocol]
  valid := by
    have hlf' : (10 : UInt8) ∉ fieldWebsocketProtocol ++ ascii ": " := by decide
    have hnul' : (0 : UInt8) ∉ fieldWebsocketProtocol ++ ascii ": " := by decide
    intro l hl
    simp only [List.mem_cons, List.not_mem_nil, or_false] at hl
    rcases hl with rfl | rfl | rfl
    · decide
    · decide
    · refine ⟨by simp [fieldWebsocketProtocol, ascii], fun hm => ?_, fun hm => ?_⟩
      · exact (List.mem_append.mp hm).elim hlf' hlf
      · exact (List.mem_append.mp hm).elim hnul' hnul

theorem sampleRequest_fields {protocol : List UInt8} (hlf : (10 : UInt8) ∉ protocol) (hnul : (0 : UInt8) ∉ protocol) :
    (sampleRequest protocol hlf hnul).fields =
      { websocketKey := ascii "dGhlIHNhbXBsZSBub25jZQ==", websocketProtocol := protocol } := by
  have hp := fieldOf_line (by decide : (58 : UInt8) ∉ fieldWebsocketProtocol) protocol
  have hk := fieldOf_line (by decide : (58 : UInt8) ∉ fieldWebsocketKey) (ascii "dGhlIHNhbXBsZSBub25jZQ==")
  have hg : fieldOf (ascii "GET /chat HTTP/1.1") = none := by decide
  have hkp : fieldWebsocketKey ≠ fieldWebsocketProtocol := by decide
  simp only [HttpRequest.fields, sampleRequest, lastValue, hp, hk, hg, if_true, hkp, hkp.symm, if_false]

def zeroStack : ℤ → UInt8 := fun _ => 0

theorem responseExact_echo :
    ResponseExact (ascii "s3pPLMBiTxaQ9kYGzzhZRbK+xOo=") wsProtocolEcho zeroStack := by
  have hf := (sampleRequest wsProtocolEcho (by decide) (by decide)).readFields_text
  rw [sampleRequest_fields] at hf
  obtain ⟨e, he, hiff, _⟩ := responseExact_iff sampleLibrary sampleLibrary_works _ _ hf (by decide) (by decide) zeroStack
  obtain rfl := Option.some.inj he
  exact hiff.mpr (by decide)

def longProtocol : List UInt8 := List.replicate 500 97

theorem not_mem_longProtocol {b : UInt8} (hb : b ≠ 97) : b ∉ longProtocol :=
  fun h => hb (List.eq_of_mem_replicate h)

/-- With this protocol `iOffset` is 651 before the last `snprintf`, which then
writes behind the array. -/
theorem longProtocol_overruns :
    (readFields (sampleRequest longProtocol (not_mem_longProtocol (by decide)) (not_mem_longProtocol (by decide))).text =
      some { websocketKey := ascii "dGhlIHNhbXBsZSBub25jZQ==", websocketProtocol := longProtocol }) ∧
    (∃ r ∈ responseSteps (ascii "s3pPLMBiTxaQ9kYGzzhZRbK+xOo=") longProtocol zeroStack, r.iOffset = 651) ∧
    ¬ResponseExact (ascii "s3pPLMBiTxaQ9kYGzzhZRbK+xOo=") longProtocol zeroStack := by
  have hlen : longProtocol.length = 500 := List.length_replicate
  have hnil : longProtocol ≠ [] := by
    intro h
    rw [h] at hlen
    exact absurd hlen (by decide)
  have hoff := afterProtocol_iOffset (by decide : (ascii "s3pPLMBiTxaQ9kYGzzhZRbK+xOo=").length = 28) (by decide)
    (not_mem_longProtocol (by decide)) hnil zeroStack
  rw [hlen] at hoff
  have hmem : afterProtocol (ascii "s3pPLMBiTxaQ9kYGzzhZRbK+xOo=") longProtocol zeroStack ∈
      responseSteps (ascii "s3pPLMBiTxaQ9kYGzzhZRbK+xOo=") longProtocol zeroStack := by
    rw [responseSteps_eq]
    simp
  refine ⟨?_, ⟨_, hmem, hoff⟩, fun hexact => ?_⟩
  · rw [HttpRequest.readFields_text, sampleRequest_fields]
  · have hle := hexact.1 _ hmem
    rw [hoff] at hle
    exact absurd hle (by decide)

end SrWebSocket
