import SrWebSocket.Parse.EncodeMsg
import SrWebSocket.Wire.DecodeStream

/-! # Encoding and decoding

The encoder shifts the bytes of the length out of a `size_t` and the decoder
loads them back in network order. What `EncodeMsg` writes is a message of the
wire format in one frame, so the decoder takes a row of such frames apart again.
-/
namespace SrWebSocket

/-- A payload and a frame type for `EncodeMsg`. -/
structure Outgoing where
  pMsg : List UInt8
  iFrameType : ℕ
  nonempty : pMsg ≠ []
  below : pMsg.length < 2 ^ 32
  type_pos : 0 < iFrameType
  type_lt : iFrameType < 16

namespace Outgoing

/-- What the receiver of the message is to be given. -/
def message (o : Outgoing) : WsMsg where
  pBuffer := o.pMsg
  frameType := UInt8.ofNat o.iFrameType

/-- The results of `EncodeMsg` on a list of messages, concatenated; each call
gets memory of its own. -/
def encodeAll : (ℕ → ℕ → UInt8) → List Outgoing → Option (List UInt8)
  | _, [] => some []
  | junk, o :: os =>
    (encodeMsg 64 (junk 0) o.pMsg o.iFrameType).bind fun frame =>
      (encodeAll (fun i => junk (i + 1)) os).map fun bytes => frame ++ bytes

/-- The fragment that is the whole payload, its length in the shortest form. -/
def fragment (payload : List UInt8) (hne : payload ≠ []) (hlt : payload.length < 2 ^ 32) : Fragment where
  form := shortestForm payload.length
  key := none
  payload := payload
  nonempty := hne
  below := hlt
  fits := shortestForm_fits (by omega)

variable (o : Outgoing)

theorem type_toNat : (UInt8.ofNat o.iFrameType).toNat = o.iFrameType := by
  have := o.type_lt
  rw [UInt8.toNat_ofNat']
  exact Nat.mod_eq_of_lt (by omega)

def wireMsg : WireMsg where
  opcode := UInt8.ofNat o.iFrameType
  opcode_ne h := by
    have hzero := congrArg UInt8.toNat h
    rw [o.type_toNat] at hzero
    exact absurd hzero o.type_pos.ne'
  opcode_lt := by
    rw [o.type_toNat]
    exact o.type_lt
  first := fragment o.pMsg o.nonempty o.below
  more := []

theorem message_wireMsg : o.wireMsg.message = o.message := by
  simp [WireMsg.message, wireMsg, message, fragment]

end Outgoing

theorem serverFrame_eq (op : UInt8) {payload : List UInt8} (hne : payload ≠ []) (hlt : payload.length < 2 ^ 32) :
    serverFrame op payload = wireFrame true op (Outgoing.fragment payload hne hlt) := rfl

namespace Outgoing

theorem encode (o : Outgoing) (junk : ℕ → UInt8) : encodeMsg 64 junk o.pMsg o.iFrameType = some o.wireMsg.wire := by
  have hlen := o.below
  have hwire : o.wireMsg.wire = serverFrame (UInt8.ofNat o.iFrameType) o.pMsg := by
    rw [serverFrame_eq _ o.nonempty o.below]
    simp [WireMsg.wire, WireMsg.frames, wireMsg, framesFrom]
  rw [hwire]
  exact encodeMsg_eq o.type_lt (List.length_pos_iff.mpr o.nonempty) (by omega) junk

theorem encodeAll_eq (os : List Outgoing) (junk : ℕ → ℕ → UInt8) :
    encodeAll junk os = some ((os.map wireMsg).flatMap WireMsg.wire) := by
  induction os generalizing junk with
  | nil => rfl
  | cons o os ih => simp [encodeAll, o.encode, ih]

/-- The calls of `DecodeMsg` on a row of encoded messages hand these out one by
one, and the call after the last leaves the cache as new. -/
theorem roundTrip (os : List Outgoing) (junk behind : ℕ → ℕ → UInt8) :
    ∃ bytes, encodeAll junk os = some bytes ∧
      (bytes.length < 2 ^ 63 →
        (∀ k (hk : k < os.length), ∃ c, nthCall behind (.fresh bytes) k = some ⟨1, c, some os[k].message⟩) ∧
        nthCall behind (.fresh bytes) os.length = some ⟨0, .fresh [], none⟩) := by
  refine ⟨_, encodeAll_eq os junk, fun hlen => ?_⟩
  rw [← List.append_nil ((os.map wireMsg).flatMap WireMsg.wire)] at hlen ⊢
  constructor
  · intro k hk
    have hcall := nthCall_messages (os.map wireMsg) [] hlen behind k (by simpa using hk)
    rw [List.getElem_map, message_wireMsg] at hcall
    exact ⟨_, hcall⟩
  · have hcall := nthCall_rest (os.map wireMsg) [] hlen behind
    rw [List.length_map] at hcall
    exact hcall.trans rfl

/-- A TEXT message, and a BINARY one whose length takes the medium form. -/
def sampleOutgoing : List Outgoing :=
  [⟨[104, 105], 1, greeting.first.nonempty, greeting.first.below, by decide, by decide⟩,
    ⟨List.replicate 126 7, 2, List.cons_ne_nil _ _, by simp, by decide, by decide⟩]

theorem roundTrip_sample :
    ∃ bytes, encodeAll (fun _ _ => 0xaa) sampleOutgoing = some bytes ∧ bytes.length = 134 ∧
      (∃ c, nthCall (fun _ _ => 0xff) (.fresh bytes) 1 = some ⟨1, c, some ⟨List.replicate 126 7, wsFrameBinary⟩⟩) ∧
      nthCall (fun _ _ => 0xff) (.fresh bytes) 2 = some ⟨0, .fresh [], none⟩ := by
  obtain ⟨bytes, henc, hcalls⟩ := roundTrip sampleOutgoing (fun _ _ => 0xaa) fun _ _ => 0xff
  have hlen : bytes.length = 134 := by
    have hbytes := (encodeAll_eq sampleOutgoing fun _ _ => 0xaa).symm.trans henc
    rw [← Option.some.inj hbytes]
    decide +kernel
  obtain ⟨hmessages, hend⟩ := hcalls (by omega)
  exact ⟨bytes, henc, hlen, hmessages 1 (by decide), hend⟩

end Outgoing

end SrWebSocket
