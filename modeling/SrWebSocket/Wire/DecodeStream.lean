import SrWebSocket.Parse.DecodeSpec
import SrWebSocket.Wire.WireFrame

/-! # Decoding a stream of messages

A message of the wire format is a row of frames: the first has the opcode of the
message, the later ones opcode 0, and only the last has the FIN bit. Successive
calls of `DecodeMsg` on a buffer of such messages hand them out one by one.
-/
namespace SrWebSocket

/-- A message: its opcode and its fragments, of which there is at least one. -/
structure WireMsg where
  opcode : UInt8
  opcode_ne : opcode ≠ 0
  opcode_lt : opcode.toNat < 16
  first : Fragment
  more : List Fragment

/-- The frames of a row of fragments, the first of which has opcode `op`. -/
def framesFrom : UInt8 → Fragment → List Fragment → List (List UInt8)
  | op, f, [] => [wireFrame true op f]
  | op, f, g :: gs => wireFrame false op f :: framesFrom 0 g gs

namespace WireMsg

def frames (m : WireMsg) : List (List UInt8) := framesFrom m.opcode m.first m.more

def wire (m : WireMsg) : List UInt8 := m.frames.flatten

def message (m : WireMsg) : WsMsg where
  pBuffer := (m.first :: m.more).flatMap Fragment.payload
  frameType := m.opcode

end WireMsg

variable {op : UInt8} {f : Fragment} {fs : List Fragment}

theorem framesFrom_whole (op : UInt8) (f : Fragment) (fs : List Fragment) :
    ∀ u ∈ framesFrom op f fs, frameUnits.Whole u := by
  induction fs generalizing op f with
  | nil =>
    intro u hu
    exact List.mem_singleton.mp hu ▸ whole_wireFrame f true op
  | cons g gs ih =>
    intro u hu
    rcases List.mem_cons.mp hu with rfl | hu
    · exact whole_wireFrame f false op
    · exact ih 0 g u hu

theorem framesFrom_group (hop : op.toNat < 16) (f : Fragment) (fs : List Fragment) :
    Group isFin (framesFrom op f fs) := by
  induction fs generalizing op f with
  | nil => exact Group.singleton (isFin_wireFrame f hop true)
  | cons g gs ih => exact (ih (by decide) g).cons (isFin_wireFrame f hop false)

theorem framesFrom_payload (op : UInt8) (f : Fragment) (fs : List Fragment) :
    (framesFrom op f fs).flatMap payload = (f :: fs).flatMap Fragment.payload := by
  induction fs generalizing op f with
  | nil => simp [framesFrom, payload_wireFrame]
  | cons g gs ih => rw [framesFrom, List.flatMap_cons, ih, payload_wireFrame, List.flatMap_cons (x := f)]

theorem framesFrom_eq_cons (hop : op.toNat < 16) (f : Fragment) (fs : List Fragment) :
    ∃ u us, framesFrom op f fs = u :: us ∧ opcode u = op ∧ ∀ v ∈ us, opcode v = 0 := by
  induction fs generalizing op f with
  | nil => exact ⟨_, [], rfl, opcode_wireFrame f hop true, by simp⟩
  | cons g gs ih =>
    refine ⟨_, framesFrom 0 g gs, rfl, opcode_wireFrame f hop false, ?_⟩
    obtain ⟨u, us, he, hu, hus⟩ := ih (by decide : (0 : UInt8).toNat < 16) g
    intro v hv
    rw [he] at hv
    rcases List.mem_cons.mp hv with rfl | hv
    · exact hu
    · exact hus v hv

theorem framesFrom_not_clash (hop : op.toNat < 16) (f : Fragment) (fs : List Fragment) :
    ¬Clash (framesFrom op f fs) := by
  obtain ⟨w, ws, he, hw, hws⟩ := framesFrom_eq_cons hop f fs
  rintro ⟨u, hu, v, hv, hu0, hv0, huv⟩
  have hname : ∀ x ∈ framesFrom op f fs, opcode x ≠ wsFrameContinuation → opcode x = op := by
    intro x hx hx0
    rw [he] at hx
    rcases List.mem_cons.mp hx with rfl | hx
    · exact hw
    · exact absurd (hws x hx) hx0
  exact huv ((hname u hu hu0).trans (hname v hv hv0).symm)

theorem messageOf_frameType {u : List UInt8} (hu : opcode u ≠ 0) (us : List (List UInt8)) :
    (messageOf (u :: us)).frameType = opcode u := by
  have hj : (WsMsg.empty.join u).frameType = opcode u := rfl
  rw [messageOf, assemble, if_pos (empty_joins u), assemble_frameType (hj ▸ hu), hj]

namespace WireMsg
variable (m : WireMsg)

theorem frames_whole : ∀ u ∈ m.frames, frameUnits.Whole u := framesFrom_whole _ _ _

theorem frames_group : Group isFin m.frames := framesFrom_group m.opcode_lt _ _

theorem frames_not_clash : ¬Clash m.frames := framesFrom_not_clash m.opcode_lt _ _

theorem messageOf_frames : messageOf m.frames = m.message := by
  have hbuf := messageOf_pBuffer m.frames_not_clash
  obtain ⟨u, us, he, hu, _⟩ := framesFrom_eq_cons m.opcode_lt m.first m.more
  have htype : (messageOf m.frames).frameType = m.opcode := by
    rw [frames, he, messageOf_frameType (hu ▸ m.opcode_ne), hu]
  rcases hmsg : messageOf m.frames with ⟨b, t⟩
  rw [hmsg] at hbuf htype
  dsimp only at hbuf htype
  rw [hbuf, htype, frames, framesFrom_payload]
  rfl

theorem length_wire_le : m.wire.length ≤ 15 * m.message.pBuffer.length := by
  have h : ∀ (op : UInt8) (f : Fragment) (fs : List Fragment),
      (framesFrom op f fs).flatten.length ≤ 15 * ((f :: fs).flatMap Fragment.payload).length := by
    intro op f fs
    induction fs generalizing op f with
    | nil => simpa [framesFrom] using length_wireFrame_le f true op
    | cons g gs ih =>
      have hf := length_wireFrame_le f false op
      have hgs := ih 0 g
      rw [framesFrom, List.flatten_cons, List.length_append, List.flatMap_cons, List.length_append]
      omega
  exact h m.opcode m.first m.more

theorem open_of_prefix {tail missing : List UInt8} (h : m.wire = tail ++ missing) (hne : missing ≠ []) :
    ∃ (gs : List (List UInt8)) (t : List UInt8), tail = gs.flatten ++ t ∧ (∀ u ∈ gs, frameUnits.Whole u) ∧
      (∀ u ∈ gs, isFin u = false) ∧ frameUnits.size t = none := by
  obtain ⟨gs, t, rfl, hgs, hg | ⟨ho, ht⟩⟩ := exists_scan tail
  · have he : gs.flatten ++ (t ++ missing) = m.frames.flatten ++ [] := by
      rw [List.append_nil, ← List.append_assoc]
      exact h.symm
    have hlen := congrArg List.length he
    simp only [List.length_append, List.length_nil] at hlen
    obtain ⟨ws, hws, ht⟩ := Framing.parse_prefix hgs m.frames_whole he (by omega)
    obtain ⟨_, hnil⟩ := hg.unique m.frames_group (s := ws) (t := []) (by simpa using hws.symm)
    rw [hnil] at ht
    exact absurd (List.append_eq_nil_iff.mp ht).2 hne
  · exact ⟨gs, t, rfl, hgs, ho, ht⟩

end WireMsg

/-! ## Successive calls -/

/-- The return of call number `k`, counted from 0, in a row of calls on a cache.
`*pWsMsg` is NULL at each, and each sees its own memory. -/
def nthCall : (ℕ → ℕ → UInt8) → WsMsgCache → ℕ → Option DecodeRet
  | junk, c, 0 => decodeMsg 64 (callFuel c) (junk 0) c none
  | junk, c, k + 1 =>
    (decodeMsg 64 (callFuel c) (junk 0) c none).bind fun ret => nthCall (fun i => junk (i + 1)) ret.pMsgCache k

variable {tail missing : List UInt8} {junk : ℕ → UInt8}

theorem decodeMsg_wire (m : WireMsg) (t : List UInt8) (hlen : (m.wire ++ t).length < 2 ^ 63) (junk : ℕ → UInt8) :
    decodeMsg 64 (callFuel (.fresh (m.wire ++ t))) junk (.fresh (m.wire ++ t)) none =
      some ⟨1, .fresh t, some m.message⟩ := by
  have hS : Scanned (.fresh (m.wire ++ t)) [] (m.frames.flatten ++ t) := scanned_fresh hlen
  rw [decodeMsg_group hS hS.length_lt m.frames_whole m.frames_group (not_turnedAway (Nat.zero_le _)) le_rfl junk,
    List.nil_append,
    assemble_empty_of_not_clash m.frames_not_clash, m.messageOf_frames]
  rfl

theorem decodeMsg_tail (m : WireMsg) (h : m.wire = tail ++ missing) (hne : missing ≠ [])
    (hlen : tail.length < 2 ^ 63) (junk : ℕ → UInt8) :
    ∃ c, decodeMsg 64 (callFuel (.fresh tail)) junk (.fresh tail) none = some ⟨0, c, none⟩ ∧ c.pBuffer = tail := by
  obtain ⟨gs, t, rfl, hgs, ho, ht⟩ := m.open_of_prefix h hne
  have hS := scanned_fresh hlen
  refine ⟨_, decodeMsg_open hS hgs ho ht rfl (not_turnedAway (Nat.zero_le _)) le_rfl junk, ?_⟩
  have hl : ((WsMsgCache.fresh (gs.flatten ++ t)).acceptAll gs).iCurFrameLen < 2 ^ 33 := by
    rw [acceptAll_iCurFrameLen]
    split <;> exact Nat.two_pow_pos 33
  have := (scanned_scanStop (hS.acceptAll hgs) hl junk).1.buffer
  simpa using this

theorem nthCall_wire (m : WireMsg) (t : List UInt8) (hlen : (m.wire ++ t).length < 2 ^ 63) (junk : ℕ → ℕ → UInt8)
    (k : ℕ) : nthCall junk (.fresh (m.wire ++ t)) (k + 1) = nthCall (fun i => junk (i + 1)) (.fresh t) k := by
  rw [nthCall, decodeMsg_wire m t hlen (junk 0), Option.bind_some]

/-- The calls on a stream of messages take them one by one. -/
theorem nthCall_messages (ms : List WireMsg) (t : List UInt8) (hlen : (ms.flatMap WireMsg.wire ++ t).length < 2 ^ 63)
    (junk : ℕ → ℕ → UInt8) (k : ℕ) (hk : k < ms.length) :
    nthCall junk (.fresh (ms.flatMap WireMsg.wire ++ t)) k =
      some ⟨1, .fresh ((ms.drop (k + 1)).flatMap WireMsg.wire ++ t), some (ms[k].message)⟩ := by
  induction ms generalizing junk k with
  | nil => exact absurd hk (Nat.not_lt_zero k)
  | cons m ms ih =>
    rw [List.flatMap_cons, List.append_assoc] at hlen ⊢
    cases k with
    | zero => exact decodeMsg_wire m _ hlen (junk 0)
    | succ k =>
      rw [List.length_append] at hlen
      have hnext := ih (by omega) (fun i => junk (i + 1)) k (by simpa using hk)
      rw [nthCall_wire m _ (by rw [List.length_append]; omega), hnext]
      rfl

/-- The call after the last message finds what follows the messages. -/
theorem nthCall_rest (ms : List WireMsg) (t : List UInt8) (hlen : (ms.flatMap WireMsg.wire ++ t).length < 2 ^ 63)
    (junk : ℕ → ℕ → UInt8) :
    nthCall junk (.fresh (ms.flatMap WireMsg.wire ++ t)) ms.length =
      decodeMsg 64 (callFuel (.fresh t)) (junk ms.length) (.fresh t) none := by
  induction ms generalizing junk with
  | nil => rfl
  | cons m ms ih =>
    rw [List.flatMap_cons, List.append_assoc] at hlen ⊢
    have hlen' : (ms.flatMap WireMsg.wire ++ t).length < 2 ^ 63 := by
      rw [List.length_append] at hlen
      omega
    rw [List.length_cons, nthCall_wire m _ hlen]
    exact ih hlen' fun i => junk (i + 1)

/-- The calls on a stream of messages and a part of one more: each takes the
message at the head of the stream, and the call after the last one takes nothing. -/
theorem nthCall_stream (ms : List WireMsg) (last : WireMsg) (htail : last.wire = tail ++ missing)
    (hne : missing ≠ []) (hlen : (ms.flatMap WireMsg.wire ++ tail).length < 2 ^ 63) (junk : ℕ → ℕ → UInt8) :
    (∀ k (hk : k < ms.length), nthCall junk (.fresh (ms.flatMap WireMsg.wire ++ tail)) k =
      some ⟨1, .fresh ((ms.drop (k + 1)).flatMap WireMsg.wire ++ tail), some (ms[k].message)⟩) ∧
    ∃ c, nthCall junk (.fresh (ms.flatMap WireMsg.wire ++ tail)) ms.length = some ⟨0, c, none⟩ ∧ c.pBuffer = tail := by
  have htl : tail.length < 2 ^ 63 := by
    rw [List.length_append] at hlen
    omega
  obtain ⟨c, hc, hct⟩ := decodeMsg_tail last htail hne htl (junk ms.length)
  exact ⟨nthCall_messages ms tail hlen junk, c, (nthCall_rest ms tail hlen junk).trans hc, hct⟩

/-- The letter `a`, unmasked. -/
def letterA : Fragment where
  form := .short
  key := none
  payload := [97]
  nonempty := by decide
  below := by decide
  fits := by decide

/-- A TEXT message of two fragments, the first masked. -/
def greeting : WireMsg where
  opcode := wsFrameText
  opcode_ne := by decide
  opcode_lt := by decide
  first := ⟨.short, some fun i => UInt8.ofNat i, [104, 105], by decide, by decide, by decide⟩
  more := [⟨.medium, none, [33], by decide, by decide, by decide⟩]

theorem nthCall_stream_greeting :
    nthCall (fun _ _ => 0xff) (.fresh (greeting.wire ++ [0x01, 0x82])) 0 =
      some ⟨1, .fresh [0x01, 0x82], some ⟨[104, 105, 33], wsFrameText⟩⟩ ∧
    ∃ c, nthCall (fun _ _ => 0xff) (.fresh (greeting.wire ++ [0x01, 0x82])) 1 = some ⟨0, c, none⟩ ∧
      c.pBuffer = [0x01, 0x82] := by
  have htail : greeting.wire = [0x01, 0x82] ++ greeting.wire.drop 2 := rfl
  have h := nthCall_stream [greeting] greeting htail (by decide) (by decide) fun _ _ => 0xff
  exact ⟨h.1 0 (by decide), h.2⟩

end SrWebSocket
