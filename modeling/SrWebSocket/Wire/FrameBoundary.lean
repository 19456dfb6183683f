import SrWebSocket.Parse.DecodeMsg
import SrWebSocket.Parse.FrameUnits

/-! # Frame boundaries of the decoder and of the wire format

The wire format writes long payload lengths in eight bytes, of which
`TryDecodeLen` reads the last four. A frame is taken for a shorter one when its
length does not fit into these four and the shorter frame is in the buffer; the
scan then goes on inside its payload.
-/
namespace SrWebSocket

def ntohll (p : ℕ → UInt8) (i : ℕ) : ℕ := ntohl p i * 2 ^ 32 + ntohl p (i + 4)

/-- The payload length that a header denotes in the wire format. -/
def wireLen (p : ℕ → UInt8) : ℕ :=
  if (p 1 &&& 0x7f).toNat = 0x7e then ntohs p 2
  else if (p 1 &&& 0x7f).toNat = 0x7f then ntohll p 2
  else (p 1 &&& 0x7f).toNat

def wireSize (p : ℕ → UInt8) : ℕ := headerLen p + maskLen p + wireLen p

/-- The bytes from the cursor of the scan on. -/
def headerAt (c : WsMsgCache) : ℕ → UInt8 := fun i => bytesOf c.pBuffer (c.iCurFrameIndex + i)

/-- The whole header of the frame at the cursor has arrived. -/
def HeaderArrived (c : WsMsgCache) : Prop := c.iCurFrameIndex + headerLen (headerAt c) ≤ c.pBuffer.length

instance (c : WsMsgCache) : Decidable (HeaderArrived c) := inferInstanceAs (Decidable (_ ≤ _))

/-- An iteration of the scan loop of `DecodeMsg` accepts the frame at the cursor. -/
def Accepted (junk : ℕ → UInt8) (c c' : WsMsgCache) : Prop :=
  scanStep 64 junk c = .inl c' ∨ scanStep 64 junk c = .inr (.leave 1 c')

/-- All bytes of the frame at the cursor are in the buffer; the cursor moves over
them and all payload bytes are counted. -/
structure TakenAsWritten (c c' : WsMsgCache) : Prop where
  arrived : c.iCurFrameIndex + wireSize (headerAt c) ≤ c.pBuffer.length
  index : c'.iCurFrameIndex = c.iCurFrameIndex + wireSize (headerAt c)
  total : c'.iTotalFrameLen = addSize 64 c.iTotalFrameLen (wireLen (headerAt c))

variable {p : ℕ → UInt8} {c c' : WsMsgCache} {junk : ℕ → UInt8}

theorem codedLen_eq_mod (p : ℕ → UInt8) : codedLen p = wireLen p % 2 ^ 32 := by
  unfold codedLen wireLen
  split
  · exact (Nat.mod_eq_of_lt ((ntohs_lt p 2).trans (by decide))).symm
  · split
    · rw [ntohll, Nat.mul_add_mod_self_right, Nat.mod_eq_of_lt (ntohl_lt p (2 + 4))]
    · rw [toNat_and_7f]
      exact (Nat.mod_eq_of_lt ((Nat.mod_lt _ (by decide)).trans (by decide))).symm

theorem wireLen_congr {q : ℕ → UInt8} (h : ∀ i < headerLen p, p i = q i) : wireLen p = wireLen q := by
  have h1 : p 1 = q 1 := h 1 (two_le_headerLen p)
  unfold wireLen
  rw [← h1]
  cases lenCases p with
  | short h16 h64 hl => rw [if_neg h16, if_neg h16, if_neg h64, if_neg h64]
  | medium h16 hl => rw [if_pos h16, if_pos h16, ntohs, ntohs, h 2 (by omega), h 3 (by omega)]
  | long h16 h64 hl =>
    have hread : ∀ i, 2 ≤ i → i < 7 → ntohl p i = ntohl q i := by
      intro i hlo hhi
      rw [ntohl, ntohl, h i (by omega), h (i + 1) (by omega), h (i + 2) (by omega), h (i + 3) (by omega)]
    rw [if_neg h16, if_neg h16, if_pos h64, if_pos h64, ntohll, ntohll, hread 2 (by omega) (by omega),
      hread 6 (by omega) (by omega)]

theorem frameOf_headerAt (h : HeaderArrived c) (junk : ℕ → UInt8) :
    frameOf (fun i => memory c.pBuffer junk (c.iCurFrameIndex + i)) = frameOf (headerAt c) := by
  refine (frameOf_congr fun i hi => ?_).symm
  unfold HeaderArrived at h
  have hin : c.iCurFrameIndex + i < c.pBuffer.length := by omega
  have hread : memory c.pBuffer (fun _ => 0) (c.iCurFrameIndex + i) = memory c.pBuffer junk (c.iCurFrameIndex + i) :=
    memory_congr hin
  exact hread

/-- An iteration on a whole header accepts exactly a frame whose length modulo 2^32
is not zero and leads to a place in the buffer. -/
theorem accepted_iff (h : HeaderArrived c) (hsmall : c.pBuffer.length < 2 ^ 63) (junk : ℕ → UInt8) :
    Accepted junk c c' ↔
      0 < codedLen (headerAt c) ∧ c.iCurFrameIndex + frameSize (headerAt c) ≤ c.pBuffer.length ∧
      c' = { c with
        iTotalFrameLen := addSize 64 c.iTotalFrameLen (codedLen (headerAt c))
        iCurFrameIndex := c.iCurFrameIndex + frameSize (headerAt c)
        iCurFrameLen := 0
        iComplete := decide (headerAt c 0 &&& 0x80 = 0x80) || c.iComplete } := by
  have hh := two_le_headerLen (headerAt c)
  have hle := h
  unfold HeaderArrived at hle
  have hf := frameOf_headerAt h junk
  have hlen : codedLen (fun i => memory c.pBuffer junk (c.iCurFrameIndex + i)) = codedLen (headerAt c) :=
    congrArg WsMsgFrame.payloadLength hf
  have hguard : addSize 64 wsMinMsgExpectLen c.iCurFrameIndex ≤ c.pBuffer.length := by
    rw [addSize_of_lt] <;> simp only [wsMinMsgExpectLen] <;> omega
  have hbound := frameSize_lt (headerAt c)
  have hsum : addSize 64 (frameSize (headerAt c)) c.iCurFrameIndex = c.iCurFrameIndex + frameSize (headerAt c) := by
    rw [addSize_of_lt (by omega), Nat.add_comm]
  have hsum' : addSize 64 c.iCurFrameIndex (frameSize (headerAt c)) = c.iCurFrameIndex + frameSize (headerAt c) :=
    addSize_of_lt (by omega)
  have hin : c.iCurFrameIndex < c.pBuffer.length := by omega
  have hfirst : memory c.pBuffer junk c.iCurFrameIndex = memory c.pBuffer (fun _ => 0) c.iCurFrameIndex :=
    memory_congr hin
  change _ = headerAt c 0 at hfirst
  unfold Accepted scanStep
  simp only [hguard, if_true, tryDecodeLen_64, hlen, hf, hfirst]
  by_cases hpos : 0 < codedLen (headerAt c)
  · simp only [hpos, if_true, frameOf, hsum, hsum', true_and]
    by_cases hfit : c.iCurFrameIndex + frameSize (headerAt c) ≤ c.pBuffer.length
    · by_cases hfin : headerAt c 0 &&& 0x80 = 0x80
      · simp [hfit, hfin, eq_comm]
      · simp [hfit, hfin, eq_comm]
    · simp [hfit]
  · simp [hpos]

/-- The frame at the cursor is taken as the wire format has it, whenever it is
accepted, exactly when its length fits into 32 bits, or the low 32 bits of it are
zero, or a frame with these low bits as its length is not in the buffer. -/
theorem takenAsWritten_iff (c : WsMsgCache) (h : HeaderArrived c) (hsmall : c.pBuffer.length < 2 ^ 63) :
    (∀ junk c', Accepted junk c c' → TakenAsWritten c c') ↔
      wireLen (headerAt c) < 2 ^ 32 ∨ 2 ^ 32 ∣ wireLen (headerAt c) ∨
      c.pBuffer.length <
        c.iCurFrameIndex + (headerLen (headerAt c) + maskLen (headerAt c) + wireLen (headerAt c) % 2 ^ 32) := by
  have hmod := codedLen_eq_mod (headerAt c)
  have hsize : frameSize (headerAt c) = headerLen (headerAt c) + maskLen (headerAt c) + wireLen (headerAt c) % 2 ^ 32 := by
    rw [frameSize, hmod]
  constructor
  · intro hall
    by_contra hnot
    obtain ⟨hbig, hnot⟩ := not_or.mp hnot
    obtain ⟨hdvd, hfit⟩ := not_or.mp hnot
    rw [Nat.dvd_iff_mod_eq_zero] at hdvd
    have hacc := (accepted_iff h hsmall fun _ => 0).mpr ⟨by omega, by omega, rfl⟩
    have hindex := (hall _ _ hacc).index
    dsimp only at hindex
    unfold wireSize at hindex
    omega
  · intro hcond junk c' hacc
    obtain ⟨hcoded, hfit, rfl⟩ := (accepted_iff h hsmall junk).mp hacc
    have hshort : wireLen (headerAt c) < 2 ^ 32 := by
      rcases hcond with hshort | hdvd | hlong
      · exact hshort
      · rw [Nat.dvd_iff_mod_eq_zero] at hdvd
        omega
      · omega
    have hlen : codedLen (headerAt c) = wireLen (headerAt c) := by rw [hmod, Nat.mod_eq_of_lt hshort]
    have hwire : wireSize (headerAt c) = frameSize (headerAt c) := by rw [wireSize, frameSize, hlen]
    exact ⟨hwire ▸ hfit, by rw [hwire], by rw [hlen]⟩

theorem takenAsWritten_text :
    TakenAsWritten (.fresh [0x81, 0x01, 97])
      { WsMsgCache.fresh [0x81, 0x01, 97] with iCurFrameIndex := 3, iTotalFrameLen := 1, iComplete := true } :=
  (takenAsWritten_iff (.fresh [0x81, 0x01, 97]) (by decide) (by decide)).mpr (Or.inl (by decide)) (fun _ => 0) _
    (Or.inr (by decide))

/-- A TEXT frame of 2^32 + 1 bytes, of which four have arrived: `x`, and three that
look like a frame. -/
def hugeText : List UInt8 := [0x81, 0x7f, 0, 0, 0, 1, 0, 0, 0, 1, 120, 0x81, 0x01, 121]

/-- The frame is taken for one of a single byte, and the bytes behind that for
the next frame. -/
theorem hugeText_smuggles :
    wireLen (headerAt (.fresh hugeText)) = 2 ^ 32 + 1 ∧
    ¬(∀ junk c', Accepted junk (.fresh hugeText) c' → TakenAsWritten (.fresh hugeText) c') ∧
    decodeMsg 64 15 (fun _ => 0) (.fresh hugeText) none =
      some ⟨1, .fresh [0x81, 0x01, 121], some ⟨[120], wsFrameText⟩⟩ ∧
    decodeMsg 64 15 (fun _ => 0) (.fresh [0x81, 0x01, 121]) none =
      some ⟨1, .fresh [], some ⟨[121], wsFrameText⟩⟩ := by
  refine ⟨by decide, fun hall => ?_, by decide, by decide⟩
  have hacc : Accepted (fun _ => 0) (.fresh hugeText)
      { WsMsgCache.fresh hugeText with iCurFrameIndex := 11, iTotalFrameLen := 1, iComplete := true } :=
    Or.inr (by decide)
  exact absurd (hall _ _ hacc).index (by decide)

end SrWebSocket
