import SrWebSocket.General.Memory

/-! # Frame headers as `TryDecodeLen` reads them

Sizes are unsigned integers of `w` bits, the width of `size_t`. The header is
read through a raw pointer: how many of its bytes matter is decided by the
second one, and nothing stops the reads at the end of the used bytes.
-/
namespace SrWebSocket

/-- `tagWsMsgFrame`. -/
structure WsMsgFrame where
  frameType : UInt8
  payloadOffset : ℕ
  mask : Bool
  payloadLength : ℕ
  expectsize : ℕ
deriving DecidableEq

def wsMinMsgExpectLen : ℕ := 2

/-! `WS_FRAMETYPE` -/

def wsFrameContinuation : UInt8 := 0x00
def wsFrameText : UInt8 := 0x01
def wsFrameBinary : UInt8 := 0x02
def wsFrameClosing : UInt8 := 0x08
def wsFramePing : UInt8 := 0x09
def wsFramePong : UInt8 := 0x0A

def ntohs (p : ℕ → UInt8) (i : ℕ) : ℕ := (p i).toNat * 2 ^ 8 + (p (i + 1)).toNat

/-- `ntohl(*(u_long*)p)`: `ntohl` takes 32 bits, which on a little-endian host are
the first four bytes at `p` whatever the width of `u_long`. -/
def ntohl (p : ℕ → UInt8) (i : ℕ) : ℕ :=
  (p i).toNat * 2 ^ 24 + (p (i + 1)).toNat * 2 ^ 16 + (p (i + 2)).toNat * 2 ^ 8 + (p (i + 3)).toNat

/-- `CWsMsgParse::TryDecodeLen`; `none` is its return value 1, after which no
caller looks at the frame. -/
def tryDecodeLen (w : ℕ) (pData : ℕ → UInt8) : Option WsMsgFrame :=
  let stFrame : WsMsgFrame :=
    { frameType := pData 0 &&& 0x0f
      payloadOffset := 2
      mask := false
      payloadLength := (pData 1 &&& 0x7f).toNat
      expectsize := wsMinMsgExpectLen }
  let stFrame :=
    if stFrame.payloadLength = 0x7e then
      { stFrame with
        expectsize := addSize w stFrame.expectsize 2
        payloadOffset := 4
        payloadLength := ntohs pData 2 }
    else if stFrame.payloadLength = 0x7f then
      -- the four high bytes of the length, at offset 2, are never read
      { stFrame with
        expectsize := addSize w stFrame.expectsize 8
        payloadLength := ntohl pData (2 + 4)
        payloadOffset := 10 }
    else stFrame
  if 0 < stFrame.payloadLength then
    let stFrame := { stFrame with expectsize := addSize w stFrame.expectsize stFrame.payloadLength }
    if pData 1 &&& 0x80 ≠ 0 then
      some { stFrame with
        mask := true
        payloadOffset := stFrame.payloadOffset + 4
        expectsize := addSize w stFrame.expectsize 4 }
    else some stFrame
  else none

/-! ## What the header says -/

/-- The number of header bytes before the mask. -/
def headerLen (p : ℕ → UInt8) : ℕ :=
  if (p 1 &&& 0x7f).toNat = 0x7e then 4 else if (p 1 &&& 0x7f).toNat = 0x7f then 10 else 2

def maskLen (p : ℕ → UInt8) : ℕ := if p 1 &&& 0x80 ≠ 0 then 4 else 0

/-- The payload length that the code takes from the header. -/
def codedLen (p : ℕ → UInt8) : ℕ :=
  if (p 1 &&& 0x7f).toNat = 0x7e then ntohs p 2
  else if (p 1 &&& 0x7f).toNat = 0x7f then ntohl p 6
  else (p 1 &&& 0x7f).toNat

variable {w : ℕ} {p q : ℕ → UInt8} {st : WsMsgFrame}

/-- The three forms of the length, by the second byte. -/
inductive LenCases (p : ℕ → UInt8) : Prop
  | short (h16 : (p 1 &&& 0x7f).toNat ≠ 0x7e) (h64 : (p 1 &&& 0x7f).toNat ≠ 0x7f) (hl : headerLen p = 2)
  | medium (h16 : (p 1 &&& 0x7f).toNat = 0x7e) (hl : headerLen p = 4)
  | long (h16 : (p 1 &&& 0x7f).toNat ≠ 0x7e) (h64 : (p 1 &&& 0x7f).toNat = 0x7f) (hl : headerLen p = 10)

theorem lenCases (p : ℕ → UInt8) : LenCases p := by
  by_cases h16 : (p 1 &&& 0x7f).toNat = 0x7e
  · exact .medium h16 (if_pos h16)
  · by_cases h64 : (p 1 &&& 0x7f).toNat = 0x7f
    · exact .long h16 h64 ((if_neg h16).trans (if_pos h64))
    · exact .short h16 h64 ((if_neg h16).trans (if_neg h64))

theorem maskLen_le (p : ℕ → UInt8) : maskLen p ≤ 4 := by
  unfold maskLen
  split <;> omega

theorem ntohs_lt (p : ℕ → UInt8) (i : ℕ) : ntohs p i < 2 ^ 16 := by
  have h0 := UInt8.toNat_lt (p i)
  have h1 := UInt8.toNat_lt (p (i + 1))
  unfold ntohs
  omega

theorem ntohl_lt (p : ℕ → UInt8) (i : ℕ) : ntohl p i < 2 ^ 32 := by
  have h0 := UInt8.toNat_lt (p i)
  have h1 := UInt8.toNat_lt (p (i + 1))
  have h2 := UInt8.toNat_lt (p (i + 2))
  have h3 := UInt8.toNat_lt (p (i + 3))
  unfold ntohl
  omega

theorem codedLen_lt (p : ℕ → UInt8) : codedLen p < 2 ^ 32 := by
  unfold codedLen
  split
  · exact (ntohs_lt p 2).trans (by decide)
  · split
    · exact ntohl_lt p 6
    · rw [toNat_and_7f]
      exact (Nat.mod_lt _ (by decide)).trans (by decide)

/-- `TryDecodeLen` in closed form, for any width of `size_t`. -/
theorem tryDecodeLen_eq (w : ℕ) (p : ℕ → UInt8) :
    tryDecodeLen w p =
      if 0 < codedLen p then
        some { frameType := p 0 &&& 0x0f
               payloadOffset := headerLen p + maskLen p
               mask := decide (p 1 &&& 0x80 ≠ 0)
               payloadLength := codedLen p
               expectsize := (headerLen p + maskLen p + codedLen p) % 2 ^ w }
      else none := by
  unfold tryDecodeLen codedLen headerLen maskLen
  generalize (p 1 &&& 0x7f).toNat = l
  have hext : ∀ k L, addSize w (addSize w 2 k) L = (2 + k + L) % 2 ^ w := by
    intro k L
    rw [addSize, addSize, Nat.mod_add_mod]
  have hshort : ∀ L, addSize w 2 L = (2 + L) % 2 ^ w := fun _ => rfl
  have hmask : ∀ k L, addSize w ((k + L) % 2 ^ w) 4 = (k + 4 + L) % 2 ^ w := by
    intro k L
    rw [addSize, Nat.mod_add_mod, Nat.add_right_comm]
  by_cases h16 : l = 0x7e
  · by_cases hm : p 1 &&& 0x80 ≠ 0 <;> simp [h16, hm, hext, hmask, wsMinMsgExpectLen]
  · by_cases h64 : l = 0x7f
    · by_cases hm : p 1 &&& 0x80 ≠ 0 <;> simp [h64, hm, hext, hmask, wsMinMsgExpectLen]
    · by_cases hm : p 1 &&& 0x80 ≠ 0 <;> simp [h16, h64, hm, hshort, hmask, wsMinMsgExpectLen]

/-! ## Sizes that fit -/

def frameSize (p : ℕ → UInt8) : ℕ := headerLen p + maskLen p + codedLen p

/-- The frame that a header with a non-empty payload announces. -/
def frameOf (p : ℕ → UInt8) : WsMsgFrame where
  frameType := p 0 &&& 0x0f
  payloadOffset := headerLen p + maskLen p
  mask := decide (p 1 &&& 0x80 ≠ 0)
  payloadLength := codedLen p
  expectsize := frameSize p

theorem headerLen_le_ten (p : ℕ → UInt8) : headerLen p ≤ 10 := by
  cases lenCases p <;> omega

theorem frameSize_lt (p : ℕ → UInt8) : frameSize p < 2 ^ 33 := by
  have hh := headerLen_le_ten p
  have hm := maskLen_le p
  have hc := codedLen_lt p
  unfold frameSize
  omega

theorem two_le_headerLen (p : ℕ → UInt8) : 2 ≤ headerLen p := by
  cases lenCases p <;> omega

theorem tryDecodeLen_of_lt (h : frameSize p < 2 ^ w) :
    tryDecodeLen w p = if 0 < codedLen p then some (frameOf p) else none := by
  have hmod : (headerLen p + maskLen p + codedLen p) % 2 ^ w = frameSize p := Nat.mod_eq_of_lt h
  rw [tryDecodeLen_eq, hmod]
  rfl

theorem tryDecodeLen_64 (p : ℕ → UInt8) :
    tryDecodeLen 64 p = if 0 < codedLen p then some (frameOf p) else none :=
  tryDecodeLen_of_lt ((frameSize_lt p).trans (by decide))

/-! ## Which bytes decide -/

theorem headerLen_congr (h : p 1 = q 1) : headerLen p = headerLen q := by simp only [headerLen, h]

theorem maskLen_congr (h : p 1 = q 1) : maskLen p = maskLen q := by simp only [maskLen, h]

/-- The offsets of the bytes that `TryDecodeLen` interprets. -/
def interpreted (p : ℕ → UInt8) : List ℕ :=
  if (p 1 &&& 0x7f).toNat = 0x7e then [0, 1, 2, 3]
  else if (p 1 &&& 0x7f).toNat = 0x7f then [0, 1, 6, 7, 8, 9]
  else [0, 1]

theorem interpreted_lt {o : ℕ} (h : o ∈ interpreted p) : o < headerLen p := by
  unfold interpreted at h
  cases lenCases p with
  | short h16 h64 hl =>
    rw [if_neg h16, if_neg h64] at h
    simp only [List.mem_cons, List.not_mem_nil, or_false] at h
    omega
  | medium h16 hl =>
    rw [if_pos h16] at h
    simp only [List.mem_cons, List.not_mem_nil, or_false] at h
    omega
  | long h16 h64 hl =>
    rw [if_neg h16, if_pos h64] at h
    simp only [List.mem_cons, List.not_mem_nil, or_false] at h
    omega

/-- The last byte of the header is always among them. -/
theorem pred_headerLen_mem (p : ℕ → UInt8) : headerLen p - 1 ∈ interpreted p := by
  unfold interpreted
  cases lenCases p with
  | short h16 h64 hl =>
    rw [if_neg h16, if_neg h64, hl]
    decide
  | medium h16 hl =>
    rw [if_pos h16, hl]
    decide
  | long h16 h64 hl =>
    rw [if_neg h16, if_pos h64, hl]
    decide

theorem one_mem_interpreted (p : ℕ → UInt8) : 1 ∈ interpreted p := by
  unfold interpreted
  split_ifs <;> simp

theorem codedLen_congr (h : ∀ i ∈ interpreted p, p i = q i) : codedLen p = codedLen q := by
  have h1 : p 1 = q 1 := h 1 (one_mem_interpreted p)
  unfold interpreted at h
  unfold codedLen
  rw [← h1]
  cases lenCases p with
  | short h16 h64 hl => rw [if_neg h16, if_neg h16, if_neg h64, if_neg h64]
  | medium h16 hl =>
    rw [if_pos h16] at h
    rw [if_pos h16, if_pos h16, ntohs, ntohs, h 2 (by simp), h 3 (by simp)]
  | long h16 h64 hl =>
    rw [if_neg h16, if_pos h64] at h
    rw [if_neg h16, if_neg h16, if_pos h64, if_pos h64, ntohl, ntohl, h 6 (by simp), h 7 (by simp), h 8 (by simp),
      h 9 (by simp)]

theorem frameOf_congr (h : ∀ i < headerLen p, p i = q i) : frameOf p = frameOf q := by
  have h0 : p 0 = q 0 := h 0 (by have := two_le_headerLen p; omega)
  have h1 : p 1 = q 1 := h 1 (two_le_headerLen p)
  have hc : codedLen p = codedLen q := codedLen_congr fun i hi => h i (interpreted_lt hi)
  simp only [frameOf, frameSize, h0, h1, headerLen_congr h1, maskLen_congr h1, hc]

theorem frameSize_mono (h1 : p 1 = q 1) (h : ∀ i < headerLen p, (p i).toNat ≤ (q i).toNat) :
    frameSize p ≤ frameSize q := by
  have hc : codedLen p ≤ codedLen q := by
    unfold codedLen
    rw [← h1]
    cases lenCases p with
    | short h16 h64 hl => rw [if_neg h16, if_neg h16, if_neg h64, if_neg h64]
    | medium h16 hl =>
      have h2 := h 2 (by omega)
      have h3 := h 3 (by omega)
      rw [if_pos h16, if_pos h16]
      simp only [ntohs, Nat.reduceAdd]
      omega
    | long h16 h64 hl =>
      have h6 := h 6 (by omega)
      have h7 := h 7 (by omega)
      have h8 := h 8 (by omega)
      have h9 := h 9 (by omega)
      rw [if_neg h16, if_neg h16, if_pos h64, if_pos h64]
      simp only [ntohl, Nat.reduceAdd]
      omega
  unfold frameSize
  rw [headerLen_congr h1, maskLen_congr h1]
  omega

end SrWebSocket
