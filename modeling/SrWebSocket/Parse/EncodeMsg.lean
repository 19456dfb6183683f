import SrWebSocket.Parse.MsgFrame
import SrWebSocket.Wire.WireFrame

/-! # The message encoder

`EncodeMsg` allocates a buffer for one frame and writes the header and the
payload into it. The frame has the FIN bit, the shortest form of the length and
no mask; nothing of what the allocated memory held before is left in it.
-/
namespace SrWebSocket

def memcpy (buf : List UInt8) (off : ℕ) (bytes : List UInt8) : List UInt8 :=
  buf.take off ++ bytes ++ buf.drop (off + bytes.length)

/-- `(char)((iLen >> shift) & 255)`. -/
def lenChar (iLen shift : ℕ) : UInt8 := UInt8.ofNat ((iLen >>> shift) &&& 255)

/-- `frameSize`, as `EncodeMsg` allocates it. -/
def encodedSize (w iLen : ℕ) : ℕ :=
  let frameSize := addSize w iLen 1
  if iLen ≤ 125 then addSize w frameSize 1
  else if 125 < iLen ∧ iLen ≤ 65535 then addSize w frameSize 3
  else addSize w frameSize 9

/-- `CWsMsgParse::EncodeMsg` on a buffer that holds `pMsg`; `none` is NULL, and
`junk` is what the allocated memory holds. -/
def encodeMsg (w : ℕ) (junk : ℕ → UInt8) (pMsg : List UInt8) (iFrameType : ℕ) : Option (List UInt8) :=
  let iLen := pMsg.length
  if 0 < iLen then
    let frameSize := encodedSize w iLen
    let pRetMsg := slice junk 0 frameSize
    let pRetMsg := memcpy pRetMsg 0 [UInt8.ofNat (0x80 ||| iFrameType)]
    let pRetMsg :=
      if iLen ≤ 125 then memcpy pRetMsg 1 [UInt8.ofNat iLen]
      else if 125 < iLen ∧ iLen ≤ 65535 then
        memcpy (memcpy pRetMsg 1 [0x7e]) 2 [lenChar iLen 8, lenChar iLen 0]
      else
        memcpy (memcpy pRetMsg 1 [0x7f]) 2
          [lenChar iLen 56, lenChar iLen 48, lenChar iLen 40, lenChar iLen 32,
            lenChar iLen 24, lenChar iLen 16, lenChar iLen 8, lenChar iLen 0]
    let iOffset := subSize w frameSize iLen
    some (memcpy pRetMsg iOffset pMsg)
  else none

/-! ## The frame that is written -/

def shortestForm (n : ℕ) : LenForm := if n ≤ 125 then .short else if n ≤ 65535 then .medium else .long

/-- An unmasked frame with the FIN bit and the shortest form of its length. -/
def serverFrame (op : UInt8) (payload : List UInt8) : List UInt8 :=
  opByte true op :: UInt8.ofNat ((shortestForm payload.length).code payload.length) ::
    ((shortestForm payload.length).extended payload.length ++ payload)

variable {buf pre bytes payload : List UInt8} {off n : ℕ}

theorem memcpy_append (h : off = pre.length) :
    memcpy (pre ++ buf) off bytes = (pre ++ bytes) ++ buf.drop bytes.length := by
  rw [memcpy, h, List.take_left, ← List.drop_drop, List.drop_left]

theorem lenChar_eq (n shift : ℕ) : lenChar n shift = UInt8.ofNat (n / 2 ^ shift) := by
  have hmod : (n >>> shift) &&& 255 = n / 2 ^ shift % 2 ^ 8 := by
    rw [Nat.shiftRight_eq_div_pow]
    exact Nat.and_two_pow_sub_one_eq_mod _ 8
  rw [lenChar, hmod, ← UInt8.toNat_inj, UInt8.toNat_ofNat', UInt8.toNat_ofNat', Nat.mod_mod]

theorem shortestForm_fits (h : n < 2 ^ 64) : (shortestForm n).Fits n := by
  unfold shortestForm
  split
  · exact Nat.lt_succ_of_le (by assumption)
  · split
    · exact Nat.lt_succ_of_le (by assumption)
    · exact h

theorem opByte_of_nat {t : ℕ} (ht : t < 16) : UInt8.ofNat (0x80 ||| t) = opByte true (UInt8.ofNat t) := by
  have hor : 0x80 ||| t = 128 + t := by
    have := Nat.two_pow_add_eq_or_of_lt (show t < 2 ^ 7 by omega) 1
    exact this.symm
  have hlt : (UInt8.ofNat t).toNat = t := by
    rw [UInt8.toNat_ofNat']
    exact Nat.mod_eq_of_lt (by omega)
  rw [← UInt8.toNat_inj, opByte_toNat (by omega), hlt, hor, UInt8.toNat_ofNat']
  exact Nat.mod_eq_of_lt (by omega)

theorem memcpy_nil (buf : List UInt8) (off : ℕ) : memcpy buf off [] = buf := by simp [memcpy]

theorem write_frame (junk : ℕ → UInt8) (a b : UInt8) (ext payload : List UInt8) :
    memcpy (memcpy (memcpy (memcpy (slice junk 0 (2 + ext.length + payload.length)) 0 [a]) 1 [b]) 2 ext)
      (2 + ext.length) payload = a :: b :: (ext ++ payload) := by
  obtain ⟨s, hs⟩ : ∃ s, s = slice junk 0 (2 + ext.length + payload.length) := ⟨_, rfl⟩
  have hlen : s.length = 2 + ext.length + payload.length := by rw [hs, length_slice]
  rw [← hs]
  have h0 : memcpy s 0 [a] = [a] ++ s.drop 1 := by simp [memcpy]
  have h1 : memcpy ([a] ++ s.drop 1) 1 [b] = ([a] ++ [b]) ++ (s.drop 1).drop 1 := memcpy_append rfl
  have h2 : memcpy ([a, b] ++ s.drop 2) 2 ext = ([a, b] ++ ext) ++ (s.drop 2).drop ext.length := memcpy_append rfl
  have hoff : 2 + ext.length = ([a, b] ++ ext).length := by
    rw [List.length_append]
    rfl
  rw [List.drop_drop] at h1 h2
  rw [h0, h1]
  change memcpy (memcpy ([a, b] ++ s.drop 2) 2 ext) (2 + ext.length) payload = _
  rw [h2, memcpy_append hoff, List.drop_drop, List.drop_eq_nil_of_le (by omega)]
  simp

/-- `EncodeMsg` writes exactly one frame, whatever the allocated memory held. -/
theorem encodeMsg_eq {t : ℕ} (ht : t < 16) (hpos : 0 < payload.length) (hlen : payload.length < 2 ^ 63)
    (junk : ℕ → UInt8) : encodeMsg 64 junk payload t = some (serverFrame (UInt8.ofNat t) payload) := by
  have hadd : ∀ k ≤ 9, addSize 64 (addSize 64 payload.length 1) k = 1 + k + payload.length := by
    intro k hk
    have h1 : addSize 64 payload.length 1 = payload.length + 1 := addSize_of_lt (by omega)
    rw [h1, addSize_of_lt (by omega)]
    omega
  have hsub : ∀ k ≤ 9, subSize 64 (1 + k + payload.length) payload.length = 1 + k := by
    intro k hk
    rw [subSize_of_le (by omega) (by omega), Nat.add_sub_cancel]
  unfold encodeMsg encodedSize serverFrame shortestForm
  simp only [hpos, if_true, opByte_of_nat ht]
  by_cases hshort : payload.length ≤ 125
  · simp only [hshort, if_true]
    rw [hadd 1 (by omega), hsub 1 (by omega)]
    have := write_frame junk (opByte true (UInt8.ofNat t)) (UInt8.ofNat payload.length) [] payload
    rw [memcpy_nil] at this
    exact congrArg some this
  · simp only [hshort, if_false]
    by_cases hmedium : payload.length ≤ 65535
    · have hboth : 125 < payload.length ∧ payload.length ≤ 65535 := by omega
      simp only [hboth, and_self, if_true]
      rw [hadd 3 (by omega), hsub 3 (by omega)]
      have hext : LenForm.medium.extended payload.length = [lenChar payload.length 8, lenChar payload.length 0] := by
        simp only [LenForm.extended, bigEndian, lenChar_eq, Nat.reducePow]
      rw [hext]
      exact congrArg some (write_frame junk _ _ [_, _] payload)
    · simp only [hmedium, and_false, if_false]
      rw [hadd 9 (by omega), hsub 9 (by omega)]
      have hext : LenForm.long.extended payload.length =
          [lenChar payload.length 56, lenChar payload.length 48, lenChar payload.length 40, lenChar payload.length 32,
            lenChar payload.length 24, lenChar payload.length 16, lenChar payload.length 8, lenChar payload.length 0] := by
        simp only [LenForm.extended, bigEndian, lenChar_eq, Nat.reducePow]
      rw [hext]
      exact congrArg some (write_frame junk _ _ [_, _, _, _, _, _, _, _] payload)

end SrWebSocket
