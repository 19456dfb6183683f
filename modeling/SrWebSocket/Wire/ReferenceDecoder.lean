import SrWebSocket.Parse.EncodeMsg

/-! # Encoded messages under a decoder of the wire format

The wire format has a seven-bit length, or 126 and two bytes, or 127 and eight
bytes, all of them significant. `decodeFrame` reads frames by these rules alone;
it finds in each result of `EncodeMsg` the message that was encoded.
-/
namespace SrWebSocket

/-- A frame of the wire format. -/
structure RefFrame where
  fin : Bool
  opcode : UInt8
  payload : List UInt8
deriving DecidableEq

/-- The first `n` bytes, when there are so many, and the bytes behind them. -/
def splitBytes (n : ℕ) (s : List UInt8) : Option (List UInt8 × List UInt8) :=
  if n ≤ s.length then some (s.take n, s.drop n) else none

/-- The payload length for the seven length bits `code`, and what follows its extension. -/
def readLength (code : ℕ) (s : List UInt8) : Option (ℕ × List UInt8) :=
  if code = 126 then (splitBytes 2 s).map fun r => (ofBigEndian r.1, r.2)
  else if code = 127 then (splitBytes 8 s).map fun r => (ofBigEndian r.1, r.2)
  else some (code, s)

/-- One frame of the wire format, and the bytes behind it. -/
def decodeFrame : List UInt8 → Option (RefFrame × List UInt8)
  | b₀ :: b₁ :: s => do
    let (n, s) ← readLength (b₁.toNat % 128) s
    let (key, s) ← splitBytes (if 128 ≤ b₁.toNat then 4 else 0) s
    let (raw, s) ← splitBytes n s
    let payload := if 128 ≤ b₁.toNat then applyMask (fun i => key.getD i 0) raw else raw
    some ({ fin := decide (128 ≤ b₀.toNat), opcode := b₀ &&& 0x0f, payload := payload }, s)
  | _ => none

/-- The shortest form of a length, without the mask bit. -/
def lengthBytes (n : ℕ) : List UInt8 :=
  if n ≤ 125 then [UInt8.ofNat n]
  else if n ≤ 65535 then 126 :: bigEndian 2 n
  else 127 :: bigEndian 8 n

variable {n t : ℕ} {s xs payload : List UInt8}

theorem splitBytes_append (h : n = xs.length) (s : List UInt8) : splitBytes n (xs ++ s) = some (xs, s) := by
  have hle : n ≤ (xs ++ s).length := by rw [List.length_append]; omega
  rw [splitBytes, if_pos hle, h, List.take_left, List.drop_left]

theorem length_lengthBytes (n : ℕ) :
    (lengthBytes n).length = if n ≤ 125 then 1 else if n ≤ 65535 then 3 else 9 := by
  unfold lengthBytes
  split_ifs
  · rfl
  · rw [List.length_cons, length_bigEndian]
  · rw [List.length_cons, length_bigEndian]

/-- The length is read back, with nothing of what follows it. -/
theorem exists_lengthBytes (hn : n < 2 ^ 64) :
    ∃ b ext, lengthBytes n = b :: ext ∧ b.toNat < 128 ∧ ∀ s, readLength (b.toNat % 128) (ext ++ s) = some (n, s) := by
  unfold lengthBytes
  by_cases hshort : n ≤ 125
  · have hb : (UInt8.ofNat n).toNat = n := by
      rw [UInt8.toNat_ofNat']
      exact Nat.mod_eq_of_lt (by omega)
    rw [if_pos hshort]
    refine ⟨_, [], rfl, by omega, fun s => ?_⟩
    rw [hb, Nat.mod_eq_of_lt (by omega), readLength, if_neg (by omega), if_neg (by omega), List.nil_append]
  · rw [if_neg hshort]
    by_cases hmedium : n ≤ 65535
    · rw [if_pos hmedium]
      refine ⟨126, bigEndian 2 n, rfl, by decide, fun s => ?_⟩
      have hcode : (126 : UInt8).toNat % 128 = 126 := rfl
      rw [hcode, readLength, if_pos rfl, splitBytes_append (length_bigEndian 2 n).symm, Option.map_some,
        ofBigEndian_bigEndian, Nat.mod_eq_of_lt (by omega)]
    · rw [if_neg hmedium]
      refine ⟨127, bigEndian 8 n, rfl, by decide, fun s => ?_⟩
      have hcode : (127 : UInt8).toNat % 128 = 127 := rfl
      rw [hcode, readLength, if_neg (by decide), if_pos rfl, splitBytes_append (length_bigEndian 8 n).symm,
        Option.map_some, ofBigEndian_bigEndian, Nat.mod_eq_of_lt (by omega)]

theorem decodeFrame_unmasked (hn : payload.length < 2 ^ 64) (b₀ : UInt8) (s : List UInt8) :
    decodeFrame (b₀ :: (lengthBytes payload.length ++ payload) ++ s) =
      some ({ fin := decide (128 ≤ b₀.toNat), opcode := b₀ &&& 0x0f, payload := payload }, s) := by
  obtain ⟨b, ext, he, hb, hread⟩ := exists_lengthBytes hn
  have hmask : ¬128 ≤ b.toNat := Nat.not_le.mpr hb
  have hlen := hread (payload ++ s)
  have hkey : splitBytes 0 (payload ++ s) = some ([], payload ++ s) := if_pos (Nat.zero_le _)
  have hpay : splitBytes payload.length (payload ++ s) = some (payload, s) := splitBytes_append rfl s
  rw [he]
  simp only [List.cons_append, List.append_assoc, decodeFrame, hmask, if_false, hlen, hkey, hpay, Option.bind_eq_bind,
    Option.bind_some]

theorem serverFrame_bytes (ht : t < 16) (payload : List UInt8) :
    serverFrame (UInt8.ofNat t) payload = UInt8.ofNat (0x80 + t) :: (lengthBytes payload.length ++ payload) := by
  have hor : 0x80 + t = 0x80 ||| t := Nat.two_pow_add_eq_or_of_lt (show t < 2 ^ 7 by omega) 1
  unfold serverFrame shortestForm lengthBytes
  rw [hor, opByte_of_nat ht]
  split_ifs <;> rfl

theorem encodedSize_eq (hn : n < 2 ^ 63) : encodedSize 64 n = 1 + (lengthBytes n).length + n := by
  have hadd : ∀ k ≤ 9, addSize 64 (addSize 64 n 1) k = n + 1 + k := by
    intro k hk
    rw [addSize_of_lt (show n + 1 < 2 ^ 64 by omega), addSize_of_lt (by omega)]
  unfold encodedSize
  dsimp only
  rw [length_lengthBytes, hadd 1 (by omega), hadd 3 (by omega), hadd 9 (by omega)]
  split_ifs <;> omega

/-- `EncodeMsg` writes all bytes of a frame in the wire format, whatever the
allocated memory held, and a decoder of that format finds the message in it. -/
theorem encodeMsg_wireFormat (t : ℕ) (ht : t < 16) (payload : List UInt8) (hpos : 1 ≤ payload.length)
    (hlen : payload.length < 2 ^ 63) :
    encodedSize 64 payload.length = 1 + (lengthBytes payload.length).length + payload.length ∧
    ∃ frame, (∀ junk, encodeMsg 64 junk payload t = some frame) ∧ frame.length = encodedSize 64 payload.length ∧
      frame = UInt8.ofNat (0x80 + t) :: (lengthBytes payload.length ++ payload) ∧ frame.getD 1 0 &&& 0x80 = 0 ∧
      ∀ s, decodeFrame (frame ++ s) = some ({ fin := true, opcode := UInt8.ofNat t, payload := payload }, s) := by
  have hsize := encodedSize_eq hlen
  have hframe := serverFrame_bytes ht payload
  refine ⟨hsize, _, encodeMsg_eq ht hpos hlen, ?_, hframe, ?_, fun s => ?_⟩
  · rw [hframe, hsize, List.length_cons, List.length_append]
    omega
  · obtain ⟨b, ext, he, hb, _⟩ := exists_lengthBytes (n := payload.length) (hlen.trans (by decide))
    rw [hframe, he]
    change b &&& 0x80 = 0
    by_contra hbit
    exact absurd ((and_80_ne_zero b).mp hbit) (Nat.not_le.mpr hb)
  · have hfirst : (UInt8.ofNat (0x80 + t)).toNat = 0x80 + t := by
      rw [UInt8.toNat_ofNat']
      exact Nat.mod_eq_of_lt (by omega)
    have hop : UInt8.ofNat (0x80 + t) &&& 0x0f = UInt8.ofNat t := by
      rw [← UInt8.toNat_inj, toNat_and_0f, hfirst, UInt8.toNat_ofNat']
      omega
    rw [hframe, decodeFrame_unmasked (hlen.trans (by decide)), hfirst, hop, decide_eq_true (by omega)]

theorem encodeMsg_wireFormat_text :
    encodedSize 64 ([97, 98] : List UInt8).length =
      1 + (lengthBytes ([97, 98] : List UInt8).length).length + ([97, 98] : List UInt8).length ∧
    ∃ frame : List UInt8, (fun junk => encodeMsg 64 junk [97, 98] 1) = (fun _ => some frame) ∧
      decodeFrame frame = some ({ fin := true, opcode := 1, payload := [97, 98] }, []) := by
  obtain ⟨hsize, frame, hall, _, _, _, hread⟩ := encodeMsg_wireFormat 1 (by decide) [97, 98] (by decide) (by decide)
  have hread' := hread []
  rw [List.append_nil] at hread'
  exact ⟨hsize, frame, funext hall, hread'⟩

end SrWebSocket
