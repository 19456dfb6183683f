import SrWebSocket.General.Framing
import SrWebSocket.Parse.MsgFrame

/-! # Whole frames as units of the stream

A frame whose header, mask and payload are all among the used bytes is measured
the same by `TryDecodeLen` whatever the memory behind them holds, so whole
frames are the units of a framing of the byte stream.
-/
namespace SrWebSocket

/-- A buffer seen alone, with zeros behind its used bytes. -/
def bytesOf (s : List UInt8) : ℕ → UInt8 := memory s fun _ => 0

def CompleteIn (p : ℕ → UInt8) (n : ℕ) : Prop := 0 < codedLen p ∧ frameSize p ≤ n

instance (p : ℕ → UInt8) (n : ℕ) : Decidable (CompleteIn p n) := inferInstanceAs (Decidable (_ ∧ _))

variable {p q : ℕ → UInt8} {n : ℕ} {s t u : List UInt8}

theorem CompleteIn.headerLen_le (h : CompleteIn p n) : headerLen p ≤ n := by
  have := h.2
  unfold frameSize at this
  omega

theorem CompleteIn.congr (h : CompleteIn p n) (hpq : ∀ i < n, p i = q i) :
    CompleteIn q n ∧ frameOf p = frameOf q := by
  have hle := h.headerLen_le
  have hf : frameOf p = frameOf q := frameOf_congr fun i hi => hpq i (by omega)
  have hc : codedLen p = codedLen q := congrArg WsMsgFrame.payloadLength hf
  have hs : frameSize p = frameSize q := congrArg WsMsgFrame.expectsize hf
  exact ⟨⟨hc ▸ h.1, hs ▸ h.2⟩, hf⟩

theorem completeIn_memory (s : List UInt8) (junk : ℕ → UInt8) :
    CompleteIn (memory s junk) s.length ↔ CompleteIn (bytesOf s) s.length :=
  ⟨fun h => (h.congr fun _ hi => memory_congr hi).1, fun h => (h.congr fun _ hi => memory_congr hi).1⟩

/-- The units of the byte stream: frames that are complete in it. -/
def frameUnits : Framing UInt8 where
  size s := if CompleteIn (bytesOf s) s.length then some (frameSize (bytesOf s)) else none
  size_pos := by
    intro s n h
    split at h
    · rename_i hc
      cases h
      have := hc.1
      unfold frameSize
      omega
    · cases h
  size_le := by
    intro s n h
    split at h
    · rename_i hc
      cases h
      exact hc.2
    · cases h
  size_take := by
    intro s n h
    split at h
    · rename_i hc
      cases h
      have hlen : (s.take (frameSize (bytesOf s))).length = frameSize (bytesOf s) := by
        rw [List.length_take]
        exact Nat.min_eq_left hc.2
      obtain ⟨hc', hf⟩ := CompleteIn.congr (q := bytesOf (s.take (frameSize (bytesOf s)))) ⟨hc.1, le_refl _⟩ (by
        intro i hi
        have hs : s = s.take (frameSize (bytesOf s)) ++ s.drop (frameSize (bytesOf s)) :=
          (List.take_append_drop _ s).symm
        conv_lhs => rw [bytesOf, hs]
        exact memory_append_left (by rw [hlen]; exact hi))
      have hsz := congrArg WsMsgFrame.expectsize hf
      rw [hlen, if_pos hc']
      exact congrArg some hsz.symm
    · cases h
  size_append := by
    intro s n h t
    split at h
    · rename_i hc
      cases h
      obtain ⟨hc', hf⟩ := hc.congr (q := bytesOf (s ++ t)) fun i hi => (memory_append_left hi).symm
      have hsz := congrArg WsMsgFrame.expectsize hf
      rw [if_pos ⟨hc'.1, hc'.2.trans (by rw [List.length_append]; omega)⟩]
      exact congrArg some hsz.symm
    · cases h

theorem size_eq_none : frameUnits.size s = none ↔ ¬CompleteIn (bytesOf s) s.length := by
  simp only [frameUnits, ite_eq_right_iff, reduceCtorEq, imp_false]

theorem whole_iff : frameUnits.Whole u ↔ 0 < codedLen (bytesOf u) ∧ frameSize (bytesOf u) = u.length := by
  simp only [Framing.Whole, frameUnits]
  constructor
  · intro h
    split at h
    · rename_i hc
      exact ⟨hc.1, Option.some.inj h⟩
    · cases h
  · rintro ⟨hc, hs⟩
    rw [if_pos ⟨hc, hs.le⟩, hs]

/-! ## What a frame carries -/

def opcode (u : List UInt8) : UInt8 := bytesOf u 0 &&& 0x0f

def isFin (u : List UInt8) : Bool := decide (bytesOf u 0 &&& 0x80 = 0x80)

def payloadLen (u : List UInt8) : ℕ := codedLen (bytesOf u)

/-- The payload of a frame with the mask taken off. -/
def payload (u : List UInt8) : List UInt8 :=
  let raw := u.drop (headerLen (bytesOf u) + maskLen (bytesOf u))
  if bytesOf u 1 &&& 0x80 ≠ 0 then applyMask (fun i => bytesOf u (headerLen (bytesOf u) + i)) raw else raw

theorem length_payload (h : frameUnits.Whole u) : (payload u).length = payloadLen u := by
  have hs := (whole_iff.mp h).2
  unfold frameSize at hs
  have hd : (u.drop (headerLen (bytesOf u) + maskLen (bytesOf u))).length = codedLen (bytesOf u) := by
    rw [List.length_drop]
    omega
  unfold payload payloadLen
  split <;> simp only [length_applyMask, hd]

theorem payloadLen_pos (h : frameUnits.Whole u) : 0 < payloadLen u := (whole_iff.mp h).1

theorem payloadLen_le (h : frameUnits.Whole u) : payloadLen u ≤ u.length := by
  have hs := (whole_iff.mp h).2
  unfold frameSize at hs
  unfold payloadLen
  omega

theorem three_le_length (h : frameUnits.Whole u) : 3 ≤ u.length := by
  have hs := (whole_iff.mp h).2
  have hp := (whole_iff.mp h).1
  have hh := two_le_headerLen (bytesOf u)
  unfold frameSize at hs
  omega

end SrWebSocket
