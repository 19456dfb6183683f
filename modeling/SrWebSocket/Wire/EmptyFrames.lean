import SrWebSocket.Parse.CacheRuns
import SrWebSocket.Wire.FrameBoundary

/-! # Empty frames

`TryDecodeLen` takes an empty payload for a failure, and `DecodeMsg` then returns
0 as it does when bytes are missing. The wire format has empty frames: a PING
without data, a CLOSE without a code. Behind one of them the cursor never moves
again.
-/
namespace SrWebSocket

/-- A complete frame of the wire format stands at the cursor, its payload below 2^32 bytes. -/
structure CompleteFrame (c : WsMsgCache) : Prop where
  arrived : c.iCurFrameIndex + wireSize (headerAt c) ≤ c.pBuffer.length
  below : wireLen (headerAt c) < 2 ^ 32

/-- A call delivers a message or moves the cursor past the frame that it stood at. -/
def Progress (c : WsMsgCache) (ret : DecodeRet) : Prop :=
  ret.iRet ≠ 0 ∧ ret.pWsMsg.isSome ∨ c.iCurFrameIndex + wireSize (headerAt c) ≤ ret.pMsgCache.iCurFrameIndex

variable {c c' : WsMsgCache} {fs ks : List (List UInt8)} {u rest t chunk : List UInt8} {junk : ℕ → UInt8}
  {ret : DecodeRet} {acts : List CacheAct}

theorem CompleteFrame.header (h : CompleteFrame c) : HeaderArrived c := by
  have harrived := h.arrived
  unfold wireSize at harrived
  unfold HeaderArrived
  omega

theorem CompleteFrame.codedLen (h : CompleteFrame c) : codedLen (headerAt c) = wireLen (headerAt c) := by
  rw [codedLen_eq_mod, Nat.mod_eq_of_lt h.below]

theorem Scanned.headerAt (h : Scanned c fs rest) : headerAt c = bytesOf rest := h.header fun _ => 0

/-- The frame at the cursor is one for the decoder exactly when it is not empty. -/
theorem CompleteFrame.size (h : CompleteFrame c) (hS : Scanned c fs rest) :
    frameUnits.size rest = if 0 < wireLen (headerAt c) then some (wireSize (headerAt c)) else none := by
  have hlen := hS.length_eq
  have harrived := h.arrived
  have hsize : frameSize (SrWebSocket.headerAt c) = wireSize (SrWebSocket.headerAt c) := by
    rw [frameSize, wireSize, h.codedLen]
  have hcomplete : CompleteIn (SrWebSocket.headerAt c) rest.length ↔ 0 < wireLen (SrWebSocket.headerAt c) := by
    rw [CompleteIn, h.codedLen, hsize]
    exact and_iff_left (by omega)
  rw [hS.headerAt] at hcomplete hsize ⊢
  change (if CompleteIn (bytesOf rest) rest.length then some (frameSize (bytesOf rest)) else none) = _
  rw [hsize]
  exact if_congr hcomplete rfl rfl

/-- A call in front of an empty frame changes nothing. -/
theorem RunInv.call_empty (h : RunInv c fs rest) (hlen : c.iCurFrameLen = 0) (hc : c.iComplete = false)
    (hframe : CompleteFrame c) (hzero : wireLen (headerAt c) = 0) (junk : ℕ → UInt8) :
    decodeMsg 64 (callFuel c) junk c none = some ⟨0, c, none⟩ := by
  have hS := h.scanned
  have hindex := hS.length_eq
  have hnone : frameUnits.size rest = none := by rw [hframe.size hS, hzero, if_neg (lt_irrefl 0)]
  have hnil : Scanned c fs (([] : List (List UInt8)).flatten ++ rest) := hS
  have hcall := decodeMsg_open hnil (by simp) (by simp) hnone hc (not_turnedAway (by omega)) le_rfl junk
  have hcoded : (SrWebSocket.codedLen fun i => memory c.pBuffer junk (c.iCurFrameIndex + i)) = 0 :=
    (congrArg WsMsgFrame.payloadLength (frameOf_headerAt hframe.header junk)).trans (hframe.codedLen.trans hzero)
  have hhead := two_le_headerLen (SrWebSocket.headerAt c)
  have harrived := hframe.header
  unfold HeaderArrived at harrived
  have hstop : SrWebSocket.scanStop junk c = .assertFailed c := by
    unfold SrWebSocket.scanStop
    dsimp only
    rw [if_neg (by omega), if_pos hcoded]
  rw [hcall]
  change some (DecodeRet.mk 0 (SrWebSocket.scanStop junk c).cache none) = _
  rw [hstop]
  rfl

/-- In every run, a call in front of a complete frame makes progress exactly when
the frame is not empty. -/
theorem progress_iff (acts : List CacheAct) (c : WsMsgCache)
    (hrun : Machine.exec WsMsgCache.step (.fresh []) acts = some c) (hlen : c.iCurFrameLen = 0) (hc : c.iComplete = false)
    (hframe : CompleteFrame c) (junk : ℕ → UInt8) :
    (∃ ret, decodeMsg 64 (callFuel c) junk c none = some ret ∧ Progress c ret) ↔ 0 < wireLen (headerAt c) := by
  obtain ⟨fs, rest, h⟩ := runInv_exec hrun
  have hS := h.scanned
  have hindex := hS.length_eq
  constructor
  · rintro ⟨ret, hcall, hprogress⟩
    by_contra hzero
    have hwedged := h.call_empty hlen hc hframe (by omega) junk
    obtain rfl := Option.some.inj (hwedged.symm.trans hcall)
    have hhead := two_le_headerLen (headerAt c)
    rcases hprogress with ⟨hne, _⟩ | hmoved
    · exact hne rfl
    · unfold wireSize at hmoved
      dsimp only at hmoved
      omega
  · intro hpos
    obtain ⟨ret, hcall, hret⟩ := h.result junk
    refine ⟨ret, hcall, ?_⟩
    cases hret with
    | stalled hst he =>
      unfold Stalled at hst
      omega
    | message hst ks t hrest hks hg hno he => exact Or.inl (he ▸ ⟨one_ne_zero, rfl⟩)
    | clash hst ks t hrest hks hg hclash he => exact Or.inl (he ▸ ⟨one_ne_zero, rfl⟩)
    | waiting hst ks t hrest hks ho hnone hcomplete he =>
      have hsize := hframe.size hS
      rw [if_pos hpos] at hsize
      obtain ⟨u, t', hu, hwu, hulen⟩ := Framing.exists_whole_of_size hsize
      have hrow : [u].flatten ++ t' = ks.flatten ++ t := by rw [List.flatten_singleton, ← hu, hrest]
      obtain ⟨ws, rfl, _⟩ := Framing.parse_maximal (List.forall_mem_singleton.mpr hwu) hks hrow hnone
      subst hrest
      have hnext := ((h.acceptAll hks ho).scanStop junk).scanned.index
      have hbefore := hS.index
      apply Or.inr
      subst he
      simp only [List.flatten_append, List.flatten_cons, List.length_append, List.flatten_nil, List.append_nil] at hnext ⊢
      omega
    | again hst ks t hrest hks ho hnone hcomplete he => exact absurd (hc.symm.trans hcomplete) (by simp)

theorem progress_text :
    (∃ ret, decodeMsg 64 (callFuel (.fresh [0x81, 1, 97])) (fun _ => 0xff) (.fresh [0x81, 1, 97]) none = some ret ∧
      Progress (.fresh [0x81, 1, 97]) ret) ↔ 0 < wireLen (headerAt (.fresh [0x81, 1, 97])) :=
  progress_iff [.append [0x81, 1, 97]] (.fresh [0x81, 1, 97]) (by decide) rfl rfl ⟨by decide, by decide⟩ fun _ => 0xff

/-- A PING without data in front of the text `a`. -/
def emptyPing : List UInt8 := [0x89, 0, 0x81, 1, 97]

theorem emptyPing_stuck :
    Machine.exec WsMsgCache.step (.fresh []) [.append emptyPing] = some (.fresh emptyPing) ∧
    CompleteFrame (.fresh emptyPing) ∧
    decodeMsg 64 6 (fun _ => 0) (.fresh emptyPing) none = some ⟨0, .fresh emptyPing, none⟩ ∧
    ¬Progress (.fresh emptyPing) ⟨0, .fresh emptyPing, none⟩ := by
  refine ⟨by decide, ⟨by decide, by decide⟩, by decide, ?_⟩
  rintro (⟨hne, _⟩ | hmoved)
  · exact hne rfl
  · exact absurd hmoved (by decide)

/-! ## Behind an empty frame -/

/-- The cursor stands at an empty frame, and no assertion on the opcodes has failed before. -/
structure AtEmptyFrame (c : WsMsgCache) : Prop where
  inv : ∃ fs rest, RunInv c fs rest
  used : c.iCurFrameLen = 0
  running : c.iComplete = false
  frame : CompleteFrame c
  empty : wireLen (headerAt c) = 0

theorem headerAt_append (c : WsMsgCache) (chunk : List UInt8) {i : ℕ} (hi : c.iCurFrameIndex + i < c.pBuffer.length) :
    headerAt c i = headerAt (c.append chunk) i := by
  have hread : memory (c.pBuffer ++ chunk) (fun _ => 0) (c.iCurFrameIndex + i) =
      memory c.pBuffer (fun _ => 0) (c.iCurFrameIndex + i) := memory_append_left hi
  exact hread.symm

theorem AtEmptyFrame.append (h : AtEmptyFrame c) (hlen : c.pBuffer.length + chunk.length < 2 ^ 63) :
    AtEmptyFrame (c.append chunk) := by
  obtain ⟨fs, rest, hinv⟩ := h.inv
  have harrived := h.frame.arrived
  have hheader := h.frame.header
  unfold HeaderArrived at hheader
  have hsame : ∀ i < headerLen (headerAt c), headerAt c i = headerAt (c.append chunk) i :=
    fun i hi => headerAt_append c chunk (by omega)
  have hbyte := hsame 1 (two_le_headerLen _)
  have hwire := wireLen_congr hsame
  have hsize : wireSize (headerAt (c.append chunk)) = wireSize (headerAt c) := by
    rw [wireSize, wireSize, headerLen_congr hbyte, maskLen_congr hbyte, hwire]
  refine ⟨⟨fs, _, hinv.append hlen⟩, h.used, h.running, ⟨?_, hwire ▸ h.frame.below⟩, hwire ▸ h.empty⟩
  rw [hsize]
  change c.iCurFrameIndex + wireSize (headerAt c) ≤ (c.pBuffer ++ chunk).length
  rw [List.length_append]
  omega

theorem AtEmptyFrame.call (h : AtEmptyFrame c) (junk : ℕ → UInt8) :
    decodeMsg 64 (callFuel c) junk c none = some ⟨0, c, none⟩ := by
  obtain ⟨fs, rest, hinv⟩ := h.inv
  exact hinv.call_empty h.used h.running h.frame h.empty junk

/-- Whatever arrives later, the cursor stays and no message is delivered. -/
theorem AtEmptyFrame.exec (h : AtEmptyFrame c) (hrun : Machine.exec WsMsgCache.step c acts = some c') :
    c'.iCurFrameIndex = c.iCurFrameIndex ∧ ∀ junk, decodeMsg 64 (callFuel c') junk c' none = some ⟨0, c', none⟩ := by
  have hinv := Machine.exec_invariant (fun t => AtEmptyFrame t ∧ t.iCurFrameIndex = c.iCurFrameIndex) ?_ ⟨h, rfl⟩ hrun
  · exact ⟨hinv.2, hinv.1.call⟩
  · rintro s a t ⟨hs, hidx⟩ hstep
    cases a with
    | append chunk =>
      obtain ⟨hlen, he⟩ := Option.ite_none_right_eq_some.mp hstep
      exact Option.some.inj he ▸ ⟨hs.append hlen, hidx⟩
    | decode junk =>
      obtain ⟨ret, hcall, rfl⟩ := Option.map_eq_some_iff.mp hstep
      obtain rfl := Option.some.inj ((hs.call junk).symm.trans hcall)
      exact ⟨hs, hidx⟩

end SrWebSocket
