import SrWebSocket.Parse.DecodeMsg
import SrWebSocket.Parse.FrameUnits

/-! # What the reassembly builds

On a row of whole frames the reassembly loop is a fold: payloads are joined, the
first opcode other than zero names the message, and the fold stops at a frame
whose opcode is neither zero nor that name.
-/
namespace SrWebSocket

def WsMsg.empty : WsMsg where
  pBuffer := []
  frameType := 0

/-- The opcode that names the message once frame `u` has been looked at. -/
def WsMsg.typeAfter (m : WsMsg) (u : List UInt8) : UInt8 := if m.frameType = 0 then opcode u else m.frameType

/-- The opcode assertion of the reassembly at frame `u`. -/
def WsMsg.Joins (m : WsMsg) (u : List UInt8) : Prop := m.typeAfter u = opcode u ∨ opcode u = wsFrameContinuation

instance (m : WsMsg) (u : List UInt8) : Decidable (m.Joins u) := inferInstanceAs (Decidable (_ ∨ _))

def WsMsg.join (m : WsMsg) (u : List UInt8) : WsMsg where
  pBuffer := m.pBuffer ++ payload u
  frameType := m.typeAfter u

/-- The message built from a row of frames, and whether all of them joined it. -/
def assemble : WsMsg → List (List UInt8) → WsMsg × Bool
  | m, [] => (m, true)
  | m, u :: us => if m.Joins u then assemble (m.join u) us else ({ m with frameType := m.typeAfter u }, false)

/-- The first `idx` bytes of the buffer are the frames `fs`, and the cache counts
their payloads. -/
structure Scanned (c : WsMsgCache) (fs : List (List UInt8)) (rest : List UInt8) : Prop where
  buffer : c.pBuffer = fs.flatten ++ rest
  whole : ∀ u ∈ fs, frameUnits.Whole u
  index : c.iCurFrameIndex = fs.flatten.length
  total : c.iTotalFrameLen = (fs.map payloadLen).sum
  small : c.pBuffer.length < 2 ^ 63

variable {c : WsMsgCache} {fs us done : List (List UInt8)} {u rest t : List UInt8} {junk : ℕ → UInt8} {w : ℕ}

theorem Scanned.empty (h : Scanned c fs rest) (hp : ¬0 < c.pBuffer.length) : fs.flatten = [] ∧ rest = [] := by
  have hz : c.pBuffer = [] := List.length_eq_zero_iff.mp (Nat.eq_zero_of_not_pos hp)
  exact List.append_eq_nil_iff.mp (h.buffer.symm.trans hz)

theorem sum_payloadLen_le (h : ∀ u ∈ us, frameUnits.Whole u) : (us.map payloadLen).sum ≤ us.flatten.length := by
  induction us with
  | nil => simp
  | cons u us ih =>
    have hu := payloadLen_le (h u List.mem_cons_self)
    have hus := ih fun v hv => h v (List.mem_cons_of_mem _ hv)
    simp only [List.map_cons, List.sum_cons, List.flatten_cons, List.length_append]
    omega

theorem memory_unit (hb : c.pBuffer = done.flatten ++ (u ++ t)) (junk : ℕ → UInt8) :
    ∀ i < u.length, memory c.pBuffer junk (done.flatten.length + i) = bytesOf u i := by
  intro i hi
  rw [memory_drop, hb, List.drop_left]
  exact memory_append_left hi

theorem frameOf_unit (hb : c.pBuffer = done.flatten ++ (u ++ t)) (hu : frameUnits.Whole u) (junk : ℕ → UInt8) :
    frameOf (fun i => memory c.pBuffer junk (done.flatten.length + i)) = frameOf (bytesOf u) ∧
    0 < codedLen (fun i => memory c.pBuffer junk (done.flatten.length + i)) := by
  have hw := whole_iff.mp hu
  obtain ⟨hc, hf⟩ := CompleteIn.congr (n := u.length) ⟨hw.1, hw.2.le⟩
    fun i hi => (memory_unit hb junk i hi).symm
  exact ⟨hf.symm, hc.1⟩

theorem slice_unit (hb : c.pBuffer = done.flatten ++ (u ++ t)) (hu : frameUnits.Whole u) (junk : ℕ → UInt8) :
    slice (memory c.pBuffer junk) (done.flatten.length + (frameOf (bytesOf u)).payloadOffset)
      (frameOf (bytesOf u)).payloadLength = u.drop (headerLen (bytesOf u) + maskLen (bytesOf u)) := by
  have hw := (whole_iff.mp hu).2
  unfold frameSize at hw
  rw [slice_memory, hb]
  · rw [← List.drop_drop, List.drop_left]
    simp only [frameOf]
    rw [List.drop_append_of_le_length (by omega)]
    exact List.take_left' (by rw [List.length_drop]; omega)
  · rw [hb]
    simp only [frameOf, List.length_append]
    omega

theorem copy_payload (hb : c.pBuffer = done.flatten ++ (u ++ t)) (hu : frameUnits.Whole u) (junk : ℕ → UInt8)
    (buf : List UInt8) :
    (if (frameOf (bytesOf u)).mask = true ∧ 4 < (frameOf (bytesOf u)).payloadOffset then
      xorLoop
        (fun i => memory c.pBuffer junk (done.flatten.length + (frameOf (bytesOf u)).payloadOffset - 4 + i))
        buf.length (frameOf (bytesOf u)).payloadLength
        (buf ++ slice (memory c.pBuffer junk) (done.flatten.length + (frameOf (bytesOf u)).payloadOffset)
          (frameOf (bytesOf u)).payloadLength)
    else
      buf ++ slice (memory c.pBuffer junk) (done.flatten.length + (frameOf (bytesOf u)).payloadOffset)
        (frameOf (bytesOf u)).payloadLength) = buf ++ payload u := by
  have hw := (whole_iff.mp hu).2
  unfold frameSize at hw
  rw [slice_unit hb hu]
  have hlen : (frameOf (bytesOf u)).payloadLength =
      (u.drop (headerLen (bytesOf u) + maskLen (bytesOf u))).length := by
    simp only [frameOf, List.length_drop]
    omega
  unfold payload
  by_cases hm : bytesOf u 1 &&& 0x80 ≠ 0
  · have hml : maskLen (bytesOf u) = 4 := if_pos hm
    have hh := two_le_headerLen (bytesOf u)
    have hcond : (frameOf (bytesOf u)).mask = true ∧ 4 < (frameOf (bytesOf u)).payloadOffset := by
      refine ⟨decide_eq_true hm, ?_⟩
      simp only [frameOf]
      omega
    rw [if_pos hcond, if_pos hm, hlen, xorLoop_append]
    congr 1
    apply applyMask_congr
    intro i hi
    have ho : done.flatten.length + (frameOf (bytesOf u)).payloadOffset - 4 + i =
        done.flatten.length + (headerLen (bytesOf u) + i) := by
      simp only [frameOf]
      omega
    rw [ho]
    exact memory_unit hb junk _ (by omega)
  · have hcond : ¬((frameOf (bytesOf u)).mask = true ∧ 4 < (frameOf (bytesOf u)).payloadOffset) := by
      rintro ⟨h, _⟩
      exact hm (of_decide_eq_true h)
    rw [if_neg hcond, if_neg hm]

theorem reassembleStep_whole (h : Scanned c (done ++ u :: us) rest) (hw : c.pBuffer.length < 2 ^ w)
    (pWsMsg : Option WsMsg) (hm : (pWsMsg.getD WsMsg.empty).pBuffer.length = (done.map payloadLen).sum)
    (junk : ℕ → UInt8) :
    reassembleStep w junk c ⟨done.flatten.length, (done.map payloadLen).sum, pWsMsg⟩ =
      let m := pWsMsg.getD WsMsg.empty
      if m.Joins u then
        .inl ⟨(done ++ [u]).flatten.length, ((done ++ [u]).map payloadLen).sum, some (m.join u)⟩
      else .inr (.assertFailed (some { m with frameType := m.typeAfter u })) := by
  have hu : frameUnits.Whole u := h.whole u (by simp)
  have hb : c.pBuffer = done.flatten ++ (u ++ (us.flatten ++ rest)) := by simp [h.buffer]
  have hlen : c.pBuffer.length = done.flatten.length + (u.length + (us.flatten.length + rest.length)) := by
    rw [hb]
    simp only [List.length_append]
  have hidx : c.iCurFrameIndex = done.flatten.length + (u.length + us.flatten.length) := by
    rw [h.index]
    simp
  have htot : c.iTotalFrameLen = (done.map payloadLen).sum + (payloadLen u + (us.map payloadLen).sum) := by
    rw [h.total]
    simp
  have hd := sum_payloadLen_le fun v hv => h.whole v (List.mem_append_left _ hv)
  have hpl := payloadLen_le hu
  have hpos := hu.length_pos
  obtain ⟨hf, hc⟩ := frameOf_unit hb hu junk
  have hcond : done.flatten.length < c.iCurFrameIndex ∧ (done.map payloadLen).sum ≤ c.iTotalFrameLen := by omega
  have hexp : (frameOf (bytesOf u)).expectsize = u.length := (whole_iff.mp hu).2
  have hsize : frameSize (fun i => memory c.pBuffer junk (done.flatten.length + i)) = u.length :=
    (congrArg WsMsgFrame.expectsize hf).trans hexp
  have hdec : tryDecodeLen w (fun i => memory c.pBuffer junk (done.flatten.length + i)) =
      some (frameOf (bytesOf u)) := by rw [tryDecodeLen_of_lt (by omega), if_pos hc, hf]
  have hmsg : pWsMsg.getD { pBuffer := [], frameType := 0 } = pWsMsg.getD WsMsg.empty := rfl
  have hoff : addSize w done.flatten.length (frameOf (bytesOf u)).expectsize = (done ++ [u]).flatten.length := by
    rw [hexp, addSize_of_lt (by omega)]
    simp
  have hpay : addSize w (done.map payloadLen).sum (frameOf (bytesOf u)).payloadLength =
      ((done ++ [u]).map payloadLen).sum := by
    change addSize w _ (payloadLen u) = _
    rw [addSize_of_lt (by omega)]
    simp
  unfold reassembleStep
  simp only [hcond, and_self, if_true, hdec, hmsg, hoff, hpay]
  have hcopy := copy_payload hb hu junk (pWsMsg.getD WsMsg.empty).pBuffer
  rw [hm] at hcopy
  rw [hcopy]
  rfl

theorem reassembleStep_end (h : Scanned c done rest) (pWsMsg : Option WsMsg) :
    reassembleStep w junk c ⟨done.flatten.length, (done.map payloadLen).sum, pWsMsg⟩ =
      .inr (.leave ⟨done.flatten.length, (done.map payloadLen).sum, pWsMsg⟩) := by
  have hcond : ¬(done.flatten.length < c.iCurFrameIndex ∧ (done.map payloadLen).sum ≤ c.iTotalFrameLen) := by
    rw [h.index]
    omega
  unfold reassembleStep
  rw [if_neg hcond]

def assembleExit (fs : List (List UInt8)) : WsMsg × Bool → ReassemblyExit
  | (m, true) => .leave ⟨fs.flatten.length, (fs.map payloadLen).sum, some m⟩
  | (m, false) => .assertFailed (some m)

theorem run_reassemble_from (h : Scanned c (done ++ us) rest) (hw : c.pBuffer.length < 2 ^ w) {m : WsMsg}
    (hm : m.pBuffer.length = (done.map payloadLen).sum) (junk : ℕ → UInt8) {fuel : ℕ} (hfuel : us.length < fuel) :
    Iteration.run (reassembleStep w junk c) fuel ⟨done.flatten.length, (done.map payloadLen).sum, some m⟩ =
      some (assembleExit (done ++ us) (assemble m us)) := by
  induction us generalizing done m fuel with
  | nil =>
    obtain ⟨fuel, rfl⟩ : ∃ k, fuel = k + 1 := ⟨fuel - 1, by simp at hfuel; omega⟩
    rw [List.append_nil] at h ⊢
    exact Iteration.run_exit (reassembleStep_end h (some m)) fuel
  | cons u us ih =>
    obtain ⟨fuel, rfl⟩ : ∃ k, fuel = k + 1 := ⟨fuel - 1, by simp at hfuel; omega⟩
    have hstep := reassembleStep_whole h hw (some m) hm junk
    dsimp only [Option.getD_some] at hstep
    rw [assemble]
    by_cases hj : m.Joins u
    · rw [if_pos hj] at hstep ⊢
      rw [Iteration.run_continue hstep]
      have hu : frameUnits.Whole u := h.whole u (by simp)
      have hjoin : (m.join u).pBuffer.length = ((done ++ [u]).map payloadLen).sum := by
        simp [WsMsg.join, hm, length_payload hu]
      have h' : Scanned c ((done ++ [u]) ++ us) rest := by simpa using h
      have hfuel' : us.length < fuel := by simp at hfuel; omega
      have := ih h' hjoin hfuel'
      simpa using this
    · rw [if_neg hj] at hstep ⊢
      rw [Iteration.run_exit hstep]
      rfl

theorem assemble_pBuffer {m m' : WsMsg} (h : assemble m us = (m', true)) :
    m'.pBuffer = m.pBuffer ++ us.flatMap payload := by
  induction us generalizing m with
  | nil => cases h; simp
  | cons u us ih =>
    rw [assemble] at h
    by_cases hj : m.Joins u
    · rw [if_pos hj] at h
      rw [ih h]
      simp [WsMsg.join]
    · rw [if_neg hj] at h
      cases h

theorem assemble_frameType {m : WsMsg} (hm : m.frameType ≠ 0) (us : List (List UInt8)) :
    (assemble m us).1.frameType = m.frameType := by
  have ht : ∀ u, m.typeAfter u = m.frameType := fun u => if_neg hm
  induction us generalizing m with
  | nil => rfl
  | cons u us ih =>
    rw [assemble]
    have hj : (m.join u).frameType = m.frameType := ht u
    split
    · rw [ih (hj ▸ hm) fun v => if_neg (hj ▸ hm), hj]
    · exact ht u

theorem length_flatMap_payload (h : ∀ u ∈ us, frameUnits.Whole u) :
    (us.flatMap payload).length = (us.map payloadLen).sum := by
  induction us with
  | nil => rfl
  | cons u us ih =>
    have hu := length_payload (h u List.mem_cons_self)
    have hus := ih fun v hv => h v (List.mem_cons_of_mem _ hv)
    simp only [List.flatMap_cons, List.length_append, List.map_cons, List.sum_cons, hu, hus]

theorem empty_joins (u : List UInt8) : WsMsg.empty.Joins u := Or.inl rfl

theorem run_reassemble (h : Scanned c fs rest) (hw : c.pBuffer.length < 2 ^ w) (hne : fs ≠ []) {fuel : ℕ}
    (hfuel : fs.length < fuel) :
    Iteration.run (reassembleStep w junk c) fuel ⟨0, 0, none⟩ =
      some (assembleExit fs (assemble WsMsg.empty fs)) := by
  cases fs with
  | nil => exact absurd rfl hne
  | cons u us =>
    obtain ⟨fuel, rfl⟩ : ∃ k, fuel = k + 1 := ⟨fuel - 1, by simp at hfuel; omega⟩
    have h₀ : Scanned c ([] ++ u :: us) rest := h
    have hstep := reassembleStep_whole h₀ hw none rfl junk
    dsimp only [Option.getD_none] at hstep
    rw [if_pos (empty_joins u)] at hstep
    have hu : frameUnits.Whole u := h.whole u List.mem_cons_self
    have hjoin : (WsMsg.empty.join u).pBuffer.length = (([] ++ [u]).map payloadLen).sum := by
      simp [WsMsg.join, WsMsg.empty, length_payload hu]
    have h' : Scanned c (([] ++ [u]) ++ us) rest := h
    have hfuel' : us.length < fuel := by simp at hfuel; omega
    have := run_reassemble_from h' hw hjoin junk hfuel'
    rw [assemble, if_pos (empty_joins u)]
    exact (Iteration.run_continue hstep fuel).trans this

def assembleRet (iRet : ℕ) (c : WsMsgCache) (rest : List UInt8) : WsMsg × Bool → DecodeRet
  | (m, true) => ⟨iRet, .fresh rest, some m⟩
  | (m, false) => ⟨1, c, some m⟩

/-- With all frames joined the message is handed out and its bytes leave the
buffer; otherwise the half-built message is handed out and the cache stays. -/
theorem reassemble_eq (h : Scanned c fs rest) (hw : c.pBuffer.length < 2 ^ w) (hne : fs ≠ []) {fuel : ℕ}
    (hfuel : fs.length < fuel) (iRet : ℕ) :
    reassemble w fuel junk iRet c none = some (assembleRet iRet c rest (assemble WsMsg.empty fs)) := by
  unfold reassemble
  rw [run_reassemble h hw hne hfuel]
  rcases hm : assemble WsMsg.empty fs with ⟨m, ok⟩
  cases ok with
  | false => rfl
  | true =>
    have hbuf : m.pBuffer = fs.flatMap payload := by
      have := assemble_pBuffer hm
      simpa [WsMsg.empty] using this
    have hlen : m.pBuffer.length = c.iTotalFrameLen := by rw [hbuf, length_flatMap_payload h.whole, h.total]
    have hused : c.pBuffer.length = fs.flatten.length + rest.length := by rw [h.buffer, List.length_append]
    have hsum := sum_payloadLen_le h.whole
    have hremain : subSize w c.pBuffer.length fs.flatten.length = rest.length := by
      rw [subSize_of_le (by omega) (by omega)]
      omega
    have hidx : subSize w c.iCurFrameIndex fs.flatten.length = 0 := by
      rw [h.index, subSize_of_le (by omega) le_rfl, Nat.sub_self]
    have htot : subSize w c.iTotalFrameLen (fs.map payloadLen).sum = 0 := by
      rw [h.total, subSize_of_le (by omega) le_rfl, Nat.sub_self]
    have hrest : slice (memory c.pBuffer junk) fs.flatten.length rest.length = rest := by
      rw [slice_memory (by omega), h.buffer, List.drop_left, List.take_length]
    dsimp only [assembleExit, assembleRet, Option.map_some]
    rw [if_pos (congrArg some hlen), hremain, hrest, hidx, htot]
    rfl

end SrWebSocket
