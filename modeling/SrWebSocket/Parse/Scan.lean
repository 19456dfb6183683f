import SrWebSocket.Parse.Reassembly

/-! # What the scan accepts

Each continuing iteration of the scan loop moves the cursor over one whole frame.
The scan is left at the first frame with the FIN bit, or in front of bytes that
do not start with a whole frame; only in the last case can memory behind the used
bytes be seen, and then only in the length that the cache remembers.
-/
namespace SrWebSocket

def WsMsgCache.accept (c : WsMsgCache) (u : List UInt8) : WsMsgCache :=
  { c with
    iTotalFrameLen := c.iTotalFrameLen + payloadLen u
    iCurFrameIndex := c.iCurFrameIndex + u.length
    iCurFrameLen := 0 }

def WsMsgCache.acceptAll (c : WsMsgCache) (gs : List (List UInt8)) : WsMsgCache := gs.foldl WsMsgCache.accept c

/-- The cache with the length of a frame that is still incomplete. -/
def WsMsgCache.remember (c : WsMsgCache) (n : ℕ) : WsMsgCache := { c with iCurFrameLen := n }

/-- How the scan is left in front of an incomplete or empty frame. -/
def scanStop (junk : ℕ → UInt8) (c : WsMsgCache) : ScanExit :=
  let header := fun i => memory c.pBuffer junk (c.iCurFrameIndex + i)
  if c.pBuffer.length < c.iCurFrameIndex + 2 then .leave 0 c
  else if codedLen header = 0 then .assertFailed c
  else .leave 0 (c.remember (frameSize header))

variable {c : WsMsgCache} {fs gs : List (List UInt8)} {u rest t : List UInt8} {junk : ℕ → UInt8} {fuel w : ℕ}

theorem scanStop_cases (junk : ℕ → UInt8) (c : WsMsgCache) :
    c.pBuffer.length < c.iCurFrameIndex + 2 ∧ scanStop junk c = .leave 0 c ∨
    c.iCurFrameIndex + 2 ≤ c.pBuffer.length ∧ scanStop junk c = .assertFailed c ∧
      (codedLen fun i => memory c.pBuffer junk (c.iCurFrameIndex + i)) = 0 ∨
    c.iCurFrameIndex + 2 ≤ c.pBuffer.length ∧
      scanStop junk c =
        .leave 0 (c.remember (frameSize fun i => memory c.pBuffer junk (c.iCurFrameIndex + i))) ∧
      0 < codedLen fun i => memory c.pBuffer junk (c.iCurFrameIndex + i) := by
  unfold scanStop
  dsimp only
  split_ifs with h2 hc
  · exact Or.inl ⟨h2, rfl⟩
  · exact Or.inr (Or.inl ⟨by omega, rfl, hc⟩)
  · exact Or.inr (Or.inr ⟨by omega, rfl, by omega⟩)

@[simp] theorem accept_pBuffer (c : WsMsgCache) (u : List UInt8) : (c.accept u).pBuffer = c.pBuffer := rfl
@[simp] theorem accept_iComplete (c : WsMsgCache) (u : List UInt8) : (c.accept u).iComplete = c.iComplete := rfl

@[simp] theorem remember_iComplete (c : WsMsgCache) (n : ℕ) : (c.remember n).iComplete = c.iComplete := rfl
theorem acceptAll_cons (c : WsMsgCache) (u : List UInt8) (gs : List (List UInt8)) :
    c.acceptAll (u :: gs) = (c.accept u).acceptAll gs := rfl

theorem acceptAll_append (c : WsMsgCache) (gs : List (List UInt8)) (u : List UInt8) :
    c.acceptAll (gs ++ [u]) = (c.acceptAll gs).accept u := by simp [WsMsgCache.acceptAll]

@[simp] theorem acceptAll_pBuffer (c : WsMsgCache) (gs : List (List UInt8)) : (c.acceptAll gs).pBuffer = c.pBuffer := by
  induction gs generalizing c with
  | nil => rfl
  | cons u gs ih => rw [acceptAll_cons, ih, accept_pBuffer]

@[simp] theorem acceptAll_iComplete (c : WsMsgCache) (gs : List (List UInt8)) :
    (c.acceptAll gs).iComplete = c.iComplete := by
  induction gs generalizing c with
  | nil => rfl
  | cons u gs ih => rw [acceptAll_cons, ih, accept_iComplete]

theorem acceptAll_iCurFrameLen (c : WsMsgCache) (gs : List (List UInt8)) :
    (c.acceptAll gs).iCurFrameLen = if gs = [] then c.iCurFrameLen else 0 := by
  rcases List.eq_nil_or_concat gs with rfl | ⟨gs, u, rfl⟩
  · rfl
  · rw [List.concat_eq_append, acceptAll_append, if_neg (by simp)]
    rfl

theorem Scanned.accept (h : Scanned c fs (u ++ t)) (hu : frameUnits.Whole u) : Scanned (c.accept u) (fs ++ [u]) t where
  buffer := by simp [h.buffer]
  whole v hv := by
    rcases List.mem_append.mp hv with hv | hv
    · exact h.whole v hv
    · exact List.mem_singleton.mp hv ▸ hu
  index := by simp [WsMsgCache.accept, h.index]
  total := by simp [WsMsgCache.accept, h.total]
  small := h.small

theorem Scanned.acceptAll (h : Scanned c fs (gs.flatten ++ t)) (hgs : ∀ u ∈ gs, frameUnits.Whole u) :
    Scanned (c.acceptAll gs) (fs ++ gs) t := by
  induction gs generalizing c fs with
  | nil => simpa [WsMsgCache.acceptAll] using h
  | cons u gs ih =>
    have h' : Scanned (c.accept u) (fs ++ [u]) (gs.flatten ++ t) :=
      Scanned.accept (by simpa using h) (hgs u List.mem_cons_self)
    have := ih h' fun v hv => hgs v (List.mem_cons_of_mem _ hv)
    simpa [acceptAll_cons] using this

theorem Scanned.complete (h : Scanned c fs rest) : Scanned { c with iComplete := true } fs rest :=
  ⟨h.buffer, h.whole, h.index, h.total, h.small⟩

theorem Scanned.remember (h : Scanned c fs rest) (n : ℕ) : Scanned (c.remember n) fs rest :=
  ⟨h.buffer, h.whole, h.index, h.total, h.small⟩

theorem Scanned.length_eq (h : Scanned c fs rest) : c.pBuffer.length = c.iCurFrameIndex + rest.length := by
  rw [h.buffer, h.index, List.length_append]

theorem Scanned.length_lt (h : Scanned c fs rest) : c.pBuffer.length < 2 ^ 64 := h.small.trans (by decide)

theorem Scanned.length_rest_lt (h : Scanned c fs (rest ++ t)) : t.length < 2 ^ 63 := by
  have hsmall := h.small
  have hlen := h.length_eq
  rw [List.length_append] at hlen
  omega

theorem Scanned.rest_eq (h : Scanned c fs rest) : rest = c.pBuffer.drop c.iCurFrameIndex := by
  rw [h.buffer, h.index, List.drop_left]

theorem Scanned.header (h : Scanned c fs rest) (junk : ℕ → UInt8) :
    (fun i => memory c.pBuffer junk (c.iCurFrameIndex + i)) =
      memory rest fun i => junk (c.iCurFrameIndex + i) := by
  funext i
  rw [memory_drop, h.index, h.buffer, List.drop_left]

theorem Scanned.tryDecodeLen (h : Scanned c fs (u ++ t)) (hw : c.pBuffer.length < 2 ^ w) (hu : frameUnits.Whole u)
    (junk : ℕ → UInt8) :
    tryDecodeLen w (fun i => memory c.pBuffer junk (c.iCurFrameIndex + i)) = some (frameOf (bytesOf u)) := by
  obtain ⟨hf, hc⟩ := frameOf_unit h.buffer hu junk
  have hlen := h.length_eq
  have hsize : frameSize (fun i => memory c.pBuffer junk (c.iCurFrameIndex + i)) = u.length := by
    rw [h.index]
    exact (congrArg WsMsgFrame.expectsize hf).trans (whole_iff.mp hu).2
  rw [List.length_append] at hlen
  rw [tryDecodeLen_of_lt (by omega), h.index, if_pos hc, hf]

theorem scanStep_whole (h : Scanned c fs (u ++ t)) (hw : c.pBuffer.length < 2 ^ w) (hu : frameUnits.Whole u)
    (junk : ℕ → UInt8) :
    scanStep w junk c =
      if isFin u then .inr (.leave 1 { c.accept u with iComplete := true }) else .inl (c.accept u) := by
  have hlen := h.length_eq
  have h3 := three_le_length hu
  have hple := payloadLen_le hu
  have hsum := sum_payloadLen_le h.whole
  have hidx := h.index
  have htot := h.total
  rw [List.length_append] at hlen
  have hb : c.pBuffer = fs.flatten ++ (u ++ t) := h.buffer
  have hexp : (frameOf (bytesOf u)).expectsize = u.length := (whole_iff.mp hu).2
  have hdec := h.tryDecodeLen hw hu junk
  have hguard : addSize w wsMinMsgExpectLen c.iCurFrameIndex ≤ c.pBuffer.length := by
    rw [addSize_of_lt] <;> simp only [wsMinMsgExpectLen] <;> omega
  have hfit : addSize w u.length c.iCurFrameIndex ≤ c.pBuffer.length := by
    rw [addSize_of_lt] <;> omega
  have hfin : decide (memory c.pBuffer junk c.iCurFrameIndex &&& 0x80 = 0x80) = isFin u := by
    have := memory_unit hb junk 0 (by omega)
    rw [Nat.add_zero, ← hidx] at this
    rw [this]
    rfl
  have hpay : addSize w c.iTotalFrameLen (frameOf (bytesOf u)).payloadLength =
      c.iTotalFrameLen + payloadLen u := addSize_of_lt (by change _ + payloadLen u < _; omega)
  have hcur : addSize w c.iCurFrameIndex u.length = c.iCurFrameIndex + u.length := addSize_of_lt (by omega)
  unfold scanStep
  simp only [hguard, if_true, hdec, hexp, hfit, hfin, hpay, hcur]
  rfl

theorem scanStep_open (h : Scanned c fs (u ++ t)) (hw : c.pBuffer.length < 2 ^ w) (hu : frameUnits.Whole u)
    (hopen : isFin u = false) (junk : ℕ → UInt8) : scanStep w junk c = .inl (c.accept u) := by
  rw [scanStep_whole h hw hu, if_neg (by simp [hopen])]

theorem scanStep_fin (h : Scanned c fs (u ++ t)) (hw : c.pBuffer.length < 2 ^ w) (hu : frameUnits.Whole u)
    (hfin : isFin u = true) (junk : ℕ → UInt8) :
    scanStep w junk c = .inr (.leave 1 { c.accept u with iComplete := true }) := by
  rw [scanStep_whole h hw hu, if_pos hfin]

theorem scanStep_stop (h : Scanned c fs rest) (hr : frameUnits.size rest = none) :
    scanStep 64 junk c = .inr (scanStop junk c) := by
  have hlen := h.length_eq
  have hsmall := h.small
  have hheader := h.header junk
  unfold scanStep scanStop
  by_cases h2 : c.pBuffer.length < c.iCurFrameIndex + 2
  · have hguard : ¬addSize 64 wsMinMsgExpectLen c.iCurFrameIndex ≤ c.pBuffer.length := by
      rw [addSize_of_lt] <;> simp only [wsMinMsgExpectLen] <;> omega
    rw [if_neg hguard, if_pos h2]
  · have hguard : addSize 64 wsMinMsgExpectLen c.iCurFrameIndex ≤ c.pBuffer.length := by
      rw [addSize_of_lt] <;> simp only [wsMinMsgExpectLen] <;> omega
    simp only [hguard, if_true, h2, if_false, tryDecodeLen_64]
    by_cases hc : 0 < codedLen fun i => memory c.pBuffer junk (c.iCurFrameIndex + i)
    · have hinc : ¬CompleteIn (fun i => memory c.pBuffer junk (c.iCurFrameIndex + i)) rest.length := by
        rw [hheader, completeIn_memory]
        exact size_eq_none.mp hr
      have hbig : rest.length < frameSize fun i => memory c.pBuffer junk (c.iCurFrameIndex + i) := by
        by_contra hle
        exact hinc ⟨hc, by omega⟩
      have hfs := frameSize_lt fun i => memory c.pBuffer junk (c.iCurFrameIndex + i)
      have hfit : ¬addSize 64 (frameSize fun i => memory c.pBuffer junk (c.iCurFrameIndex + i)) c.iCurFrameIndex ≤
          c.pBuffer.length := by
        rw [addSize_of_lt] <;> omega
      have hne : ¬(codedLen fun i => memory c.pBuffer junk (c.iCurFrameIndex + i)) = 0 := by omega
      simp only [hc, if_true, hne, if_false, frameOf, hfit]
      rfl
    · have hz : (codedLen fun i => memory c.pBuffer junk (c.iCurFrameIndex + i)) = 0 := by omega
      simp only [hz, lt_irrefl, if_false, if_true]

theorem run_scan_acceptAll (h : Scanned c fs (gs.flatten ++ t)) (hw : c.pBuffer.length < 2 ^ w)
    (hgs : ∀ u ∈ gs, frameUnits.Whole u) (hopen : ∀ u ∈ gs, isFin u = false) (n : ℕ) :
    Iteration.run (scanStep w junk) (gs.length + n) c = Iteration.run (scanStep w junk) n (c.acceptAll gs) := by
  induction gs generalizing c fs with
  | nil => rw [List.length_nil, Nat.zero_add]; rfl
  | cons u gs ih =>
    have hu := hgs u List.mem_cons_self
    have h' : Scanned c fs (u ++ (gs.flatten ++ t)) := by simpa using h
    have hstep := scanStep_open h' hw hu (hopen u List.mem_cons_self) junk
    rw [List.length_cons, Nat.add_right_comm, Iteration.run_continue hstep, acceptAll_cons]
    exact ih (h'.accept hu) hw (fun v hv => hgs v (List.mem_cons_of_mem _ hv))
      fun v hv => hopen v (List.mem_cons_of_mem _ hv)

theorem run_scan_group (h : Scanned c fs (gs.flatten ++ t)) (hw : c.pBuffer.length < 2 ^ w)
    (hgs : ∀ u ∈ gs, frameUnits.Whole u) (hg : Group isFin gs) (hfuel : gs.length ≤ fuel) :
    Iteration.run (scanStep w junk) fuel c = some (.leave 1 { c.acceptAll gs with iComplete := true }) := by
  obtain ⟨init, l, rfl, hinit, hl⟩ := hg
  obtain ⟨n, rfl⟩ : ∃ n, fuel = init.length + (n + 1) := ⟨fuel - (init.length + 1), by simp at hfuel; omega⟩
  have hwl := hgs l (by simp)
  have hwi : ∀ u ∈ init, frameUnits.Whole u := fun u hu => hgs u (List.mem_append_left _ hu)
  have h' : Scanned c fs (init.flatten ++ (l ++ t)) := by simpa using h
  have hw' : (c.acceptAll init).pBuffer.length < 2 ^ w := (acceptAll_pBuffer c init).symm ▸ hw
  rw [run_scan_acceptAll h' hw hwi hinit, acceptAll_append]
  exact Iteration.run_exit (scanStep_fin (h'.acceptAll hwi) hw' hwl hl junk) n

theorem run_scan_open (h : Scanned c fs (gs.flatten ++ t)) (hgs : ∀ u ∈ gs, frameUnits.Whole u)
    (hopen : ∀ u ∈ gs, isFin u = false) (ht : frameUnits.size t = none) (hfuel : gs.length < fuel) :
    Iteration.run (scanStep 64 junk) fuel c = some (scanStop junk (c.acceptAll gs)) := by
  obtain ⟨n, rfl⟩ : ∃ n, fuel = gs.length + (n + 1) := ⟨fuel - (gs.length + 1), by omega⟩
  rw [run_scan_acceptAll h h.length_lt hgs hopen]
  exact Iteration.run_exit (scanStep_stop (h.acceptAll hgs) ht) n

end SrWebSocket
