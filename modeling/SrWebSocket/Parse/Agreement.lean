import SrWebSocket.Parse.CacheRuns

/-! # The two passes over the buffer

The reassembly reads every header a second time, in a later call than the scan at
times and with other memory behind the used bytes. The log below keeps the headers
as the scan accepted them. Over whole runs they are those of the frames in front of
the cursor, and the reassembly finds the same ones in the same places.
-/
namespace SrWebSocket

/-- The header at the cursor of the scan, if `TryDecodeLen` accepts it. -/
def cursorHeader (w : ℕ) (junk : ℕ → UInt8) (c : WsMsgCache) : List WsMsgFrame :=
  (tryDecodeLen w fun i => memory c.pBuffer junk (c.iCurFrameIndex + i)).toList

/-- The headers over which the scan loop moves its cursor. -/
def scanTaken (w : ℕ) (junk : ℕ → UInt8) : ℕ → WsMsgCache → List WsMsgFrame
  | 0, _ => []
  | fuel + 1, c =>
    match scanStep w junk c with
    | .inl c' => cursorHeader w junk c ++ scanTaken w junk fuel c'
    | .inr (.leave 1 _) => cursorHeader w junk c
    | .inr _ => []

/-- The headers that a call of `DecodeMsg` accepts. -/
def callTaken (junk : ℕ → UInt8) (c : WsMsgCache) : List WsMsgFrame :=
  if c.pBuffer.length < addSize 64 c.iCurFrameLen c.iCurFrameIndex then []
  else scanTaken 64 junk (callFuel c) c

/-- A cache, with the headers that were accepted for the bytes still in its buffer. -/
structure ScanLog where
  pMsgCache : WsMsgCache
  taken : List WsMsgFrame
deriving DecidableEq

def ScanLog.start : ScanLog where
  pMsgCache := .fresh []
  taken := []

def ScanLog.step (l : ScanLog) (a : CacheAct) : Option ScanLog :=
  (l.pMsgCache.step a).map fun c =>
    { pMsgCache := c
      taken :=
        match a with
        | .append _ => l.taken
        | .decode junk =>
          -- bytes leave the buffer together with all frames in front of the cursor
          if c.pBuffer.length < l.pMsgCache.pBuffer.length then [] else l.taken ++ callTaken junk l.pMsgCache }

/-- The scan of a call leaves the cache `c'` to the reassembly. -/
def Reassembles (junk : ℕ → UInt8) (c c' : WsMsgCache) : Prop :=
  ¬c.pBuffer.length < addSize 64 c.iCurFrameLen c.iCurFrameIndex ∧
    (∃ iRet, Iteration.run (scanStep 64 junk) (callFuel c) c = some (.leave iRet c')) ∧ c'.iComplete = true

/-- A row of frames and what `TryDecodeLen` says of each. -/
def Measured (us : List (List UInt8)) (sts : List WsMsgFrame) : Prop :=
  List.Forall₂ (fun u st => tryDecodeLen 64 (bytesOf u) = some st ∧ st.expectsize = u.length) us sts

/-- What holds between two calls. -/
structure Agrees (l : ScanLog) : Prop where
  index_le : l.pMsgCache.iCurFrameIndex ≤ l.pMsgCache.pBuffer.length
  frames : ∃ us : List (List UInt8), l.pMsgCache.pBuffer.take l.pMsgCache.iCurFrameIndex = us.flatten ∧ Measured us l.taken
  total : l.pMsgCache.iTotalFrameLen = (l.taken.map WsMsgFrame.payloadLength).sum

/-- What the iteration of the reassembly loop at `r` reads is one of the accepted
frames `sts`, and lies in the buffers. -/
structure HeadSound (junk : ℕ → UInt8) (c : WsMsgCache) (sts : List WsMsgFrame) (r : Reassembly) : Prop where
  index_le : c.iCurFrameIndex ≤ c.pBuffer.length
  offset_le : r.iOffset ≤ c.iCurFrameIndex
  payloadOffset_le : r.iPayloadOffset ≤ c.iTotalFrameLen
  frame : r.iOffset < c.iCurFrameIndex → ∃ before st after, sts = before ++ st :: after ∧
    r.iOffset = (before.map WsMsgFrame.expectsize).sum ∧
    r.iPayloadOffset = (before.map WsMsgFrame.payloadLength).sum ∧
    tryDecodeLen 64 (fun i => memory c.pBuffer junk (r.iOffset + i)) = some st ∧
    r.iOffset + st.payloadOffset + st.payloadLength ≤ c.pBuffer.length ∧
    ∀ i < st.payloadLength, r.iPayloadOffset + i < ((r.pWsMsg.getD WsMsg.empty).pBuffer ++
      slice (memory c.pBuffer junk) (r.iOffset + st.payloadOffset) st.payloadLength).length

variable {c c' : WsMsgCache} {fs gs ks us : List (List UInt8)} {u rest t : List UInt8} {junk : ℕ → UInt8} {fuel w : ℕ}
  {l l' : ScanLog} {r : Reassembly} {acts : List CacheAct}

/-- The headers of whole frames. -/
def headers (us : List (List UInt8)) : List WsMsgFrame := us.map fun u => frameOf (bytesOf u)

@[simp] theorem headers_append (us vs : List (List UInt8)) : headers (us ++ vs) = headers us ++ headers vs := List.map_append

theorem measured_headers (h : ∀ u ∈ us, frameUnits.Whole u) : Measured us (headers us) := by
  induction us with
  | nil => exact List.Forall₂.nil
  | cons u us ih =>
    have hw := whole_iff.mp (h u List.mem_cons_self)
    refine List.Forall₂.cons ⟨?_, hw.2⟩ (ih fun v hv => h v (List.mem_cons_of_mem _ hv))
    rw [tryDecodeLen_64, if_pos hw.1]

theorem sum_payloadLength (us : List (List UInt8)) :
    ((headers us).map WsMsgFrame.payloadLength).sum = (us.map payloadLen).sum := by
  rw [headers, List.map_map]
  rfl

theorem sum_expectsize (h : ∀ u ∈ us, frameUnits.Whole u) :
    ((headers us).map WsMsgFrame.expectsize).sum = us.flatten.length := by
  have hsize : ∀ u ∈ us, (frameOf (bytesOf u)).expectsize = u.length := fun u hu => (whole_iff.mp (h u hu)).2
  rw [headers, List.map_map, List.length_flatten]
  exact congrArg List.sum (List.map_congr_left hsize)

/-! ## The scan -/

theorem cursorHeader_whole (h : Scanned c fs (u ++ t)) (hu : frameUnits.Whole u) (junk : ℕ → UInt8) :
    cursorHeader 64 junk c = headers [u] := by
  rw [cursorHeader, h.tryDecodeLen h.length_lt hu junk]
  rfl

theorem scanTaken_continue (h : scanStep 64 junk c = .inl c') :
    scanTaken 64 junk (fuel + 1) c = cursorHeader 64 junk c ++ scanTaken 64 junk fuel c' := by
  rw [scanTaken, h]

theorem scanTaken_stop (c : WsMsgCache) (h : scanStep 64 junk c = .inr (scanStop junk c)) :
    scanTaken 64 junk (fuel + 1) c = [] := by
  rw [scanTaken, h]
  rcases scanStop_cases junk c with ⟨_, he⟩ | ⟨_, he, _⟩ | ⟨_, he, _⟩ <;> rw [he] <;> rfl

theorem scanTaken_acceptAll (h : Scanned c fs (gs.flatten ++ t)) (hgs : ∀ u ∈ gs, frameUnits.Whole u)
    (hopen : ∀ u ∈ gs, isFin u = false) (n : ℕ) :
    scanTaken 64 junk (gs.length + n) c = headers gs ++ scanTaken 64 junk n (c.acceptAll gs) := by
  induction gs generalizing c fs with
  | nil => rw [List.length_nil, Nat.zero_add]; rfl
  | cons u gs ih =>
    have hu := hgs u List.mem_cons_self
    have h' : Scanned c fs (u ++ (gs.flatten ++ t)) := by simpa using h
    have hstep := scanStep_open h' h'.length_lt hu (hopen u List.mem_cons_self) junk
    rw [List.length_cons, Nat.add_right_comm, scanTaken_continue hstep, cursorHeader_whole h' hu, acceptAll_cons,
      ih (h'.accept hu) (fun v hv => hgs v (List.mem_cons_of_mem _ hv)) fun v hv => hopen v (List.mem_cons_of_mem _ hv)]
    rfl

theorem scanTaken_group (h : Scanned c fs (gs.flatten ++ t)) (hgs : ∀ u ∈ gs, frameUnits.Whole u)
    (hg : Group isFin gs) (hfuel : gs.length ≤ fuel) : scanTaken 64 junk fuel c = headers gs := by
  obtain ⟨init, v, rfl, hinit, hv⟩ := hg
  obtain ⟨n, rfl⟩ : ∃ n, fuel = init.length + (n + 1) := ⟨fuel - (init.length + 1), by simp at hfuel; omega⟩
  have hwv := hgs v (by simp)
  have hwi : ∀ u ∈ init, frameUnits.Whole u := fun u hu => hgs u (List.mem_append_left _ hu)
  have h' : Scanned c fs (init.flatten ++ (v ++ t)) := by simpa using h
  have hacc := h'.acceptAll hwi
  have hstep := scanStep_fin hacc hacc.length_lt hwv hv junk
  rw [scanTaken_acceptAll h' hwi hinit, scanTaken, hstep, headers_append, cursorHeader_whole hacc hwv]
  rfl

theorem scanTaken_open (h : Scanned c fs (gs.flatten ++ t)) (hgs : ∀ u ∈ gs, frameUnits.Whole u)
    (hopen : ∀ u ∈ gs, isFin u = false) (ht : frameUnits.size t = none) (hfuel : gs.length < fuel) :
    scanTaken 64 junk fuel c = headers gs := by
  obtain ⟨n, rfl⟩ : ∃ n, fuel = gs.length + (n + 1) := ⟨fuel - (gs.length + 1), by omega⟩
  have hstop : scanStep 64 junk (c.acceptAll gs) = .inr (scanStop junk (c.acceptAll gs)) :=
    scanStep_stop (h.acceptAll hgs) ht
  rw [scanTaken_acceptAll h hgs hopen, scanTaken_stop _ hstop, List.append_nil]

theorem callTaken_eq (h : CacheInv c fs rest) (hp : Passes c rest ks t) : callTaken junk c = headers ks := by
  have hS := h.scanned
  have hsmall := hS.small
  have hlen := hS.length_eq
  have hrem := h.remembered
  obtain ⟨rfl, hks, hstop⟩ := hp
  rw [callTaken, addSize_of_lt (by omega)]
  rcases hstop with ⟨hst, rfl⟩ | ⟨hst, hg | ⟨ho, hnone⟩⟩
  · exact if_pos hst
  · exact (if_neg hst).trans (scanTaken_group hS hks hg (hS.length_lt_fuel hks le_rfl).2.1.le)
  · exact (if_neg hst).trans (scanTaken_open hS hks ho hnone (hS.length_lt_fuel hks le_rfl).2.1)

/-! ## The log over a run -/

/-- The log of a cache whose cursor stands behind the frames `fs`. -/
structure LogInv (l : ScanLog) (fs : List (List UInt8)) (rest : List UInt8) : Prop
    extends RunInv l.pMsgCache fs rest where
  taken : l.taken = headers fs

theorem LogInv.agrees (h : LogInv l fs rest) : Agrees l where
  index_le := by
    have hlen := h.scanned.length_eq
    omega
  frames := ⟨fs, by rw [h.scanned.buffer, h.scanned.index, List.take_left], h.taken ▸ measured_headers h.scanned.whole⟩
  total := by rw [h.taken, sum_payloadLength, h.scanned.total]

theorem LogInv.step (h : LogInv l fs rest) {a : CacheAct} (hs : l.step a = some l') : ∃ fs' rest', LogInv l' fs' rest' := by
  obtain ⟨c', hc, rfl⟩ := Option.map_eq_some_iff.mp hs
  cases a with
  | append chunk =>
    obtain ⟨hlen, he⟩ := Option.ite_none_right_eq_some.mp hc
    exact ⟨fs, rest ++ chunk, Option.some.inj he ▸ h.toRunInv.append hlen, h.taken⟩
  | decode junk =>
    obtain ⟨ret, _, hret, rfl⟩ := h.step_decode hc
    obtain ⟨ks, t, hp, ⟨hnext, hlt⟩ | ⟨hnext, hbuf⟩⟩ := h.next hret
    · exact ⟨[], t, hnext, if_pos hlt⟩
    · refine ⟨fs ++ ks, t, hnext, ?_⟩
      dsimp only
      rw [hbuf, if_neg (lt_irrefl _), callTaken_eq h.toCacheInv hp, h.taken, headers_append]

theorem logInv_start : LogInv .start [] [] where
  toRunInv := runInv_fresh (Nat.two_pow_pos 63)
  taken := rfl

theorem logInv_exec (h : Machine.exec ScanLog.step .start acts = some l) : ∃ fs rest, LogInv l fs rest :=
  Machine.exec_invariant (fun l => ∃ fs rest, LogInv l fs rest) (fun _ _ _ ⟨_, _, hi⟩ hs => hi.step hs)
    ⟨[], [], logInv_start⟩ h

/-! ## The reassembly -/

/-- The reassembly stands in front of one of the accepted frames, or behind the last. -/
structure AtFrame (fs : List (List UInt8)) (r : Reassembly) : Prop where
  split : ∃ before after, fs = before ++ after ∧ r.iOffset = before.flatten.length ∧
    r.iPayloadOffset = (before.map payloadLen).sum
  filled : (r.pWsMsg.getD WsMsg.empty).pBuffer.length = r.iPayloadOffset

theorem atFrame_start (fs : List (List UInt8)) : AtFrame fs ⟨0, 0, none⟩ := ⟨⟨[], fs, rfl, rfl, rfl⟩, rfl⟩

theorem AtFrame.step {r' : Reassembly} (hS : Scanned c fs rest) (hw : c.pBuffer.length < 2 ^ w) (h : AtFrame fs r)
    (hs : reassembleStep w junk c r = .inl r') : AtFrame fs r' := by
  obtain ⟨⟨before, after, rfl, hoff, hpay⟩, hfill⟩ := h
  obtain ⟨iOffset, iPayloadOffset, pWsMsg⟩ := r
  obtain rfl : iOffset = _ := hoff
  obtain rfl : iPayloadOffset = _ := hpay
  cases after with
  | nil =>
    rw [List.append_nil] at hS
    exact absurd ((reassembleStep_end hS pWsMsg).symm.trans hs) (by simp)
  | cons u after =>
    have hu : frameUnits.Whole u := hS.whole u (by simp)
    have hstep := (reassembleStep_whole hS hw pWsMsg hfill junk).symm.trans hs
    dsimp only at hstep
    by_cases hj : (pWsMsg.getD WsMsg.empty).Joins u
    · rw [if_pos hj] at hstep
      rw [← Sum.inl.inj hstep]
      refine ⟨⟨before ++ [u], after, by simp, rfl, rfl⟩, ?_⟩
      dsimp only at hfill ⊢
      rw [Option.getD_some, WsMsg.join, List.length_append, hfill, length_payload hu, List.map_append, List.sum_append]
      simp
    · rw [if_neg hj] at hstep
      cases hstep

/-- The next frame of the reassembly at `r` is `u`, behind the frames `before`. -/
structure FrameAt (w : ℕ) (junk : ℕ → UInt8) (c : WsMsgCache) (fs : List (List UInt8)) (r : Reassembly)
    (before : List (List UInt8)) (u : List UInt8) (after : List (List UInt8)) : Prop where
  split : fs = before ++ u :: after
  offset : r.iOffset = before.flatten.length
  payloadOffset : r.iPayloadOffset = (before.map payloadLen).sum
  whole : frameUnits.Whole u
  arrived : r.iOffset + u.length ≤ c.pBuffer.length
  bytes : ∀ i < u.length, memory c.pBuffer junk (r.iOffset + i) = bytesOf u i
  header : tryDecodeLen w (fun i => memory c.pBuffer junk (r.iOffset + i)) = some (frameOf (bytesOf u))

theorem AtFrame.next (hS : Scanned c fs rest) (hw : c.pBuffer.length < 2 ^ w) (h : AtFrame fs r)
    (hlt : r.iOffset < c.iCurFrameIndex) (junk : ℕ → UInt8) : ∃ before u after, FrameAt w junk c fs r before u after := by
  obtain ⟨⟨before, after, rfl, hoff, hpay⟩, _⟩ := h
  have hlen := hS.length_eq
  have hidx := hS.index
  rw [List.flatten_append, List.length_append] at hidx
  cases after with
  | nil =>
    rw [List.flatten_nil, List.length_nil] at hidx
    omega
  | cons u after =>
    have hu : frameUnits.Whole u := hS.whole u (by simp)
    have hb : c.pBuffer = before.flatten ++ (u ++ (after.flatten ++ rest)) := by simp [hS.buffer]
    obtain ⟨hf, hc⟩ := frameOf_unit hb hu junk
    have hsize : frameSize (fun i => memory c.pBuffer junk (before.flatten.length + i)) = u.length :=
      (congrArg WsMsgFrame.expectsize hf).trans (whole_iff.mp hu).2
    rw [List.flatten_cons, List.length_append] at hidx
    refine ⟨before, u, after, rfl, hoff, hpay, hu, by omega, ?_, ?_⟩
    · rw [hoff]
      exact memory_unit hb junk
    · rw [hoff, tryDecodeLen_of_lt (by omega), if_pos hc, hf]

theorem AtFrame.sound (hS : Scanned c fs rest) (h : AtFrame fs r) (junk : ℕ → UInt8) :
    HeadSound junk c (headers fs) r := by
  have hlen := hS.length_eq
  have hidx := hS.index
  have htot := hS.total
  have hfill := h.filled
  obtain ⟨before, after, rfl, hoff, hpay⟩ := h.split
  rw [List.flatten_append, List.length_append] at hidx
  rw [List.map_append, List.sum_append] at htot
  refine ⟨by omega, by omega, by omega, fun hlt => ?_⟩
  obtain ⟨before, u, after, hat⟩ := h.next hS hS.length_lt hlt junk
  have hwb : ∀ v ∈ before, frameUnits.Whole v := fun v hv => hS.whole v (hat.split ▸ List.mem_append_left _ hv)
  have hsize : (frameOf (bytesOf u)).payloadOffset + (frameOf (bytesOf u)).payloadLength = u.length :=
    (whole_iff.mp hat.whole).2
  have harrived := hat.arrived
  refine ⟨headers before, frameOf (bytesOf u), headers after, ?_, ?_, ?_, hat.header, by omega, fun i hi => ?_⟩
  · rw [hat.split]
    exact headers_append before (u :: after)
  · rw [sum_expectsize hwb, hat.offset]
  · rw [sum_payloadLength, hat.payloadOffset]
  · rw [List.length_append, length_slice, hfill]
    omega

/-- What the scan leaves to the reassembly. -/
theorem Reassembles.scanned (h : CacheInv c fs rest) (hp : Passes c rest ks t) (hr : Reassembles junk c c') :
    Scanned c' (fs ++ ks) t := by
  have hS := h.scanned
  have hsmall := hS.small
  have hlen := hS.length_eq
  have hrem := h.remembered
  obtain ⟨hgo, ⟨iRet, hscan⟩, _⟩ := hr
  obtain ⟨rfl, hks, hstop⟩ := hp
  rw [addSize_of_lt (by omega)] at hgo
  rcases hstop with ⟨hst, _⟩ | ⟨_, hg | ⟨ho, hnone⟩⟩
  · exact absurd hst hgo
  · rw [run_scan_group hS hS.length_lt hks hg (hS.length_lt_fuel hks le_rfl).2.1.le] at hscan
    cases hscan
    exact (hS.acceptAll hks).complete
  · rw [run_scan_open hS hks ho hnone (hS.length_lt_fuel hks le_rfl).2.1] at hscan
    have hleft := ((h.acceptAll hks).scanStop junk).scanned
    rw [congrArg ScanExit.cache (Option.some.inj hscan)] at hleft
    exact hleft

/-- In every run of appends and calls the accepted headers are those of the whole
frames in front of the cursor. A further call returns, and wherever its reassembly
starts an iteration it reads the next of these frames, inside the buffers. -/
theorem scan_agrees (acts : List CacheAct) (l : ScanLog) (hrun : Machine.exec ScanLog.step .start acts = some l) :
    Agrees l ∧ ∀ junk, (l.step (.decode junk)).isSome ∧
      ∀ c', Reassembles junk l.pMsgCache c' → ∀ r, Iteration.Visits (reassembleStep 64 junk c') ⟨0, 0, none⟩ r →
        HeadSound junk c' (l.taken ++ callTaken junk l.pMsgCache) r := by
  obtain ⟨fs, rest, h⟩ := logInv_exec hrun
  refine ⟨h.agrees, fun junk => ⟨?_, fun c' hr r hvisit => ?_⟩⟩
  · obtain ⟨ret, hcall, _⟩ := h.result junk
    simp [ScanLog.step, WsMsgCache.step, hcall]
  · obtain ⟨ks, t, hp⟩ := exists_passes l.pMsgCache rest
    have hS := hr.scanned h.toCacheInv hp
    rw [h.taken, callTaken_eq h.toCacheInv hp, ← headers_append]
    have hat := Iteration.visits_invariant (AtFrame (fs ++ ks)) (fun _ _ hi hs => hi.step hS hS.length_lt hs)
      (atFrame_start _) hvisit
    exact hat.sound hS junk

/-- A masked fragment and one byte of the next, a call, and the rest. -/
def splitRun : List CacheAct :=
  [.append [0x01, 0x81, 1, 2, 3, 4, 96, 0x80], .decode fun _ => 0xff, .append [0x01, 98]]

def splitLog : ScanLog where
  pMsgCache := ⟨[0x01, 0x81, 1, 2, 3, 4, 96, 0x80, 0x01, 98], 7, 0, 1, false⟩
  taken := [⟨wsFrameText, 6, true, 1, 7⟩]

theorem scan_agrees_split :
    Agrees splitLog ∧ HeadSound (fun _ => 0xaa) { splitLog.pMsgCache with
        iCurFrameIndex := 10
        iTotalFrameLen := 2
        iComplete := true }
      [⟨wsFrameText, 6, true, 1, 7⟩, ⟨wsFrameContinuation, 2, false, 1, 3⟩] ⟨7, 1, some ⟨[97], wsFrameText⟩⟩ := by
  obtain ⟨hagrees, hcall⟩ := scan_agrees splitRun splitLog (by decide)
  have hsound := (hcall fun _ => 0xaa).2 _ ⟨by decide, ⟨1, rfl⟩, rfl⟩ _ (.tail .refl rfl)
  exact ⟨hagrees, hsound⟩

end SrWebSocket
