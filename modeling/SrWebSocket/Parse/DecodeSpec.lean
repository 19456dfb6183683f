import SrWebSocket.Parse.Scan

/-! # One call of `DecodeMsg`

A call on a cache that counts whole frames does one of four things. It returns
at once when the remembered length is not there yet; it reaches the FIN bit and
reassembles; it stops in front of an incomplete or empty frame; or, after an
earlier call failed the opcode assertion, it fails it again.
-/
namespace SrWebSocket

def ScanExit.cache : ScanExit → WsMsgCache
  | .leave _ c => c
  | .assertFailed c => c

/-- Iterations that no call on this cache exceeds. -/
def callFuel (c : WsMsgCache) : ℕ := c.pBuffer.length + 1

def Stalled (c : WsMsgCache) : Prop := c.pBuffer.length < c.iCurFrameLen + c.iCurFrameIndex

instance (c : WsMsgCache) : Decidable (Stalled c) := inferInstanceAs (Decidable (_ < _))

/-- The first test of `DecodeMsg`, in sizes of `w` bits. -/
def TurnedAway (w : ℕ) (c : WsMsgCache) : Prop := c.pBuffer.length < addSize w c.iCurFrameLen c.iCurFrameIndex

instance (w : ℕ) (c : WsMsgCache) : Decidable (TurnedAway w c) := inferInstanceAs (Decidable (_ < _))

variable {c : WsMsgCache} {fs gs : List (List UInt8)} {u rest t : List UInt8} {junk : ℕ → UInt8} {fuel w : ℕ}

/-! ## Opcodes of one message -/

/-- Two frames of the group name different messages. -/
def Clash (g : List (List UInt8)) : Prop :=
  ∃ u ∈ g, ∃ v ∈ g, opcode u ≠ wsFrameContinuation ∧ opcode v ≠ wsFrameContinuation ∧ opcode u ≠ opcode v

theorem assemble_ok_iff {m : WsMsg} (hm : m.frameType ≠ 0) :
    (assemble m gs).2 = true ↔ ∀ u ∈ gs, opcode u = m.frameType ∨ opcode u = wsFrameContinuation := by
  induction gs generalizing m with
  | nil => simp [assemble]
  | cons u gs ih =>
    have ht : m.typeAfter u = m.frameType := if_neg hm
    have hj : m.Joins u ↔ opcode u = m.frameType ∨ opcode u = wsFrameContinuation := by
      rw [WsMsg.Joins, ht, eq_comm]
    rw [assemble, List.forall_mem_cons, ← hj]
    by_cases h : m.Joins u
    · have hmu : (m.join u).frameType = m.frameType := ht
      rw [if_pos h, ih (hmu ▸ hm), hmu]
      exact ⟨fun hgs => ⟨h, hgs⟩, And.right⟩
    · rw [if_neg h]
      exact ⟨fun hf => absurd hf Bool.false_ne_true, fun hg => absurd hg.1 h⟩

theorem assemble_ok_iff_clash {m : WsMsg} (hm : m.frameType = 0) :
    (assemble m gs).2 = true ↔ ¬Clash gs := by
  induction gs generalizing m with
  | nil => simp [assemble, Clash]
  | cons u gs ih =>
    have ht : m.typeAfter u = opcode u := if_pos hm
    have hj : m.Joins u := Or.inl ht
    rw [assemble, if_pos hj]
    have hmu : (m.join u).frameType = opcode u := ht
    by_cases h0 : opcode u = wsFrameContinuation
    · rw [ih (hmu.trans h0), not_iff_not]
      constructor
      · rintro ⟨a, ha, b, hb, hab⟩
        exact ⟨a, List.mem_cons_of_mem _ ha, b, List.mem_cons_of_mem _ hb, hab⟩
      · rintro ⟨a, ha, b, hb, ha0, hb0, hab⟩
        rcases List.mem_cons.mp ha with rfl | ha
        · exact absurd h0 ha0
        · rcases List.mem_cons.mp hb with rfl | hb
          · exact absurd h0 hb0
          · exact ⟨a, ha, b, hb, ha0, hb0, hab⟩
    · rw [assemble_ok_iff (hmu ▸ h0), hmu]
      constructor
      · rintro hall ⟨a, ha, b, hb, ha0, hb0, hab⟩
        have hname : ∀ v ∈ u :: gs, opcode v ≠ wsFrameContinuation → opcode v = opcode u := by
          intro v hv hv0
          rcases List.mem_cons.mp hv with rfl | hv
          · rfl
          · exact (hall v hv).resolve_right hv0
        exact hab ((hname a ha ha0).trans (hname b hb hb0).symm)
      · intro hno v hv
        by_contra hne
        obtain ⟨hvu, hv0⟩ := not_or.mp hne
        exact hno ⟨v, List.mem_cons_of_mem _ hv, u, List.mem_cons_self, hv0, h0, hvu⟩

theorem Clash.append (h : Clash fs) (gs : List (List UInt8)) : Clash (fs ++ gs) := by
  obtain ⟨u, hu, v, hv, huv⟩ := h
  exact ⟨u, List.mem_append_left _ hu, v, List.mem_append_left _ hv, huv⟩

theorem Clash.ne_nil (h : Clash fs) : fs ≠ [] := by
  obtain ⟨u, hu, _⟩ := h
  exact List.ne_nil_of_mem hu

theorem assemble_empty_of_clash (h : Clash fs) : assemble WsMsg.empty fs = ((assemble WsMsg.empty fs).1, false) := by
  have hok := mt (assemble_ok_iff_clash (rfl : WsMsg.empty.frameType = 0)).mp (not_not_intro h)
  rcases ha : assemble WsMsg.empty fs with ⟨m, ok⟩
  rw [ha] at hok
  simpa using hok

def messageOf (g : List (List UInt8)) : WsMsg := (assemble WsMsg.empty g).1

theorem assemble_empty_of_not_clash (h : ¬Clash fs) : assemble WsMsg.empty fs = (messageOf fs, true) := by
  have hok := (assemble_ok_iff_clash (rfl : WsMsg.empty.frameType = 0)).mpr h
  rw [messageOf, ← hok]

theorem messageOf_pBuffer (h : ¬Clash fs) : (messageOf fs).pBuffer = fs.flatMap payload := by
  have := assemble_pBuffer (assemble_empty_of_not_clash h)
  simpa [WsMsg.empty] using this

/-! ## The four cases of a call -/

/-- The bytes behind the cursor are a group of frames and more, or frames
without FIN and no further whole one. -/
theorem exists_scan (rest : List UInt8) :
    ∃ (gs : List (List UInt8)) (t : List UInt8), rest = gs.flatten ++ t ∧ (∀ u ∈ gs, frameUnits.Whole u) ∧
      (Group isFin gs ∨ (∀ u ∈ gs, isFin u = false) ∧ frameUnits.size t = none) := by
  obtain ⟨us, r, rfl, hus, hr⟩ := frameUnits.exists_parse rest
  obtain ⟨gs, o, rfl, hgs, ho⟩ := exists_groups isFin us
  cases gs with
  | nil => exact ⟨o, r, by simp, fun u hu => hus u (by simpa using hu), Or.inr ⟨ho, hr⟩⟩
  | cons g gs =>
    refine ⟨g, (gs.flatten ++ o).flatten ++ r, by simp, ?_, Or.inl (hgs g List.mem_cons_self)⟩
    intro u hu
    exact hus u (by simp [hu])

theorem flatten_length_ge (h : ∀ u ∈ gs, frameUnits.Whole u) : gs.length ≤ gs.flatten.length := by
  induction gs with
  | nil => simp
  | cons u gs ih =>
    have hu := (h u List.mem_cons_self).length_pos
    have hgs := ih fun v hv => h v (List.mem_cons_of_mem _ hv)
    simp only [List.length_cons, List.flatten_cons, List.length_append]
    omega

theorem Scanned.length_lt_fuel (h : Scanned c fs (gs.flatten ++ t)) (hgs : ∀ u ∈ gs, frameUnits.Whole u)
    (hfuel : callFuel c ≤ fuel) : fs.length < fuel ∧ gs.length < fuel ∧ (fs ++ gs).length < fuel := by
  have hlen := h.buffer
  have hf := flatten_length_ge h.whole
  have hg := flatten_length_ge hgs
  have := congrArg List.length hlen
  simp only [List.length_append] at this
  rw [List.length_append]
  unfold callFuel at hfuel
  omega

theorem scanned_fresh (h : t.length < 2 ^ 63) : Scanned (.fresh t) [] t where
  buffer := rfl
  whole := by simp
  index := rfl
  total := rfl
  small := h

/-- What the scan leaves in the cache keeps the frames and forgets no byte. -/
theorem scanned_scanStop {c : WsMsgCache} (h : Scanned c fs rest) (hlen : c.iCurFrameLen < 2 ^ 33) (junk : ℕ → UInt8) :
    Scanned (scanStop junk c).cache fs rest ∧ (scanStop junk c).cache.iCurFrameLen < 2 ^ 33 ∧
      (scanStop junk c).cache.iComplete = c.iComplete := by
  rcases scanStop_cases junk c with ⟨_, he⟩ | ⟨_, he, _⟩ | ⟨_, he, _⟩
  · rw [he]
    exact ⟨h, hlen, rfl⟩
  · rw [he]
    exact ⟨h, hlen, rfl⟩
  · rw [he]
    exact ⟨h.remember _, frameSize_lt _, rfl⟩

theorem scanStop_pBuffer (junk : ℕ → UInt8) (c : WsMsgCache) : (scanStop junk c).cache.pBuffer = c.pBuffer := by
  rcases scanStop_cases junk c with ⟨_, he⟩ | ⟨_, he, _⟩ | ⟨_, he, _⟩ <;> rw [he] <;> rfl

/-- With two bytes behind the cursor and a length that is not zero the call remembers what it reads. -/
theorem Scanned.scanStop_reads (h : Scanned c fs rest) (h2 : 2 ≤ rest.length)
    (hpos : 0 < codedLen (memory rest fun i => junk (c.iCurFrameIndex + i))) :
    (scanStop junk c).cache.iCurFrameLen = frameSize (memory rest fun i => junk (c.iCurFrameIndex + i)) := by
  have hlen := h.length_eq
  have hheader := h.header junk
  rcases scanStop_cases junk c with ⟨_, _⟩ | ⟨_, _, hzero⟩ | ⟨_, hs, _⟩
  · omega
  · rw [hheader] at hzero
    omega
  · rw [hs]
    exact congrArg frameSize hheader

theorem not_turnedAway (hst : c.iCurFrameLen + c.iCurFrameIndex ≤ c.pBuffer.length) : ¬TurnedAway w c := by
  have hle := addSize_le w c.iCurFrameLen c.iCurFrameIndex
  unfold TurnedAway
  omega

theorem decodeMsg_turnedAway (h : TurnedAway w c) (fuel : ℕ) (junk : ℕ → UInt8) (pWsMsg : Option WsMsg) :
    decodeMsg w fuel junk c pWsMsg = some ⟨0, c, pWsMsg⟩ := if_pos h

theorem decodeMsg_stalled (hlen : c.iCurFrameLen + c.iCurFrameIndex < 2 ^ 64)
    (hst : c.pBuffer.length < c.iCurFrameLen + c.iCurFrameIndex) (fuel : ℕ) (junk : ℕ → UInt8)
    (pWsMsg : Option WsMsg) :
    decodeMsg 64 fuel junk c pWsMsg = some ⟨0, c, pWsMsg⟩ := by
  refine decodeMsg_turnedAway ?_ fuel junk pWsMsg
  rwa [TurnedAway, addSize_of_lt hlen]

theorem decodeMsg_group (h : Scanned c fs (gs.flatten ++ t)) (hw : c.pBuffer.length < 2 ^ w)
    (hgs : ∀ u ∈ gs, frameUnits.Whole u) (hg : Group isFin gs) (hgo : ¬TurnedAway w c)
    (hfuel : callFuel c ≤ fuel) (junk : ℕ → UInt8) :
    decodeMsg w fuel junk c none =
      some (assembleRet 1 { c.acceptAll gs with iComplete := true } t (assemble WsMsg.empty (fs ++ gs))) := by
  obtain ⟨_, hgl, hal⟩ := h.length_lt_fuel hgs hfuel
  have hne : fs ++ gs ≠ [] := by simp [hg.ne_nil]
  have hw' : (c.acceptAll gs).pBuffer.length < 2 ^ w := (acceptAll_pBuffer c gs).symm ▸ hw
  unfold TurnedAway at hgo
  unfold decodeMsg
  rw [if_neg hgo, run_scan_group h hw hgs hg (by omega)]
  exact reassemble_eq (h.acceptAll hgs).complete hw' hne hal 1

theorem decodeMsg_open (h : Scanned c fs (gs.flatten ++ t)) (hgs : ∀ u ∈ gs, frameUnits.Whole u)
    (hopen : ∀ u ∈ gs, isFin u = false) (ht : frameUnits.size t = none) (hcomplete : c.iComplete = false)
    (hgo : ¬TurnedAway 64 c) (hfuel : callFuel c ≤ fuel) (junk : ℕ → UInt8) :
    decodeMsg 64 fuel junk c none = some ⟨0, (scanStop junk (c.acceptAll gs)).cache, none⟩ := by
  obtain ⟨_, hgl, _⟩ := h.length_lt_fuel hgs hfuel
  unfold TurnedAway at hgo
  unfold decodeMsg
  rw [if_neg hgo, run_scan_open h hgs hopen ht hgl]
  have hc : (c.acceptAll gs).iComplete = false := by rw [acceptAll_iComplete, hcomplete]
  rcases scanStop_cases junk (c.acceptAll gs) with ⟨_, he⟩ | ⟨_, he, _⟩ | ⟨_, he, _⟩
  · simp only [he, ScanExit.cache, hc, Bool.false_eq_true, if_false]
  · simp only [he, ScanExit.cache]
  · simp only [he, ScanExit.cache, remember_iComplete, hc, Bool.false_eq_true, if_false]

/-- What a call returns after a failed opcode assertion, by the way it leaves the scan. -/
def clashedRet (fs : List (List UInt8)) : ScanExit → DecodeRet
  | .leave _ c => ⟨1, c, some (messageOf fs)⟩
  | .assertFailed c => ⟨0, c, none⟩

@[simp] theorem clashedRet_pMsgCache (fs : List (List UInt8)) (e : ScanExit) : (clashedRet fs e).pMsgCache = e.cache := by
  cases e <;> rfl

theorem scanStop_nil (h : Scanned c fs []) (junk : ℕ → UInt8) : scanStop junk c = .leave 0 c := by
  have hlen := h.length_eq
  rw [List.length_nil] at hlen
  exact if_pos (by omega)

/-- A call that reaches no FIN bit, after one that failed the opcode assertion: it
fails the assertion again, unless it stops in front of an empty frame. -/
theorem decodeMsg_clashed (h : Scanned c fs (gs.flatten ++ t)) (hgs : ∀ u ∈ gs, frameUnits.Whole u)
    (hopen : ∀ u ∈ gs, isFin u = false) (ht : frameUnits.size t = none) (hcomplete : c.iComplete = true)
    (hclash : Clash fs) (hgo : ¬TurnedAway 64 c) (hfuel : callFuel c ≤ fuel) (junk : ℕ → UInt8) :
    decodeMsg 64 fuel junk c none = some (clashedRet (fs ++ gs) (scanStop junk (c.acceptAll gs))) := by
  obtain ⟨_, hgl, hal⟩ := h.length_lt_fuel hgs hfuel
  have hne : fs ++ gs ≠ [] := by simp [hclash.ne_nil]
  have hacc := h.acceptAll hgs
  have hlen := hacc.length_lt
  have hmsg := assemble_empty_of_clash (hclash.append gs)
  unfold TurnedAway at hgo
  unfold decodeMsg
  rw [if_neg hgo, run_scan_open h hgs hopen ht hgl]
  rcases scanStop_cases junk (c.acceptAll gs) with ⟨_, he⟩ | ⟨_, he, _⟩ | ⟨_, he, _⟩
  · rw [he]
    dsimp only
    rw [acceptAll_iComplete, if_pos hcomplete, reassemble_eq hacc hlen hne hal 0, hmsg]
    rfl
  · rw [he]
    rfl
  · rw [he]
    dsimp only
    rw [remember_iComplete, acceptAll_iComplete, if_pos hcomplete,
      reassemble_eq (hacc.remember _) (hacc.remember _).length_lt hne hal 0, hmsg]
    rfl

end SrWebSocket
