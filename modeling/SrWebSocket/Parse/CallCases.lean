import SrWebSocket.Parse.DecodeSpec

/-! # Any call of `DecodeMsg`

On every cache that a run of appends and calls can lead to, the bytes before the
cursor are whole frames and a set `iComplete` means that these frames clash. A
call on such a cache returns, leaves such a cache, and a message that it hands
out is built from at least one frame.
-/
namespace SrWebSocket

/-- What holds of a cache between two calls. -/
structure CacheInv (c : WsMsgCache) (fs : List (List UInt8)) (rest : List UInt8) : Prop where
  scanned : Scanned c fs rest
  remembered : c.iCurFrameLen < 2 ^ 33
  clashed : c.iComplete = true → Clash fs

/-- What a call may hand out: a message built from some whole frames, the first
of which brought its opcode and its first payload bytes. -/
def BuiltFrom (m : WsMsg) (fs : List (List UInt8)) : Prop :=
  fs ≠ [] ∧ (∀ u ∈ fs, frameUnits.Whole u) ∧ fs.flatten.length < 2 ^ 63 ∧ m = messageOf fs

variable {c : WsMsgCache} {fs us : List (List UInt8)} {u rest chunk : List UInt8}

theorem cacheInv_fresh (h : rest.length < 2 ^ 63) : CacheInv (.fresh rest) [] rest where
  scanned := scanned_fresh h
  remembered := Nat.two_pow_pos 33
  clashed := by simp [WsMsgCache.fresh]

theorem CacheInv.append (h : CacheInv c fs rest) (hlen : c.pBuffer.length + chunk.length < 2 ^ 63) :
    CacheInv (c.append chunk) fs (rest ++ chunk) := by
  have hS := h.scanned
  refine ⟨⟨?_, hS.whole, hS.index, hS.total, ?_⟩, h.remembered, h.clashed⟩
  · simp [WsMsgCache.append, hS.buffer]
  · simpa [WsMsgCache.append] using hlen

theorem CacheInv.acceptAll (h : CacheInv c fs (us.flatten ++ rest)) (hus : ∀ u ∈ us, frameUnits.Whole u) :
    CacheInv (c.acceptAll us) (fs ++ us) rest := by
  refine ⟨h.scanned.acceptAll hus, ?_, ?_⟩
  · have := h.remembered
    rw [acceptAll_iCurFrameLen]
    split <;> omega
  · intro hc
    rw [acceptAll_iComplete] at hc
    exact (h.clashed hc).append us

theorem CacheInv.scanStop (h : CacheInv c fs rest) (junk : ℕ → UInt8) : CacheInv (scanStop junk c).cache fs rest := by
  obtain ⟨hS, hl, hc⟩ := scanned_scanStop h.scanned h.remembered junk
  exact ⟨hS, hl, fun hcomplete => h.clashed (hc ▸ hcomplete)⟩

theorem Scanned.flatten_lt (h : Scanned c fs rest) : fs.flatten.length < 2 ^ 63 := by
  have hsmall := h.small
  have hb := congrArg List.length h.buffer
  rw [List.length_append] at hb
  omega

/-- What a call returns on a cache whose cursor stands behind the frames `fs`. -/
inductive CallResult (c : WsMsgCache) (fs : List (List UInt8)) (rest : List UInt8) (junk : ℕ → UInt8) (ret : DecodeRet) :
    Prop
  | stalled (hst : Stalled c) (he : ret = ⟨0, c, none⟩)
  | message (hst : ¬Stalled c) (ks : List (List UInt8)) (t : List UInt8) (hrest : rest = ks.flatten ++ t)
      (hks : ∀ u ∈ ks, frameUnits.Whole u) (hg : Group isFin ks) (hno : ¬Clash (fs ++ ks))
      (he : ret = ⟨1, .fresh t, some (messageOf (fs ++ ks))⟩)
  | clash (hst : ¬Stalled c) (ks : List (List UInt8)) (t : List UInt8) (hrest : rest = ks.flatten ++ t)
      (hks : ∀ u ∈ ks, frameUnits.Whole u) (hg : Group isFin ks) (hc : Clash (fs ++ ks))
      (he : ret = ⟨1, { c.acceptAll ks with iComplete := true }, some (messageOf (fs ++ ks))⟩)
  | waiting (hst : ¬Stalled c) (ks : List (List UInt8)) (t : List UInt8) (hrest : rest = ks.flatten ++ t)
      (hks : ∀ u ∈ ks, frameUnits.Whole u) (ho : ∀ u ∈ ks, isFin u = false) (hnone : frameUnits.size t = none)
      (hcomplete : c.iComplete = false) (he : ret = ⟨0, (scanStop junk (c.acceptAll ks)).cache, none⟩)
  | again (hst : ¬Stalled c) (ks : List (List UInt8)) (t : List UInt8) (hrest : rest = ks.flatten ++ t)
      (hks : ∀ u ∈ ks, frameUnits.Whole u) (ho : ∀ u ∈ ks, isFin u = false) (hnone : frameUnits.size t = none)
      (hcomplete : c.iComplete = true) (he : ret = clashedRet (fs ++ ks) (scanStop junk (c.acceptAll ks)))

theorem CacheInv.result (h : CacheInv c fs rest) (junk : ℕ → UInt8) :
    ∃ ret, decodeMsg 64 (callFuel c) junk c none = some ret ∧ CallResult c fs rest junk ret := by
  have hS := h.scanned
  have hsmall := hS.small
  have hlen := hS.length_eq
  have hrem := h.remembered
  by_cases hst : Stalled c
  · exact ⟨_, decodeMsg_stalled (by omega) hst _ junk none, .stalled hst rfl⟩
  have hgo : ¬TurnedAway 64 c := not_turnedAway (Nat.le_of_not_lt hst)
  obtain ⟨ks, t, rfl, hks, hg | ⟨ho, hnone⟩⟩ := exists_scan rest
  · have hcall := decodeMsg_group hS hS.length_lt hks hg hgo le_rfl junk
    by_cases hclash : Clash (fs ++ ks)
    · rw [assemble_empty_of_clash hclash] at hcall
      exact ⟨_, hcall, .clash hst ks t rfl hks hg hclash rfl⟩
    · rw [assemble_empty_of_not_clash hclash] at hcall
      exact ⟨_, hcall, .message hst ks t rfl hks hg hclash rfl⟩
  · cases hc : c.iComplete with
    | false => exact ⟨_, decodeMsg_open hS hks ho hnone hc hgo le_rfl junk, .waiting hst ks t rfl hks ho hnone hc rfl⟩
    | true =>
      have hcall := decodeMsg_clashed hS hks ho hnone hc (h.clashed hc) hgo le_rfl junk
      exact ⟨_, hcall, .again hst ks t rfl hks ho hnone hc rfl⟩

/-- A call returns and keeps the invariant. It hands out nothing when it returns
0, and a message built from whole frames otherwise. -/
theorem CacheInv.call (h : CacheInv c fs rest) (junk : ℕ → UInt8) :
    ∃ ret fs' rest', decodeMsg 64 (callFuel c) junk c none = some ret ∧ CacheInv ret.pMsgCache fs' rest' ∧
      (ret.iRet = 0 ∧ ret.pWsMsg = none ∨ ret.iRet = 1 ∧ ∃ m gs, ret.pWsMsg = some m ∧ BuiltFrom m gs) := by
  obtain ⟨ret, hcall, hret⟩ := h.result junk
  have hbuilt {ks : List (List UInt8)} {t : List UInt8} (hacc : CacheInv (c.acceptAll ks) (fs ++ ks) t)
      (hne : fs ++ ks ≠ []) : ∃ m gs, some (messageOf (fs ++ ks)) = some m ∧ BuiltFrom m gs :=
    ⟨_, fs ++ ks, rfl, hne, hacc.scanned.whole, hacc.scanned.flatten_lt, rfl⟩
  cases hret with
  | stalled hst he => exact ⟨ret, fs, rest, hcall, he ▸ h, Or.inl (he ▸ ⟨rfl, rfl⟩)⟩
  | message hst ks t hrest hks hg hno he =>
    subst he hrest
    have hacc := h.acceptAll hks
    exact ⟨_, [], t, hcall, cacheInv_fresh h.scanned.length_rest_lt, Or.inr ⟨rfl, hbuilt hacc (by simp [hg.ne_nil])⟩⟩
  | clash hst ks t hrest hks hg hc he =>
    subst he hrest
    have hacc := h.acceptAll hks
    exact ⟨_, fs ++ ks, t, hcall, ⟨hacc.scanned.complete, hacc.remembered, fun _ => hc⟩,
      Or.inr ⟨rfl, hbuilt hacc (by simp [hg.ne_nil])⟩⟩
  | waiting hst ks t hrest hks ho hnone hcomplete he =>
    subst he hrest
    exact ⟨_, fs ++ ks, t, hcall, (h.acceptAll hks).scanStop junk, Or.inl ⟨rfl, rfl⟩⟩
  | again hst ks t hrest hks ho hnone hcomplete he =>
    subst he hrest
    have hacc := h.acceptAll hks
    refine ⟨_, fs ++ ks, t, hcall, (clashedRet_pMsgCache _ _).symm ▸ hacc.scanStop junk, ?_⟩
    cases SrWebSocket.scanStop junk (c.acceptAll ks) with
    | leave iRet c' => exact Or.inr ⟨rfl, hbuilt hacc (by simp [(h.clashed hcomplete).ne_nil])⟩
    | assertFailed c' => exact Or.inl ⟨rfl, rfl⟩

theorem assemble_prefix (m : WsMsg) (us : List (List UInt8)) : m.pBuffer <+: (assemble m us).1.pBuffer := by
  induction us generalizing m with
  | nil => exact List.prefix_rfl
  | cons u us ih =>
    rw [assemble]
    split
    · exact (List.prefix_append _ _).trans (ih (m.join u))
    · exact List.prefix_rfl

theorem BuiltFrom.nonempty {m : WsMsg} (h : BuiltFrom m fs) : m.pBuffer ≠ [] := by
  obtain ⟨hne, hw, _, rfl⟩ := h
  obtain ⟨u, us, rfl⟩ := List.exists_cons_of_ne_nil hne
  have hu := hw u List.mem_cons_self
  have hpay : (WsMsg.empty.join u).pBuffer = payload u := rfl
  have hpre := assemble_prefix (WsMsg.empty.join u) us
  rw [messageOf, assemble, if_pos (empty_joins u)]
  intro hnil
  rw [hnil, hpay, List.prefix_nil] at hpre
  have hlen := length_payload hu
  have hpos := payloadLen_pos hu
  rw [hpre, List.length_nil] at hlen
  omega

theorem length_assemble_le (hw : ∀ u ∈ us, frameUnits.Whole u) (m : WsMsg) :
    (assemble m us).1.pBuffer.length ≤ m.pBuffer.length + (us.map payloadLen).sum := by
  induction us generalizing m with
  | nil => simp [assemble]
  | cons u us ih =>
    have hu := length_payload (hw u List.mem_cons_self)
    have hjoin : (m.join u).pBuffer.length = m.pBuffer.length + (payload u).length := List.length_append
    have ih' := ih (fun v hv => hw v (List.mem_cons_of_mem _ hv)) (m.join u)
    rw [assemble, List.map_cons, List.sum_cons]
    split
    · omega
    · exact Nat.le_add_right _ _

theorem BuiltFrom.length_lt {m : WsMsg} (h : BuiltFrom m fs) : m.pBuffer.length < 2 ^ 63 := by
  obtain ⟨_, hw, hlen, rfl⟩ := h
  have hle := length_assemble_le hw .empty
  have hsum := sum_payloadLen_le hw
  have hempty : WsMsg.empty.pBuffer.length = 0 := rfl
  unfold messageOf
  omega

end SrWebSocket
