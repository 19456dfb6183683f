import SrWebSocket.Parse.NarrowSizes
import SrWebSocket.Parse.Resumed

/-! # 32-bit and 64-bit builds

The declared platforms differ in the width of `size_t`. As long as no frame that the scan
looks at is announced to end at or behind 2^32, nothing the decoder computes depends on it.
-/
namespace SrWebSocket

/-- No frame at which the scan of the call looks is announced to end at or behind `n`. -/
def AnnouncedBelow (n : ℕ) (junk : ℕ → UInt8) (c : WsMsgCache) : Prop :=
  ∀ ks t, StartsOpen (c.pBuffer.drop c.iCurFrameIndex) ks t → 2 ≤ t.length →
    c.iCurFrameIndex + ks.flatten.length +
      frameSize (fun i => memory c.pBuffer junk (c.iCurFrameIndex + ks.flatten.length + i)) < n

/-- A step that a 32-bit build has the room for. -/
def Decoder.Fits (d : Decoder) : CacheAct → Prop
  | .append chunk => d.cache.pBuffer.length + chunk.length < 2 ^ 31
  | .decode junk => AnnouncedBelow (2 ^ 32) junk d.cache

/-- What holds of a cache between two calls in a run of such steps. -/
structure FitInv (c : WsMsgCache) (fs : List (List UInt8)) (rest : List UInt8) : Prop
    extends CacheInv c fs rest where
  short : c.pBuffer.length < 2 ^ 31
  ends : c.iCurFrameLen + c.iCurFrameIndex < 2 ^ 32

variable {c : WsMsgCache} {d d' : Decoder} {fs ks : List (List UInt8)} {rest t chunk : List UInt8} {junk : ℕ → UInt8}
  {ret : DecodeRet} {a : CacheAct}

theorem fitInv_fresh (h : rest.length < 2 ^ 31) : FitInv (.fresh rest) [] rest where
  toCacheInv := cacheInv_fresh (h.trans (by decide))
  short := h
  ends := Nat.two_pow_pos 32

theorem FitInv.append (h : FitInv c fs rest) (hlen : c.pBuffer.length + chunk.length < 2 ^ 31) :
    FitInv (c.append chunk) fs (rest ++ chunk) where
  toCacheInv := h.toCacheInv.append (hlen.trans (by decide))
  short := by simpa [WsMsgCache.append] using hlen
  ends := h.ends

theorem FitInv.acceptAll (h : FitInv c fs (ks.flatten ++ t)) (hks : ∀ u ∈ ks, frameUnits.Whole u) :
    FitInv (c.acceptAll ks) (fs ++ ks) t where
  toCacheInv := h.toCacheInv.acceptAll hks
  short := (acceptAll_pBuffer c ks).symm ▸ h.short
  ends := by
    have hlen := (h.scanned.acceptAll hks).length_eq
    have hshort := h.short
    have hends := h.ends
    rw [acceptAll_pBuffer] at hlen
    rw [acceptAll_iCurFrameLen]
    by_cases hnil : ks = []
    · rw [if_pos hnil, hnil]
      exact hends
    · rw [if_neg hnil]
      omega

/-- The frame in front of which the scan stops is announced to end below 2^32. -/
theorem FitInv.stop_below (h : FitInv c fs (ks.flatten ++ t)) (hfit : AnnouncedBelow (2 ^ 32) junk c)
    (hks : ∀ u ∈ ks, frameUnits.Whole u) (ho : ∀ u ∈ ks, isFin u = false) (h2 : 2 ≤ t.length) :
    (c.acceptAll ks).iCurFrameIndex +
      frameSize (fun i => memory (c.acceptAll ks).pBuffer junk ((c.acceptAll ks).iCurFrameIndex + i)) < 2 ^ 32 := by
  rw [acceptAll_pBuffer, acceptAll_iCurFrameIndex]
  exact hfit ks t ⟨h.scanned.rest_eq.symm, hks, ho⟩ h2

theorem FitInv.scanStop (h : FitInv c fs rest) (hbelow : 2 ≤ rest.length →
    c.iCurFrameIndex + frameSize (fun i => memory c.pBuffer junk (c.iCurFrameIndex + i)) < 2 ^ 32) :
    FitInv (scanStop junk c).cache fs rest where
  toCacheInv := h.toCacheInv.scanStop junk
  short := (scanStop_pBuffer junk c).symm ▸ h.short
  ends := by
    have hlen := h.scanned.length_eq
    rcases scanStop_cases junk c with ⟨_, he⟩ | ⟨_, he, _⟩ | ⟨h2, he, _⟩
    · rw [he]
      exact h.ends
    · rw [he]
      exact h.ends
    · rw [he, Nat.add_comm]
      exact hbelow (by omega)

/-! ## One call -/

/-- Where the scan of a 64-bit build stops, that of a 32-bit build stops as well. -/
theorem scanStep_narrow_stop (hS : Scanned c fs rest) (hshort : c.pBuffer.length < 2 ^ 31)
    (hnone : frameUnits.size rest = none) (hbelow : 2 ≤ rest.length →
      c.iCurFrameIndex + frameSize (fun i => memory c.pBuffer junk (c.iCurFrameIndex + i)) < 2 ^ 32) :
    scanStep 32 junk c = .inr (scanStop junk c) := by
  have hlen := hS.length_eq
  have hmin : addSize 32 wsMinMsgExpectLen c.iCurFrameIndex = 2 + c.iCurFrameIndex :=
    addSize_of_lt (by unfold wsMinMsgExpectLen; omega)
  unfold scanStep SrWebSocket.scanStop
  dsimp only
  rw [hmin]
  by_cases h2 : c.pBuffer.length < c.iCurFrameIndex + 2
  · rw [if_neg (by omega), if_pos h2]
  · have hend := hbelow (by omega)
    rw [if_pos (by omega), if_neg h2, tryDecodeLen_eq]
    by_cases hpos : 0 < codedLen fun i => memory c.pBuffer junk (c.iCurFrameIndex + i)
    · have hbehind : c.pBuffer.length < c.iCurFrameIndex +
          frameSize fun i => memory c.pBuffer junk (c.iCurFrameIndex + i) := by
        have hinc := mt (completeIn_memory rest fun i => junk (c.iCurFrameIndex + i)).mp (size_eq_none.mp hnone)
        rw [← hS.header junk] at hinc
        by_contra hin
        exact hinc ⟨hpos, by omega⟩
      have hsize : frameSize (fun i => memory c.pBuffer junk (c.iCurFrameIndex + i)) % 2 ^ 32 =
          frameSize fun i => memory c.pBuffer junk (c.iCurFrameIndex + i) := Nat.mod_eq_of_lt (by omega)
      have hadd : addSize 32 (frameSize fun i => memory c.pBuffer junk (c.iCurFrameIndex + i)) c.iCurFrameIndex =
          (frameSize fun i => memory c.pBuffer junk (c.iCurFrameIndex + i)) + c.iCurFrameIndex :=
        addSize_of_lt (by omega)
      unfold frameSize at hsize hadd hbehind
      rw [if_pos hpos, if_neg hpos.ne']
      dsimp only
      rw [hsize, hadd, if_neg (by omega)]
      rfl
    · rw [if_neg hpos, if_pos (by omega)]

theorem FitInv.narrow_call (h : FitInv c fs rest) (hfit : AnnouncedBelow (2 ^ 32) junk c) :
    decodeMsg 32 (callFuel c) junk c none = decodeMsg 64 (callFuel c) junk c none := by
  have hS := h.scanned
  have hends := h.ends
  have haway (w : ℕ) (hw : 2 ^ 32 ≤ 2 ^ w) : TurnedAway w c ↔ Stalled c := by
    rw [TurnedAway, Stalled, addSize_of_lt (by omega)]
  by_cases hst : Stalled c
  · rw [decodeMsg_turnedAway ((haway 32 le_rfl).mpr hst), decodeMsg_turnedAway ((haway 64 (by decide)).mpr hst)]
  have hgo := mt (haway 32 le_rfl).mp hst
  have hgo' := mt (haway 64 (by decide)).mp hst
  have hw : c.pBuffer.length < 2 ^ 32 := h.short.trans (by decide)
  obtain ⟨ks, t, rfl, hks, hg | ⟨ho, hnone⟩⟩ := exists_scan rest
  · rw [decodeMsg_group hS hw hks hg hgo le_rfl, decodeMsg_group hS hS.length_lt hks hg hgo' le_rfl]
  · have hacc := h.acceptAll hks
    have hbelow := h.stop_below hfit hks ho
    have hleft := hacc.scanStop hbelow
    obtain ⟨_, hgl, hal⟩ := hS.length_lt_fuel hks le_rfl
    have hscan : Iteration.run (scanStep 32 junk) (callFuel c) c = some (SrWebSocket.scanStop junk (c.acceptAll ks)) := by
      obtain ⟨n, hn⟩ : ∃ n, callFuel c = ks.length + (n + 1) := ⟨callFuel c - (ks.length + 1), by omega⟩
      rw [hn, run_scan_acceptAll hS hw hks ho]
      exact Iteration.run_exit (scanStep_narrow_stop hacc.scanned hacc.short hnone hbelow) n
    unfold TurnedAway at hgo hgo'
    unfold decodeMsg
    rw [if_neg hgo, if_neg hgo', hscan, run_scan_open hS hks ho hnone hgl]
    cases he : SrWebSocket.scanStop junk (c.acceptAll ks) with
    | assertFailed c' => rfl
    | leave iRet c' =>
      rw [he] at hleft
      dsimp only [ScanExit.cache] at hleft ⊢
      by_cases hc : c'.iComplete = true
      · have hne := (hleft.clashed hc).ne_nil
        rw [if_pos hc, if_pos hc, reassemble_eq hleft.scanned (hleft.short.trans (by decide)) hne hal,
          reassemble_eq hleft.scanned hleft.scanned.length_lt hne hal]
      · rw [if_neg hc, if_neg hc]

theorem FitInv.call (h : FitInv c fs rest) (hfit : AnnouncedBelow (2 ^ 32) junk c)
    (hret : CallResult c fs rest junk ret) : ∃ fs' rest', FitInv ret.pMsgCache fs' rest' := by
  cases hret with
  | stalled hst he =>
    subst he
    exact ⟨fs, rest, h⟩
  | message hst ks t hrest hks hg hno he =>
    subst he hrest
    have hlen := h.scanned.length_eq
    have hshort := h.short
    rw [List.length_append] at hlen
    exact ⟨[], t, fitInv_fresh (by omega)⟩
  | clash hst ks t hrest hks hg hc he =>
    subst he hrest
    have hacc := h.acceptAll hks
    exact ⟨fs ++ ks, t, ⟨hacc.scanned.complete, hacc.remembered, fun _ => hc⟩, hacc.short, hacc.ends⟩
  | waiting hst ks t hrest hks ho hnone hcomplete he =>
    subst he hrest
    exact ⟨fs ++ ks, t, (h.acceptAll hks).scanStop (h.stop_below hfit hks ho)⟩
  | again hst ks t hrest hks ho hnone hcomplete he =>
    subst he hrest
    rw [clashedRet_pMsgCache]
    exact ⟨fs ++ ks, t, (h.acceptAll hks).scanStop (h.stop_below hfit hks ho)⟩

/-! ## Runs -/

theorem FitInv.step (h : FitInv d.cache fs rest) (hfit : d.Fits a) (hs : d.step 64 a = some d') :
    ∃ fs' rest', FitInv d'.cache fs' rest' := by
  cases a with
  | append chunk =>
    obtain ⟨_, he⟩ := Option.ite_none_right_eq_some.mp hs
    cases he
    exact ⟨fs, rest ++ chunk, h.append hfit⟩
  | decode junk =>
    obtain ⟨ret, hcall, rfl⟩ := Option.map_eq_some_iff.mp hs
    obtain ⟨ret', hcall', hret⟩ := h.result junk
    obtain rfl := Option.some.inj (hcall.symm.trans hcall')
    exact h.call hfit hret

theorem FitInv.narrow_step (h : FitInv d.cache fs rest) (hfit : d.Fits a) : d.step 32 a = d.step 64 a := by
  cases a with
  | append chunk =>
    have hnarrow : d.cache.pBuffer.length + chunk.length < 2 ^ (32 - 1) := hfit
    have hwide : d.cache.pBuffer.length + chunk.length < 2 ^ (64 - 1) := hnarrow.trans (by decide)
    rw [Decoder.step, Decoder.step, if_pos hnarrow, if_pos hwide]
  | decode junk => rw [Decoder.step, Decoder.step, h.narrow_call hfit]

/-- As long as the buffer is shorter than 2^31 bytes and no frame that the scan looks at is
announced to end at or behind 2^32, a 32-bit build goes through the states of a 64-bit
build and hands out its messages, whatever arrives and whatever lies behind it in memory. -/
theorem bothWidths_run (acts : List CacheAct) (hfits : Machine.EachStep (Decoder.step 64) Decoder.Fits .start acts) :
    Machine.exec (Decoder.step 32) .start acts = Machine.exec (Decoder.step 64) .start acts := by
  have hstart : FitInv (.fresh []) [] [] := fitInv_fresh (Nat.two_pow_pos 31)
  exact Machine.exec_congr (fun d => ∃ fs rest, FitInv d.cache fs rest) (fun _ _ _ ⟨_, _, h⟩ hfit hs => h.step hfit hs)
    (fun _ _ ⟨_, _, h⟩ hfit => h.narrow_step hfit) ⟨[], [], hstart⟩ hfits

/-- Behind a frame with FIN the scan does not look. -/
theorem announcedBelow_of_fin {n : ℕ} (hfin : isFin (c.pBuffer.drop c.iCurFrameIndex) = true)
    (h : c.iCurFrameIndex + frameSize (fun i => memory c.pBuffer junk (c.iCurFrameIndex + i)) < n) :
    AnnouncedBelow n junk c := by
  rintro ks t ⟨hrest, hw, ho⟩ _
  cases ks with
  | nil => simpa using h
  | cons u ks =>
    have hpos := (hw u List.mem_cons_self).length_pos
    have hfirst : bytesOf (c.pBuffer.drop c.iCurFrameIndex) 0 = bytesOf u 0 := by
      rw [hrest, List.flatten_cons, List.append_assoc]
      exact List.getD_append _ _ _ _ hpos
    have hopen := ho u List.mem_cons_self
    rw [isFin, hfirst] at hfin
    exact absurd (hfin.symm.trans hopen) (by decide)

/-- A TEXT frame that arrives at once. -/
def oneFrame : List CacheAct := [.append [0x81, 1, 97], .decode fun _ => 0xff]

theorem bothWidths_run_text :
    Machine.exec (Decoder.step 32) .start oneFrame = Machine.exec (Decoder.step 64) .start oneFrame ∧
      (Machine.exec (Decoder.step 64) .start oneFrame).map (fun d => d.delivered) = some [⟨[97], wsFrameText⟩] := by
  have happend : Decoder.step 64 .start (.append [0x81, 1, 97]) = some ⟨.fresh [0x81, 1, 97], []⟩ := rfl
  have hroom : Decoder.start.Fits (.append [0x81, 1, 97]) := (by decide : 0 + 3 < 2 ^ 31)
  have hcall : Decoder.Fits ⟨.fresh [0x81, 1, 97], []⟩ (.decode fun _ => 0xff) :=
    announcedBelow_of_fin (by decide) (by decide)
  have hfits : Machine.EachStep (Decoder.step 64) Decoder.Fits .start oneFrame := by
    refine (Machine.eachStep_cons happend).mpr ⟨hroom, fun as₁ a as₂ d he hd => ?_⟩
    cases as₁ with
    | nil =>
      cases he
      cases hd
      exact hcall
    | cons b bs => exact absurd (congrArg List.length he) (by simp)
  exact ⟨bothWidths_run oneFrame hfits, by decide⟩

end SrWebSocket
