import SrWebSocket.Parse.DecodeSpec

/-! # Memory behind the used bytes

A header that is cut short is decoded with whatever lies behind the used bytes.
That decides whether its length counts as zero and which length is remembered, but
never whether the frame has arrived: the results of two calls on equal caches are
equal up to the remembered length.
-/
namespace SrWebSocket

/-- Equal but for the remembered length. -/
structure WsMsgCache.Alike (c d : WsMsgCache) : Prop where
  pBuffer : c.pBuffer = d.pBuffer
  iCurFrameIndex : c.iCurFrameIndex = d.iCurFrameIndex
  iTotalFrameLen : c.iTotalFrameLen = d.iTotalFrameLen
  iComplete : c.iComplete = d.iComplete

structure DecodeRet.Alike (ret ret' : DecodeRet) : Prop where
  iRet : ret.iRet = ret'.iRet
  pWsMsg : ret.pWsMsg = ret'.pWsMsg
  pMsgCache : ret.pMsgCache.Alike ret'.pMsgCache

variable {c : WsMsgCache} {fs : List (List UInt8)} {rest : List UInt8} {fuel : ℕ}

theorem WsMsgCache.Alike.refl (c : WsMsgCache) : c.Alike c := ⟨rfl, rfl, rfl, rfl⟩

theorem DecodeRet.Alike.refl (ret : DecodeRet) : ret.Alike ret := ⟨rfl, rfl, .refl _⟩

/-- In front of an incomplete frame the memory behind it decides about the remembered length only. -/
theorem scanStop_alike (junk : ℕ → UInt8) (c : WsMsgCache) : (scanStop junk c).cache.Alike c := by
  rcases scanStop_cases junk c with ⟨_, he⟩ | ⟨_, he, _⟩ | ⟨_, he, _⟩
  · rw [he]
    exact .refl c
  · rw [he]
    exact .refl c
  · rw [he]
    exact ⟨rfl, rfl, rfl, rfl⟩

/-- What one call returns, and all of the cache but the remembered length, is a
function of the used bytes and the fields of the cache. -/
theorem decodeMsg_stale (c : WsMsgCache) (fs : List (List UInt8)) (rest : List UInt8) (h : Scanned c fs rest)
    (hcomplete : c.iComplete = false) (junk junk' : ℕ → UInt8) (hfuel : callFuel c ≤ fuel) :
    ∃ ret ret', decodeMsg 64 fuel junk c none = some ret ∧ decodeMsg 64 fuel junk' c none = some ret' ∧
      ret.Alike ret' := by
  by_cases hgo : TurnedAway 64 c
  · exact ⟨_, _, decodeMsg_turnedAway hgo fuel junk none, decodeMsg_turnedAway hgo fuel junk' none, .refl _⟩
  obtain ⟨ks, t, rfl, hks, hg | ⟨ho, hnone⟩⟩ := exists_scan rest
  · have hcall := decodeMsg_group h h.length_lt hks hg hgo hfuel
    exact ⟨_, _, hcall junk, hcall junk', .refl _⟩
  · have hcall := decodeMsg_open h hks ho hnone hcomplete hgo hfuel
    obtain ⟨hbuf, hidx, htot, hcom⟩ := scanStop_alike junk (c.acceptAll ks)
    obtain ⟨hbuf', hidx', htot', hcom'⟩ := scanStop_alike junk' (c.acceptAll ks)
    exact ⟨_, _, hcall junk, hcall junk', rfl, rfl, hbuf.trans hbuf'.symm, hidx.trans hidx'.symm,
      htot.trans htot'.symm, hcom.trans hcom'.symm⟩

/-- Two bytes of a cut header: with one memory its length is zero, with the other it is 65535. -/
theorem decodeMsg_stale_cut :
    ∃ ret ret', decodeMsg 64 3 (fun _ => 0) (.fresh [0x81, 0x7e]) none = some ret ∧
      decodeMsg 64 3 (fun _ => 0xff) (.fresh [0x81, 0x7e]) none = some ret' ∧ ret.Alike ret' :=
  decodeMsg_stale (.fresh [0x81, 0x7e]) [] [0x81, 0x7e] (scanned_fresh (by decide)) rfl (fun _ => 0) (fun _ => 0xff)
    (by decide)

end SrWebSocket
