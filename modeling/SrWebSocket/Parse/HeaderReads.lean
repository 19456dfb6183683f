import SrWebSocket.Parse.Agreement
import SrWebSocket.Parse.ScanVisits

/-! # Header bytes that have not arrived

`TryDecodeLen` is called when two bytes are there and looks at up to ten. Every
place where a call of `DecodeMsg` uses it is taken from the loops themselves. What
it interprets has arrived unless the scan comes to a header that is cut short.
-/
namespace SrWebSocket

/-- A call of `DecodeMsg` on `c` interprets byte `i` of the buffer, with the cache `c'`. -/
inductive InterpretedByte (junk : ℕ → UInt8) (c : WsMsgCache) : WsMsgCache → ℕ → Prop
  | scan {c' : WsMsgCache} {o : ℕ} (hgo : ¬TurnedAway 64 c) (hv : Iteration.Visits (scanStep 64 junk) c c')
      (hloop : addSize 64 wsMinMsgExpectLen c'.iCurFrameIndex ≤ c'.pBuffer.length)
      (ho : o ∈ interpreted fun i => memory c'.pBuffer junk (c'.iCurFrameIndex + i)) :
      InterpretedByte junk c c' (c'.iCurFrameIndex + o)
  | reassembly {c' : WsMsgCache} {r : Reassembly} {o : ℕ} (hr : Reassembles junk c c')
      (hv : Iteration.Visits (reassembleStep 64 junk c') ⟨0, 0, none⟩ r)
      (hloop : r.iOffset < c'.iCurFrameIndex ∧ r.iPayloadOffset ≤ c'.iTotalFrameLen)
      (ho : o ∈ interpreted fun i => memory c'.pBuffer junk (r.iOffset + i)) :
      InterpretedByte junk c c' (r.iOffset + o)

def WsMsgCache.ReadsReceived (c : WsMsgCache) : CacheAct → Prop
  | .append _ => True
  | .decode junk => ∀ c' i, InterpretedByte junk c c' i → i < c'.pBuffer.length

/-- Behind whole frames without FIN the buffer ends inside a header, after its second byte. -/
def CutHeader (c : WsMsgCache) : Prop :=
  ∃ ks t, StartsOpen (c.pBuffer.drop c.iCurFrameIndex) ks t ∧ 2 ≤ t.length ∧ t.length < headerLen (bytesOf t)

def WsMsgCache.HeadersWhole (c : WsMsgCache) : CacheAct → Prop
  | .append _ => True
  | .decode _ => Stalled c ∨ ¬CutHeader c

variable {o : ℕ} {c c' : WsMsgCache} {fs ks : List (List UInt8)} {u rest t : List UInt8}
  {junk : ℕ → UInt8} {r : Reassembly}

/-- The second byte tells the length of the header. -/
theorem Scanned.headerLen_cursor (h : Scanned c fs rest) (h2 : 2 ≤ rest.length) (junk : ℕ → UInt8) :
    headerLen (fun i => memory c.pBuffer junk (c.iCurFrameIndex + i)) = headerLen (bytesOf rest) := by
  rw [h.header junk]
  exact headerLen_congr (memory_congr (by omega))

/-! ## The two loops -/

theorem CacheInv.turnedAway_iff (h : CacheInv c fs rest) : TurnedAway 64 c ↔ Stalled c := by
  have hsmall := h.scanned.small
  have hlen := h.scanned.length_eq
  have hrem := h.remembered
  rw [TurnedAway, Stalled, addSize_of_lt (by omega)]

theorem scan_reads_received (h : CacheInv c fs rest) (hcut : ¬CutHeader c)
    (hv : Iteration.Visits (scanStep 64 junk) c c')
    (hloop : addSize 64 wsMinMsgExpectLen c'.iCurFrameIndex ≤ c'.pBuffer.length)
    (ho : o ∈ interpreted fun i => memory c'.pBuffer junk (c'.iCurFrameIndex + i)) :
    c'.iCurFrameIndex + o < c'.pBuffer.length := by
  obtain ⟨ks, t, hopen, rfl⟩ := h.scanned.of_visits_64 hv
  have hS := h.scanned.acceptOpen hopen
  have hlen := hS.length_eq
  have hsmall := hS.small
  have h2 : 2 ≤ t.length := by
    rw [addSize_of_lt] at hloop <;> simp only [wsMinMsgExpectLen] at * <;> omega
  have hlt := interpreted_lt ho
  rw [hS.headerLen_cursor h2] at hlt
  have hwhole : headerLen (bytesOf t) ≤ t.length := by
    by_contra hshort
    exact hcut ⟨ks, t, h.scanned.rest_eq ▸ hopen, h2, by omega⟩
  omega

theorem reassembly_reads_received (h : CacheInv c fs rest) (hr : Reassembles junk c c')
    (hv : Iteration.Visits (reassembleStep 64 junk c') ⟨0, 0, none⟩ r)
    (hloop : r.iOffset < c'.iCurFrameIndex) (ho : o ∈ interpreted fun i => memory c'.pBuffer junk (r.iOffset + i)) :
    r.iOffset + o < c'.pBuffer.length := by
  obtain ⟨ks, t, hp⟩ := exists_passes c rest
  have hS := hr.scanned h hp
  have hat := Iteration.visits_invariant (AtFrame (fs ++ ks)) (fun _ _ hi hs => hi.step hS hS.length_lt hs)
    (atFrame_start _) hv
  obtain ⟨before, u, after, hu⟩ := hat.next hS hS.length_lt hloop junk
  have h3 := three_le_length hu.whole
  have hheader : headerLen (fun i => memory c'.pBuffer junk (r.iOffset + i)) = headerLen (bytesOf u) :=
    headerLen_congr (hu.bytes 1 (by omega))
  have hsize := (whole_iff.mp hu.whole).2
  have harrived := hu.arrived
  have hlt := interpreted_lt ho
  rw [hheader] at hlt
  unfold frameSize at hsize
  omega

/-- A call interprets only bytes that have arrived exactly when it does not come to
a header that is cut short. -/
theorem readsReceived_iff (h : CacheInv c fs rest) (a : CacheAct) : c.ReadsReceived a ↔ c.HeadersWhole a := by
  cases a with
  | append chunk => exact Iff.rfl
  | decode junk =>
    have hstalled := h.turnedAway_iff
    constructor
    · intro hreads
      by_contra hnot
      obtain ⟨hst, hcut⟩ := not_or.mp hnot
      obtain ⟨ks, t, hopen, h2, hshort⟩ := not_not.mp hcut
      rw [← h.scanned.rest_eq] at hopen
      have hS := h.scanned.acceptOpen hopen
      have hlen := hS.length_eq
      have hsmall := hS.small
      have hloop : addSize 64 wsMinMsgExpectLen (c.acceptAll ks).iCurFrameIndex ≤ (c.acceptAll ks).pBuffer.length := by
        rw [addSize_of_lt] <;> simp only [wsMinMsgExpectLen] <;> omega
      have hv := h.scanned.visits_acceptAll h.scanned.length_lt hopen junk
      have hlast := hreads _ _ (.scan (mt hstalled.mp hst) hv hloop (pred_headerLen_mem _))
      rw [hS.headerLen_cursor h2] at hlast
      omega
    · intro hwhole c' i hi
      cases hi with
      | scan hgo hv hloop ho =>
        exact scan_reads_received h (hwhole.resolve_left (mt hstalled.mpr hgo)) hv hloop ho
      | reassembly hr hv hloop ho => exact reassembly_reads_received h hr hv hloop.1 ho

/-- In a run of appends and calls every interpreted header byte has arrived exactly
when no call that goes past its first test comes to a header that is cut short. -/
theorem readsReceived_run_iff (acts : List CacheAct) :
    Machine.EachStep WsMsgCache.step WsMsgCache.ReadsReceived (.fresh []) acts ↔
      Machine.EachStep WsMsgCache.step WsMsgCache.HeadersWhole (.fresh []) acts := by
  have hpoint : ∀ c a, (∃ fs rest, RunInv c fs rest) → (c.ReadsReceived a ↔ c.HeadersWhole a) := by
    rintro c a ⟨fs, rest, h⟩
    exact readsReceived_iff h.toCacheInv a
  exact Machine.eachStep_congr _ hpoint (fun _ _ _ ⟨_, _, h⟩ _ hs => h.step hs)
    ⟨[], [], runInv_fresh (Nat.two_pow_pos 63)⟩ acts

/-- Two bytes of a header with an extended length: its bytes 2 and 3 are read behind them. -/
theorem cutHeader_reads_ahead :
    ¬Machine.EachStep WsMsgCache.step WsMsgCache.ReadsReceived (.fresh [])
      [.append [0x81, 0x7e], .decode fun _ => 0] := by
  intro h
  have hcall := h [.append [0x81, 0x7e]] (.decode fun _ => 0) [] (.fresh [0x81, 0x7e]) rfl rfl
  have hread : InterpretedByte (fun _ => 0) (.fresh [0x81, 0x7e]) (.fresh [0x81, 0x7e]) (0 + 3) :=
    .scan (by decide) .refl (by decide) (by decide)
  exact absurd (hcall _ _ hread) (by decide)

end SrWebSocket
