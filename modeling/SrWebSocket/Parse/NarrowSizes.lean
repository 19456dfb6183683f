import Mathlib.Data.List.Induction
import SrWebSocket.Parse.Agreement
import SrWebSocket.Parse.ScanVisits

/-! # Sizes of 32 bits

On a build with a 32-bit `size_t` the decoder computes modulo 2^32. A frame whose
end lies behind the used bytes is accepted when this end wraps around into them; the
cursor, the sum of the payload lengths and the slices are then wrong. Without such
a frame the scan and the reassembly compute the exact numbers.
-/
namespace SrWebSocket

/-- The scan accepts the header `st` at the cursor of `c`. -/
def AcceptsHeader (w : ℕ) (junk : ℕ → UInt8) (c : WsMsgCache) (st : WsMsgFrame) (c' : WsMsgCache) : Prop :=
  tryDecodeLen w (fun i => memory c.pBuffer junk (c.iCurFrameIndex + i)) = some st ∧
    (scanStep w junk c = .inl c' ∨ scanStep w junk c = .inr (.leave 1 c'))

/-- The scan loop has accepted the headers `sts`, in a call on `c`, and starts an iteration with `d`. -/
inductive Scans (w : ℕ) (junk : ℕ → UInt8) (c : WsMsgCache) : List WsMsgFrame → WsMsgCache → Prop
  | start : Scans w junk c [] c
  | next {sts : List WsMsgFrame} {st : WsMsgFrame} {d e : WsMsgCache} (h : Scans w junk c sts d)
      (hst : tryDecodeLen w (fun i => memory d.pBuffer junk (d.iCurFrameIndex + i)) = some st)
      (hs : scanStep w junk d = .inl e) : Scans w junk c (sts ++ [st]) e

/-- The header `st`, accepted with the cache `d` behind the headers `sts`, stands for
bytes that have arrived, and the payload lengths are added up. -/
structure ExactFrame (c d d' : WsMsgCache) (sts : List WsMsgFrame) (st : WsMsgFrame) : Prop where
  offset_le : st.payloadOffset + st.payloadLength ≤ st.expectsize
  arrived : d.iCurFrameIndex + st.expectsize ≤ d.pBuffer.length
  total : d'.iTotalFrameLen = c.iTotalFrameLen + ((sts ++ [st]).map WsMsgFrame.payloadLength).sum

/-- The slice that the iteration of the reassembly at `r` passes to `Append` is in
the buffer, and the bytes that it unmasks are in the message. -/
def SliceInside (w : ℕ) (junk : ℕ → UInt8) (c : WsMsgCache) (r : Reassembly) : Prop :=
  ∀ st, tryDecodeLen w (fun i => memory c.pBuffer junk (r.iOffset + i)) = some st →
    r.iOffset + st.payloadOffset + st.payloadLength ≤ c.pBuffer.length ∧
      r.iPayloadOffset + st.payloadLength ≤ ((r.pWsMsg.getD WsMsg.empty).pBuffer ++
        slice (memory c.pBuffer junk) (r.iOffset + st.payloadOffset) st.payloadLength).length

/-- What a call computes behind its first test are the exact numbers. -/
structure ExactSizes (junk : ℕ → UInt8) (c : WsMsgCache) : Prop where
  frames : ∀ sts d st d', Scans 32 junk c sts d → AcceptsHeader 32 junk d st d' → ExactFrame c d d' sts st
  slices : ∀ fuel iRet d r, Iteration.run (scanStep 32 junk) fuel c = some (.leave iRet d) → d.iComplete = true →
    Iteration.Visits (reassembleStep 32 junk d) ⟨0, 0, none⟩ r → r.iOffset < d.iCurFrameIndex → SliceInside 32 junk d r

/-- The frame announced at index `i` ends behind the used bytes, but its end modulo
2^32 is among them, and the loop goes on in front of it. -/
def EndWraps (bytes : List UInt8) (junk : ℕ → UInt8) (i : ℕ) : Prop :=
  (2 + i) % 2 ^ 32 ≤ bytes.length ∧ 0 < codedLen (fun k => memory bytes junk (i + k)) ∧
    bytes.length < i + frameSize (fun k => memory bytes junk (i + k)) ∧
    (i + frameSize (fun k => memory bytes junk (i + k))) % 2 ^ 32 ≤ bytes.length

/-- Behind whole frames without FIN at the cursor there is such a frame. -/
def WrapsInto (junk : ℕ → UInt8) (c : WsMsgCache) : Prop :=
  ∃ ks t, StartsOpen (c.pBuffer.drop c.iCurFrameIndex) ks t ∧
    EndWraps c.pBuffer junk (c.iCurFrameIndex + ks.flatten.length)

/-- `WsMsgCache.step` on a 32-bit build. A call whose loops are not over in time ends the run. -/
def WsMsgCache.narrowStep (c : WsMsgCache) : CacheAct → Option WsMsgCache
  | .append chunk => if c.pBuffer.length + chunk.length < 2 ^ 32 then some (c.append chunk) else none
  | .decode junk => (decodeMsg 32 (callFuel c) junk c none).map fun ret => ret.pMsgCache

def WsMsgCache.SizesExact (c : WsMsgCache) : CacheAct → Prop
  | .append _ => True
  | .decode junk => ¬TurnedAway 32 c → ExactSizes junk c

def WsMsgCache.NoWrap (c : WsMsgCache) : CacheAct → Prop
  | .append _ => True
  | .decode junk => TurnedAway 32 c ∨ ¬WrapsInto junk c

/-- How the scan is left without accepting a header. -/
def StopsAt (c : WsMsgCache) (e : ScanExit) : Prop :=
  e = .leave 0 c ∨ e = .assertFailed c ∨ ∃ n, e = .leave 0 (c.remember n)

/-- What holds of a cache between two calls as long as nothing has wrapped. -/
structure NarrowInv (c : WsMsgCache) (fs : List (List UInt8)) (rest : List UInt8) : Prop where
  scanned : Scanned c fs rest
  below : c.pBuffer.length < 2 ^ 32
  clashed : c.iComplete = true → Clash fs

variable {c c' d : WsMsgCache} {fs ks : List (List UInt8)} {u rest t : List UInt8} {junk : ℕ → UInt8} {w : ℕ}
  {st : WsMsgFrame} {sts : List WsMsgFrame} {e : ScanExit} {r : Reassembly}

theorem acceptAll_iCurFrameIndex (c : WsMsgCache) (ks : List (List UInt8)) :
    (c.acceptAll ks).iCurFrameIndex = c.iCurFrameIndex + ks.flatten.length := by
  induction ks generalizing c with
  | nil => rfl
  | cons u ks ih =>
    have hu : (c.accept u).iCurFrameIndex = c.iCurFrameIndex + u.length := rfl
    rw [acceptAll_cons, ih, hu, List.flatten_cons, List.length_append, Nat.add_assoc]

/-! ## One iteration of the scan -/

theorem exists_decoded (w : ℕ) {p : ℕ → UInt8} (hpos : 0 < codedLen p) : ∃ st, tryDecodeLen w p = some st :=
  ⟨_, (tryDecodeLen_eq w p).trans (if_pos hpos)⟩

/-- The size of the frame is the one number that is taken modulo `2 ^ w`. -/
theorem decoded_sizes {p : ℕ → UInt8} (h : tryDecodeLen w p = some st) :
    0 < codedLen p ∧ st.payloadOffset + st.payloadLength = frameSize p ∧ st.expectsize = frameSize p % 2 ^ w := by
  rw [tryDecodeLen_eq] at h
  obtain ⟨hpos, he⟩ := Option.ite_none_right_eq_some.mp h
  rw [← Option.some.inj he]
  exact ⟨hpos, rfl, rfl⟩

theorem addSize_mod (w i n : ℕ) : addSize w (n % 2 ^ w) i = (i + n) % 2 ^ w := by
  rw [addSize, Nat.mod_add_mod, Nat.add_comm]

theorem exists_accepts (hloop : addSize w wsMinMsgExpectLen c.iCurFrameIndex ≤ c.pBuffer.length)
    (hst : tryDecodeLen w (fun i => memory c.pBuffer junk (c.iCurFrameIndex + i)) = some st)
    (hfit : addSize w st.expectsize c.iCurFrameIndex ≤ c.pBuffer.length) : ∃ d, AcceptsHeader w junk c st d := by
  unfold AcceptsHeader scanStep
  simp only [hloop, if_true, hst, hfit, true_and]
  split
  · exact ⟨_, Or.inr rfl⟩
  · exact ⟨_, Or.inl rfl⟩

/-- A frame that ends behind the used bytes is accepted exactly when its end wraps. -/
theorem exists_accepts_of_wraps (h : EndWraps c.pBuffer junk c.iCurFrameIndex) :
    ∃ st d, AcceptsHeader 32 junk c st d ∧ ¬(st.payloadOffset + st.payloadLength ≤ st.expectsize ∧
      c.iCurFrameIndex + st.expectsize ≤ c.pBuffer.length) := by
  obtain ⟨hloop, hpos, hbehind, hend⟩ := h
  obtain ⟨st, hst⟩ := exists_decoded 32 hpos
  obtain ⟨_, hsum, hexp⟩ := decoded_sizes hst
  have hfit : addSize 32 st.expectsize c.iCurFrameIndex ≤ c.pBuffer.length := by
    rw [hexp, addSize_mod]
    exact hend
  obtain ⟨d, hd⟩ := exists_accepts hloop hst hfit
  refine ⟨st, d, hd, fun ⟨hoff, hin⟩ => ?_⟩
  omega

theorem scanStep_stops (hS : Scanned c fs rest) (hnone : frameUnits.size rest = none)
    (hno : ¬EndWraps c.pBuffer junk c.iCurFrameIndex) : ∃ e, scanStep 32 junk c = .inr e ∧ StopsAt c e := by
  have hlen := hS.length_eq
  unfold scanStep
  by_cases hloop : addSize 32 wsMinMsgExpectLen c.iCurFrameIndex ≤ c.pBuffer.length
  · rw [if_pos hloop]
    dsimp only
    cases hst : tryDecodeLen 32 fun i => memory c.pBuffer junk (c.iCurFrameIndex + i) with
    | none => exact ⟨_, rfl, Or.inr (Or.inl rfl)⟩
    | some st =>
      obtain ⟨hpos, _, hexp⟩ := decoded_sizes hst
      have hbehind : c.pBuffer.length < c.iCurFrameIndex +
          frameSize fun i => memory c.pBuffer junk (c.iCurFrameIndex + i) := by
        have hinc := mt (completeIn_memory rest fun i => junk (c.iCurFrameIndex + i)).mp (size_eq_none.mp hnone)
        rw [← hS.header junk] at hinc
        by_contra hin
        exact hinc ⟨hpos, by omega⟩
      have hfit : ¬addSize 32 st.expectsize c.iCurFrameIndex ≤ c.pBuffer.length := by
        rw [hexp, addSize_mod]
        exact fun hend => hno ⟨hloop, hpos, hbehind, hend⟩
      dsimp only
      rw [if_neg hfit]
      exact ⟨_, rfl, Or.inr (Or.inr ⟨_, rfl⟩)⟩
  · rw [if_neg hloop]
    exact ⟨_, rfl, Or.inl rfl⟩

/-! ## The scan of a call -/

theorem NarrowInv.accepted (h : NarrowInv c fs rest) (ho : StartsOpen rest ks t) :
    NarrowInv (c.acceptAll ks) (fs ++ ks) t where
  scanned := h.scanned.acceptOpen ho
  below := (acceptAll_pBuffer c ks).symm ▸ h.below
  clashed hc := (h.clashed ((acceptAll_iComplete c ks).symm.trans hc)).append ks

theorem NarrowInv.not_endWraps (h : NarrowInv c fs rest) (hno : ¬WrapsInto junk c) (ho : StartsOpen rest ks t) :
    ¬EndWraps (c.acceptAll ks).pBuffer junk (c.acceptAll ks).iCurFrameIndex := by
  rw [acceptAll_pBuffer, acceptAll_iCurFrameIndex]
  exact fun hw => hno ⟨ks, t, h.scanned.rest_eq ▸ ho, hw⟩

theorem StartsOpen.of_concat (h : StartsOpen rest (ks ++ [u]) t) :
    StartsOpen rest ks (u ++ t) ∧ frameUnits.Whole u ∧ isFin u = false := by
  obtain ⟨rfl, hw, ho⟩ := h
  obtain ⟨hwk, hwu⟩ := List.forall_mem_append.mp hw
  obtain ⟨hok, hou⟩ := List.forall_mem_append.mp ho
  exact ⟨⟨by simp, hwk, hok⟩, hwu u (List.mem_singleton_self u), hou u (List.mem_singleton_self u)⟩

/-- The scan comes to every row of whole frames without FIN. -/
theorem NarrowInv.scans (h : NarrowInv c fs rest) (ho : StartsOpen rest ks t) (junk : ℕ → UInt8) :
    Scans 32 junk c (headers ks) (c.acceptAll ks) := by
  induction ks using List.reverseRecOn generalizing t with
  | nil => exact .start
  | append_singleton ks u ih =>
    obtain ⟨hk, hu, hfin⟩ := ho.of_concat
    have hacc := h.accepted hk
    rw [headers_append, acceptAll_append]
    exact .next (ih hk) (hacc.scanned.tryDecodeLen hacc.below hu junk)
      (scanStep_open hacc.scanned hacc.below hu hfin junk)

/-- Without a wrapping end it comes to nothing else. -/
theorem NarrowInv.of_scans (h : NarrowInv c fs rest) (hno : ¬WrapsInto junk c) (hs : Scans 32 junk c sts d) :
    ∃ ks t, StartsOpen rest ks t ∧ d = c.acceptAll ks ∧ sts = headers ks := by
  induction hs with
  | start => exact ⟨[], rest, startsOpen_nil rest, rfl, rfl⟩
  | @next sts st d e _ hst hstep ih =>
    obtain ⟨ks, t, ho, rfl, rfl⟩ := ih
    have hacc := h.accepted ho
    cases ht : frameUnits.size t with
    | none =>
      obtain ⟨e', he', _⟩ := scanStep_stops hacc.scanned ht (h.not_endWraps hno ho)
      rw [he'] at hstep
      cases hstep
    | some n =>
      obtain ⟨u, t', rfl, hu, _⟩ := frameUnits.exists_whole_of_size ht
      rw [hacc.scanned.tryDecodeLen hacc.below hu junk] at hst
      rw [scanStep_whole hacc.scanned hacc.below hu] at hstep
      split at hstep
      · cases hstep
      · rename_i hfin
        refine ⟨ks ++ [u], t', ho.concat hu (Bool.eq_false_iff.mpr hfin), ?_, ?_⟩
        · rw [acceptAll_append]
          exact (Sum.inl.inj hstep).symm
        · rw [headers_append, ← Option.some.inj hst]
          rfl

theorem NarrowInv.exactFrame (h : NarrowInv c fs rest) (hno : ¬WrapsInto junk c) (hs : Scans 32 junk c sts d)
    (ha : AcceptsHeader 32 junk d st c') : ExactFrame c d c' sts st := by
  obtain ⟨ks, t, ho, rfl, rfl⟩ := h.of_scans hno hs
  obtain ⟨hst, hleft⟩ := ha
  have hacc := h.accepted ho
  cases ht : frameUnits.size t with
  | none =>
    obtain ⟨e, he, hstop⟩ := scanStep_stops hacc.scanned ht (h.not_endWraps hno ho)
    rw [he] at hleft
    rcases hstop with rfl | rfl | ⟨n, rfl⟩ <;> simp at hleft
  | some n =>
    obtain ⟨u, t', rfl, hu, _⟩ := frameUnits.exists_whole_of_size ht
    have hlen := hacc.scanned.length_eq
    rw [hacc.scanned.tryDecodeLen hacc.below hu junk] at hst
    obtain rfl := Option.some.inj hst
    have htotal : c'.iTotalFrameLen = (c.acceptAll ks).iTotalFrameLen + payloadLen u := by
      rw [scanStep_whole hacc.scanned hacc.below hu] at hleft
      split at hleft
      · rcases hleft with hleft | hleft
        · cases hleft
        · cases hleft
          rfl
      · rcases hleft with hleft | hleft
        · cases hleft
          rfl
        · cases hleft
    have hexp : (frameOf (bytesOf u)).expectsize = u.length := (whole_iff.mp hu).2
    rw [List.length_append] at hlen
    refine ⟨le_of_eq rfl, by rw [hexp]; omega, ?_⟩
    rw [htotal, hacc.scanned.total, h.scanned.total, List.map_append, List.map_append, List.sum_append, List.sum_append,
      sum_payloadLength]
    simp [frameOf, payloadLen, Nat.add_assoc]

/-- How the scan of a call is left. -/
inductive ScanLeft (c : WsMsgCache) (rest : List UInt8) (e : ScanExit) : Prop
  | fin (ks : List (List UInt8)) (t : List UInt8) (hrest : rest = ks.flatten ++ t)
      (hks : ∀ u ∈ ks, frameUnits.Whole u) (hg : Group isFin ks)
      (he : e = .leave 1 { c.acceptAll ks with iComplete := true })
  | stop (ks : List (List UInt8)) (t : List UInt8) (ho : StartsOpen rest ks t) (he : StopsAt (c.acceptAll ks) e)

theorem NarrowInv.run_scan (h : NarrowInv c fs rest) (hno : ¬WrapsInto junk c) :
    ∃ e, Iteration.run (scanStep 32 junk) (callFuel c) c = some e ∧ ScanLeft c rest e := by
  have hS := h.scanned
  obtain ⟨ks, t, hrest, hks, hg | ⟨hopen, hnone⟩⟩ := exists_scan rest
  · have hlt := (Scanned.length_lt_fuel (hrest ▸ hS) hks le_rfl).2.1
    exact ⟨_, run_scan_group (hrest ▸ hS) h.below hks hg hlt.le, .fin ks t hrest hks hg rfl⟩
  · have ho : StartsOpen rest ks t := ⟨hrest, hks, hopen⟩
    have hlt := (Scanned.length_lt_fuel (hrest ▸ hS) hks le_rfl).2.1
    obtain ⟨n, hn⟩ : ∃ n, callFuel c = ks.length + (n + 1) := ⟨callFuel c - (ks.length + 1), by omega⟩
    obtain ⟨e, he, hstop⟩ := scanStep_stops (h.accepted ho).scanned hnone (h.not_endWraps hno ho)
    refine ⟨e, ?_, .stop ks t ho hstop⟩
    rw [hn, run_scan_acceptAll (hrest ▸ hS) h.below hks hopen]
    exact Iteration.run_exit he n

theorem NarrowInv.stopsAt (h : NarrowInv c fs rest) (hs : StopsAt c e) :
    NarrowInv e.cache fs rest ∧ e.cache.iComplete = c.iComplete := by
  rcases hs with rfl | rfl | ⟨n, rfl⟩
  · exact ⟨h, rfl⟩
  · exact ⟨h, rfl⟩
  · exact ⟨⟨h.scanned.remember n, h.below, h.clashed⟩, rfl⟩

/-- The cursor of the cache that the scan leaves stands behind whole frames. -/
theorem NarrowInv.left (h : NarrowInv c fs rest) (hl : ScanLeft c rest e) :
    ∃ gs t, Scanned e.cache gs t ∧ e.cache.pBuffer.length < 2 ^ 32 := by
  cases hl with
  | fin ks t hrest hks hg he =>
    subst he hrest
    exact ⟨fs ++ ks, t, (h.scanned.acceptAll hks).complete, (acceptAll_pBuffer c ks).symm ▸ h.below⟩
  | stop ks t ho he =>
    obtain ⟨hleft, _⟩ := (h.accepted ho).stopsAt he
    exact ⟨fs ++ ks, t, hleft.scanned, hleft.below⟩

/-! ## Calls and runs -/

theorem AtFrame.sliceInside (hS : Scanned c fs rest) (hw : c.pBuffer.length < 2 ^ w) (h : AtFrame fs r)
    (hlt : r.iOffset < c.iCurFrameIndex) : SliceInside w junk c r := by
  intro st hst
  obtain ⟨before, u, after, hu⟩ := h.next hS hw hlt junk
  obtain rfl := Option.some.inj (hu.header.symm.trans hst)
  have harrived := hu.arrived
  have hfill := h.filled
  have hsize : (frameOf (bytesOf u)).payloadOffset + (frameOf (bytesOf u)).payloadLength = u.length :=
    (whole_iff.mp hu.whole).2
  rw [List.length_append, length_slice]
  exact ⟨by omega, by omega⟩

theorem NarrowInv.exactSizes (h : NarrowInv c fs rest) (hno : ¬WrapsInto junk c) : ExactSizes junk c where
  frames _ _ _ _ hs ha := h.exactFrame hno hs ha
  slices fuel iRet d r hrun _ hv hlt := by
    obtain ⟨e, he, hl⟩ := h.run_scan hno
    obtain rfl := Iteration.run_unique hrun he
    obtain ⟨gs, t, hS, hw⟩ := h.left hl
    have hat := Iteration.visits_invariant (AtFrame gs) (fun _ _ hi hs => hi.step hS hw hs) (atFrame_start _) hv
    exact hat.sliceInside hS hw hlt

theorem sizesExact_iff (h : NarrowInv c fs rest) (a : CacheAct) : c.SizesExact a ↔ c.NoWrap a := by
  cases a with
  | append chunk => exact Iff.rfl
  | decode junk =>
    constructor
    · intro hexact
      by_contra hnot
      obtain ⟨hgo, hwraps⟩ := not_or.mp hnot
      obtain ⟨ks, t, ho, hend⟩ := not_not.mp hwraps
      rw [← h.scanned.rest_eq] at ho
      rw [← acceptAll_iCurFrameIndex, ← acceptAll_pBuffer c ks] at hend
      obtain ⟨st, d, hd, hbad⟩ := exists_accepts_of_wraps hend
      have hframe := (hexact hgo).frames _ _ _ _ (h.scans ho junk) hd
      exact hbad ⟨hframe.offset_le, hframe.arrived⟩
    · intro hno hgo
      exact h.exactSizes (hno.resolve_left hgo)

theorem narrowInv_fresh (h : rest.length < 2 ^ 32) : NarrowInv (.fresh rest) [] rest where
  scanned := scanned_fresh (h.trans (by decide))
  below := h
  clashed := by simp [WsMsgCache.fresh]

/-- A call without a wrapping end leaves the cursor behind whole frames. -/
theorem NarrowInv.call (h : NarrowInv c fs rest) (hno : c.NoWrap (.decode junk)) {ret : DecodeRet}
    (hret : decodeMsg 32 (callFuel c) junk c none = some ret) : ∃ fs' rest', NarrowInv ret.pMsgCache fs' rest' := by
  rcases hno with hgo | hno
  · rw [decodeMsg_turnedAway hgo] at hret
    cases hret
    exact ⟨fs, rest, h⟩
  by_cases hgo : TurnedAway 32 c
  · rw [decodeMsg_turnedAway hgo] at hret
    cases hret
    exact ⟨fs, rest, h⟩
  obtain ⟨e, he, hl⟩ := h.run_scan hno
  cases hl with
  | fin ks t hrest hks hg hfin =>
    subst hrest
    rw [decodeMsg_group h.scanned h.below hks hg hgo le_rfl] at hret
    have hlen := (h.scanned.acceptAll hks).length_eq
    have hbelow := (acceptAll_pBuffer c ks).symm ▸ h.below
    by_cases hclash : Clash (fs ++ ks)
    · rw [assemble_empty_of_clash hclash] at hret
      cases hret
      exact ⟨fs ++ ks, t, (h.scanned.acceptAll hks).complete, hbelow, fun _ => hclash⟩
    · rw [assemble_empty_of_not_clash hclash] at hret
      cases hret
      exact ⟨[], t, narrowInv_fresh (by omega)⟩
  | stop ks t ho hstop =>
    obtain ⟨hleft, hcomplete⟩ := (h.accepted ho).stopsAt hstop
    refine ⟨fs ++ ks, t, ?_⟩
    unfold TurnedAway at hgo
    unfold decodeMsg at hret
    rw [if_neg hgo, he] at hret
    cases e with
    | assertFailed c' =>
      cases hret
      exact hleft
    | leave iRet c' =>
      dsimp only [ScanExit.cache] at hleft hret
      split at hret
      · rename_i hc
        have hclash := hleft.clashed hc
        have hlen : (fs ++ ks).length < callFuel c := by
          have hall := (Scanned.length_lt_fuel (ho.rest_eq ▸ h.scanned) ho.whole le_rfl).2.2
          exact hall
        rw [reassemble_eq hleft.scanned hleft.below hclash.ne_nil hlen, assemble_empty_of_clash hclash] at hret
        cases hret
        exact hleft
      · cases hret
        exact hleft

/-- In a run of a 32-bit build all sizes are exact exactly when no call that goes
past its first test comes to a frame whose end wraps around into the used bytes. -/
theorem sizesExact_run_iff (acts : List CacheAct) :
    Machine.EachStep WsMsgCache.narrowStep WsMsgCache.SizesExact (.fresh []) acts ↔
      Machine.EachStep WsMsgCache.narrowStep WsMsgCache.NoWrap (.fresh []) acts := by
  have hpoint : ∀ c a, (∃ fs rest, NarrowInv c fs rest) → (c.SizesExact a ↔ c.NoWrap a) := by
    rintro c a ⟨fs, rest, h⟩
    exact sizesExact_iff h a
  refine Machine.eachStep_congr _ hpoint ?_ ⟨[], [], narrowInv_fresh (Nat.two_pow_pos 32)⟩ acts
  rintro c a c' ⟨fs, rest, h⟩ hexact hs
  cases a with
  | append chunk =>
    obtain ⟨hlen, he⟩ := Option.ite_none_right_eq_some.mp hs
    have hsmall : c.pBuffer.length + chunk.length < 2 ^ 63 := hlen.trans (by decide)
    have hS := h.scanned
    refine Option.some.inj he ▸ ⟨fs, rest ++ chunk, ⟨?_, hS.whole, hS.index, hS.total, ?_⟩, ?_, h.clashed⟩
    · simp [WsMsgCache.append, hS.buffer]
    · simpa [WsMsgCache.append] using hsmall
    · simpa [WsMsgCache.append] using hlen
  | decode junk =>
    obtain ⟨ret, hret, rfl⟩ := Option.map_eq_some_iff.mp hs
    exact h.call ((sizesExact_iff h _).mp hexact) hret

/-- A header of ten bytes with the length 2^32 - 1: its frame counts as nine bytes. -/
theorem hugeFrame_wraps :
    ¬Machine.EachStep WsMsgCache.narrowStep WsMsgCache.SizesExact (.fresh [])
      [.append [0x81, 0x7f, 0, 0, 0, 0, 0xff, 0xff, 0xff, 0xff], .decode fun _ => 0] := by
  intro h
  have hcall := h [.append [0x81, 0x7f, 0, 0, 0, 0, 0xff, 0xff, 0xff, 0xff]] (.decode fun _ => 0) []
    (.fresh [0x81, 0x7f, 0, 0, 0, 0, 0xff, 0xff, 0xff, 0xff]) rfl rfl
  have haccepts : AcceptsHeader 32 (fun _ => 0) (.fresh [0x81, 0x7f, 0, 0, 0, 0, 0xff, 0xff, 0xff, 0xff])
      ⟨1, 10, false, 4294967295, 9⟩
      ⟨[0x81, 0x7f, 0, 0, 0, 0, 0xff, 0xff, 0xff, 0xff], 9, 0, 4294967295, true⟩ := ⟨by decide, Or.inr (by decide)⟩
  have hframe := (hcall (by decide)).frames [] _ _ _ .start haccepts
  exact absurd hframe.offset_le (by decide)

end SrWebSocket
