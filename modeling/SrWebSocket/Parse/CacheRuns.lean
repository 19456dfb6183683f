import SrWebSocket.General.Machine
import SrWebSocket.Parse.CallCases

/-! # Runs of appends and calls

Whatever bytes arrive and whatever lies behind them in memory, every call returns
and the cursor stays behind whole frames. As long as `iComplete` is not set these
have no FIN bit; once it is set between calls, the first group of frames in the
buffer clashes.
-/
namespace SrWebSocket

inductive CacheAct where
  | append (chunk : List UInt8)
  | decode (junk : ℕ → UInt8)

/-- `*pWsMsg` is NULL at each call. No buffer outgrows half of the 64-bit address space. -/
def WsMsgCache.step (c : WsMsgCache) : CacheAct → Option WsMsgCache
  | .append chunk => if c.pBuffer.length + chunk.length < 2 ^ 63 then some (c.append chunk) else none
  | .decode junk => (decodeMsg 64 (callFuel c) junk c none).map fun ret => ret.pMsgCache

/-- The first FIN bit of the row ends a group with two different opcodes. -/
def ClashFirst (fs : List (List UInt8)) : Prop := ∃ g ws, fs = g ++ ws ∧ Group isFin g ∧ Clash g

/-- What holds of a cache in a run. -/
structure RunInv (c : WsMsgCache) (fs : List (List UInt8)) (rest : List UInt8) : Prop
    extends CacheInv c fs rest where
  opened : c.iComplete = false → ∀ u ∈ fs, isFin u = false
  closed : c.iComplete = true → ClashFirst fs

variable {c c' : WsMsgCache} {fs gs ks : List (List UInt8)} {rest t chunk : List UInt8} {junk : ℕ → UInt8}
  {ret : DecodeRet} {acts : List CacheAct}

theorem ClashFirst.append (h : ClashFirst fs) (ks : List (List UInt8)) : ClashFirst (fs ++ ks) := by
  obtain ⟨g, ws, rfl, hg, hc⟩ := h
  exact ⟨g, ws ++ ks, List.append_assoc _ _ _, hg, hc⟩

theorem runInv_fresh (h : rest.length < 2 ^ 63) : RunInv (.fresh rest) [] rest where
  toCacheInv := cacheInv_fresh h
  opened := by simp
  closed := by simp [WsMsgCache.fresh]

theorem RunInv.append (h : RunInv c fs rest) (hlen : c.pBuffer.length + chunk.length < 2 ^ 63) :
    RunInv (c.append chunk) fs (rest ++ chunk) where
  toCacheInv := h.toCacheInv.append hlen
  opened := h.opened
  closed := h.closed

theorem RunInv.acceptAll (h : RunInv c fs (ks.flatten ++ t)) (hks : ∀ u ∈ ks, frameUnits.Whole u)
    (ho : ∀ u ∈ ks, isFin u = false) : RunInv (c.acceptAll ks) (fs ++ ks) t where
  toCacheInv := h.toCacheInv.acceptAll hks
  opened hc := List.forall_mem_append.mpr ⟨h.opened ((acceptAll_iComplete c ks).symm.trans hc), ho⟩
  closed hc := (h.closed ((acceptAll_iComplete c ks).symm.trans hc)).append ks

theorem RunInv.scanStop (h : RunInv c fs rest) (junk : ℕ → UInt8) : RunInv (scanStop junk c).cache fs rest := by
  obtain ⟨_, _, hc⟩ := scanned_scanStop h.scanned h.remembered junk
  exact ⟨h.toCacheInv.scanStop junk, fun hf => h.opened (hc ▸ hf), fun ht => h.closed (hc ▸ ht)⟩

/-- When the frames up to the next FIN bit clash, so does the first group of the buffer. -/
theorem RunInv.clashFirst (h : RunInv c fs rest) (hg : Group isFin ks) (hclash : Clash (fs ++ ks)) :
    ClashFirst (fs ++ ks) := by
  cases hc : c.iComplete with
  | false => exact ⟨fs ++ ks, [], (List.append_nil _).symm, Group.append_open (h.opened hc) hg, hclash⟩
  | true => exact (h.closed hc).append ks

/-- The frames `ks` over which the scan of a call moves the cursor, and what is behind them. -/
structure Passes (c : WsMsgCache) (rest : List UInt8) (ks : List (List UInt8)) (t : List UInt8) : Prop where
  rest_eq : rest = ks.flatten ++ t
  whole : ∀ u ∈ ks, frameUnits.Whole u
  stop : Stalled c ∧ ks = [] ∨
    ¬Stalled c ∧ (Group isFin ks ∨ (∀ u ∈ ks, isFin u = false) ∧ frameUnits.size t = none)

theorem exists_passes (c : WsMsgCache) (rest : List UInt8) : ∃ (ks : List (List UInt8)) (t : List UInt8), Passes c rest ks t := by
  by_cases hst : Stalled c
  · exact ⟨[], rest, rfl, by simp, Or.inl ⟨hst, rfl⟩⟩
  · obtain ⟨ks, t, he, hks, hend⟩ := exists_scan rest
    exact ⟨ks, t, he, hks, Or.inr ⟨hst, hend⟩⟩

/-- A call takes a message out of the buffer, or only moves the cursor. -/
theorem RunInv.next (h : RunInv c fs rest) (hret : CallResult c fs rest junk ret) :
    ∃ (ks : List (List UInt8)) (t : List UInt8), Passes c rest ks t ∧
      (RunInv ret.pMsgCache [] t ∧ ret.pMsgCache.pBuffer.length < c.pBuffer.length ∨
        RunInv ret.pMsgCache (fs ++ ks) t ∧ ret.pMsgCache.pBuffer = c.pBuffer) := by
  cases hret with
  | stalled hst he =>
    subst he
    exact ⟨[], rest, ⟨rfl, by simp, Or.inl ⟨hst, rfl⟩⟩, Or.inr ⟨by simpa using h, rfl⟩⟩
  | message hst ks t hrest hks hg hno he =>
    subst he hrest
    have hlen := h.scanned.length_eq
    have hpos := flatten_length_ge hks
    have hne := List.length_pos_iff.mpr hg.ne_nil
    rw [List.length_append] at hlen
    refine ⟨ks, t, ⟨rfl, hks, Or.inr ⟨hst, Or.inl hg⟩⟩, Or.inl ⟨runInv_fresh h.scanned.length_rest_lt, ?_⟩⟩
    change t.length < c.pBuffer.length
    omega
  | clash hst ks t hrest hks hg hc he =>
    subst he hrest
    have hacc := h.toCacheInv.acceptAll hks
    exact ⟨ks, t, ⟨rfl, hks, Or.inr ⟨hst, Or.inl hg⟩⟩,
      Or.inr ⟨⟨⟨hacc.scanned.complete, hacc.remembered, fun _ => hc⟩, by simp, fun _ => h.clashFirst hg hc⟩,
        acceptAll_pBuffer c ks⟩⟩
  | waiting hst ks t hrest hks ho hnone hcomplete he =>
    subst he hrest
    exact ⟨ks, t, ⟨rfl, hks, Or.inr ⟨hst, Or.inr ⟨ho, hnone⟩⟩⟩,
      Or.inr ⟨(h.acceptAll hks ho).scanStop junk, (scanStop_pBuffer junk _).trans (acceptAll_pBuffer c ks)⟩⟩
  | again hst ks t hrest hks ho hnone hcomplete he =>
    subst he hrest
    refine ⟨ks, t, ⟨rfl, hks, Or.inr ⟨hst, Or.inr ⟨ho, hnone⟩⟩⟩, Or.inr ?_⟩
    rw [clashedRet_pMsgCache]
    exact ⟨(h.acceptAll hks ho).scanStop junk, (scanStop_pBuffer junk _).trans (acceptAll_pBuffer c ks)⟩

theorem RunInv.step_decode (h : RunInv c fs rest) (hs : c.step (.decode junk) = some c') :
    ∃ ret, decodeMsg 64 (callFuel c) junk c none = some ret ∧ CallResult c fs rest junk ret ∧ c' = ret.pMsgCache := by
  obtain ⟨ret, hcall, hret⟩ := h.result junk
  obtain ⟨ret', hcall', rfl⟩ := Option.map_eq_some_iff.mp hs
  obtain rfl := Option.some.inj (hcall.symm.trans hcall')
  exact ⟨ret, hcall, hret, rfl⟩

theorem RunInv.step (h : RunInv c fs rest) {a : CacheAct} (hs : c.step a = some c') :
    ∃ fs' rest', RunInv c' fs' rest' := by
  cases a with
  | append chunk =>
    obtain ⟨hlen, he⟩ := Option.ite_none_right_eq_some.mp hs
    exact ⟨fs, rest ++ chunk, Option.some.inj he ▸ h.append hlen⟩
  | decode junk =>
    obtain ⟨ret, _, hret, rfl⟩ := h.step_decode hs
    obtain ⟨ks, t, _, ⟨hnext, _⟩ | ⟨hnext, _⟩⟩ := h.next hret
    · exact ⟨_, _, hnext⟩
    · exact ⟨_, _, hnext⟩

theorem runInv_exec (h : Machine.exec WsMsgCache.step (.fresh []) acts = some c) : ∃ fs rest, RunInv c fs rest :=
  Machine.exec_invariant (fun c => ∃ fs rest, RunInv c fs rest) (fun _ _ _ ⟨_, _, hi⟩ hs => hi.step hs)
    ⟨[], [], runInv_fresh (Nat.two_pow_pos 63)⟩ h

end SrWebSocket
