import SrWebSocket.General.Machine
import SrWebSocket.Parse.CallCases

/-! # The receive loop of a connected client

`ProcMsg` moves received bytes into the cache and `ParseMsg` then calls
`DecodeMsg` until it returns 0, handing out a message after each other return.
One action of this machine is one arrival of bytes or one call of `DecodeMsg`;
each call finds its own memory behind the used bytes. What the handlers do with a
message does not reach the cache and is left to the connection.
-/
namespace SrWebSocket

/-- The decoding state of a `CWsInput` in `WS_STATE_CONNECT`. -/
structure Receiver where
  mstMsgCache : WsMsgCache
  mpMsg : Option WsMsg
  /-- inside the loop of `ParseMsg` -/
  parsing : Bool
  /-- the messages handed out so far -/
  delivered : List WsMsg

def Receiver.start : Receiver where
  mstMsgCache := .fresh []
  mpMsg := none
  parsing := false
  delivered := []

inductive RecvAct where
  | recv (chunk : List UInt8)
  | decode (junk : ℕ → UInt8)

/-- The state after a call of `DecodeMsg` in the loop of `ParseMsg`. -/
def Receiver.afterCall (r : Receiver) (ret : DecodeRet) : Receiver :=
  if ret.iRet = 0 then { r with mstMsgCache := ret.pMsgCache, mpMsg := ret.pWsMsg, parsing := false }
  else { r with mstMsgCache := ret.pMsgCache, mpMsg := none, delivered := r.delivered ++ ret.pWsMsg.toList }

/-- No buffer outgrows half of the 64-bit address space. -/
def Receiver.step (r : Receiver) : RecvAct → Option Receiver
  | .recv chunk =>
    if r.parsing = false ∧ r.mstMsgCache.pBuffer.length + chunk.length < 2 ^ 63 then
      let cache := r.mstMsgCache.append chunk
      some { r with mstMsgCache := cache, parsing := decide (0 < cache.pBuffer.length) }
    else none
  | .decode junk =>
    if r.parsing then
      (decodeMsg 64 (callFuel r.mstMsgCache) junk r.mstMsgCache r.mpMsg).map r.afterCall
    else none

def received : List RecvAct → List (List UInt8)
  | [] => []
  | .recv chunk :: acts => chunk :: received acts
  | .decode _ :: acts => received acts

@[simp] theorem received_append (as bs : List RecvAct) : received (as ++ bs) = received as ++ received bs := by
  induction as with
  | nil => rfl
  | cons a as ih => cases a <;> simp [received, ih]

/-! ## Streams of groups -/

structure FrameGroup (g : List (List UInt8)) : Prop where
  whole : ∀ u ∈ g, frameUnits.Whole u
  group : Group isFin g

/-- Some complete group of the stream holds frames of two different messages. -/
def Conflict (P : List UInt8) : Prop :=
  ∃ (gs : List (List (List UInt8))) (g : List (List UInt8)) (t : List UInt8),
    P = gs.flatten.flatten ++ (g.flatten ++ t) ∧ (∀ h ∈ gs, FrameGroup h) ∧ FrameGroup g ∧ Clash g

theorem Conflict.append {P : List UInt8} (h : Conflict P) (Q : List UInt8) : Conflict (P ++ Q) := by
  obtain ⟨gs, g, t, rfl, hgs, hg, hc⟩ := h
  exact ⟨gs, g, t ++ Q, by simp, hgs, hg, hc⟩

/-- A receiver that has been sent `P`: it has handed out the messages of the
groups `gs`, its cursor stands behind the frames `fs`, and `rest` follows. -/
structure Tracks (P : List UInt8) (r : Receiver) (gs : List (List (List UInt8))) (fs : List (List UInt8))
    (rest : List UInt8) : Prop where
  stream : P = gs.flatten.flatten ++ (fs.flatten ++ rest)
  groups : ∀ g ∈ gs, FrameGroup g ∧ ¬Clash g
  delivered : r.delivered = gs.map messageOf
  scanned : Scanned r.mstMsgCache fs rest
  opened : ∀ u ∈ fs, isFin u = false
  complete : r.mstMsgCache.iComplete = false
  remembered : r.mstMsgCache.iCurFrameLen < 2 ^ 33
  pending : r.mpMsg = none

variable {P : List UInt8} {r r' : Receiver} {gs : List (List (List UInt8))} {fs ks : List (List UInt8)}
  {rest t chunk : List UInt8} {junk : ℕ → UInt8}

theorem tracks_start : Tracks [] .start [] [] [] where
  stream := rfl
  groups := by simp
  delivered := rfl
  scanned := scanned_fresh (Nat.two_pow_pos 63)
  opened := by simp
  complete := rfl
  remembered := Nat.two_pow_pos 33
  pending := rfl

theorem step_recv_eq_some :
    r.step (.recv chunk) = some r' ↔
      (r.parsing = false ∧ r.mstMsgCache.pBuffer.length + chunk.length < 2 ^ 63) ∧
      r' = { r with
        mstMsgCache := r.mstMsgCache.append chunk
        parsing := decide (0 < (r.mstMsgCache.append chunk).pBuffer.length) } := by
  refine Option.ite_none_right_eq_some.trans (and_congr_right fun _ => ?_)
  rw [Option.some.injEq, eq_comm]

theorem Tracks.recv (h : Tracks P r gs fs rest) (he : r.step (.recv chunk) = some r') :
    Tracks (P ++ chunk) r' gs fs (rest ++ chunk) := by
  obtain ⟨⟨_, hsmall⟩, rfl⟩ := step_recv_eq_some.mp he
  have hS := h.scanned
  refine ⟨by simp [h.stream], h.groups, h.delivered, ⟨?_, hS.whole, hS.index, hS.total, ?_⟩,
    h.opened, h.complete, h.remembered, h.pending⟩
  · simp [WsMsgCache.append, hS.buffer]
  · simpa [WsMsgCache.append] using hsmall

theorem Tracks.cacheInv (h : Tracks P r gs fs rest) : CacheInv r.mstMsgCache fs rest where
  scanned := h.scanned
  remembered := h.remembered
  clashed hc := absurd (h.complete.symm.trans hc) (by simp)

/-- Neither the loop's position nor a stalled call matters to what was sent. -/
theorem Tracks.idle (h : Tracks P r gs fs rest) : Tracks P { r with parsing := false } gs fs rest :=
  ⟨h.stream, h.groups, h.delivered, h.scanned, h.opened, h.complete, h.remembered, h.pending⟩

/-- The outcomes of one call in the loop, for a receiver that has met no conflict. -/
inductive CallOutcome (P : List UInt8) (r : Receiver) (gs : List (List (List UInt8))) (fs : List (List UInt8))
    (rest : List UInt8) (junk : ℕ → UInt8) (r' : Receiver) : Prop
  | stalled (hst : Stalled r.mstMsgCache) (he : r' = { r with parsing := false })
  | message (hst : ¬Stalled r.mstMsgCache) (ks : List (List UInt8)) (t : List UInt8)
      (hrest : rest = ks.flatten ++ t) (hks : ∀ u ∈ ks, frameUnits.Whole u) (hg : Group isFin ks)
      (he : r' = { r with mstMsgCache := .fresh t, delivered := r.delivered ++ [messageOf (fs ++ ks)] })
      (ht : Tracks P r' (gs ++ [fs ++ ks]) [] t)
  | clash (hst : ¬Stalled r.mstMsgCache) (ks : List (List UInt8)) (t : List UInt8)
      (hrest : rest = ks.flatten ++ t) (hg : FrameGroup (fs ++ ks)) (hc : Clash (fs ++ ks))
      (he : r' = { r with
        mstMsgCache := { r.mstMsgCache.acceptAll ks with iComplete := true }
        delivered := r.delivered ++ [messageOf (fs ++ ks)] })
  | waiting (hst : ¬Stalled r.mstMsgCache) (ks : List (List UInt8)) (t : List UInt8)
      (hrest : rest = ks.flatten ++ t) (hks : ∀ u ∈ ks, frameUnits.Whole u) (ho : ∀ u ∈ ks, isFin u = false)
      (hnone : frameUnits.size t = none)
      (he : r' = { r with
        mstMsgCache := (scanStop junk (r.mstMsgCache.acceptAll ks)).cache
        parsing := false })
      (ht : Tracks P r' gs (fs ++ ks) t)

theorem step_decode (hp : r.parsing = true) {ret : DecodeRet}
    (h : decodeMsg 64 (callFuel r.mstMsgCache) junk r.mstMsgCache r.mpMsg = some ret) :
    r.step (.decode junk) = some (r.afterCall ret) := by simp [Receiver.step, hp, h]

theorem Tracks.decode_stalled (h : Tracks P r gs fs rest) (hp : r.parsing = true) (hst : Stalled r.mstMsgCache)
    (junk : ℕ → UInt8) : r.step (.decode junk) = some { r with parsing := false } := by
  have hsmall := h.scanned.small
  have hlen := h.scanned.length_eq
  have hrem := h.remembered
  exact step_decode hp (decodeMsg_stalled (by omega) hst (callFuel r.mstMsgCache) junk r.mpMsg)

theorem Tracks.scanStop (h : Tracks P r gs fs (ks.flatten ++ t)) (hks : ∀ u ∈ ks, frameUnits.Whole u)
    (ho : ∀ u ∈ ks, isFin u = false) (junk : ℕ → UInt8) :
    Tracks P { r with
      mstMsgCache := (scanStop junk (r.mstMsgCache.acceptAll ks)).cache
      parsing := false } gs (fs ++ ks) t := by
  have hacc := h.cacheInv.acceptAll hks
  obtain ⟨hS, hl, hc⟩ := scanned_scanStop hacc.scanned hacc.remembered junk
  exact ⟨by simp [h.stream], h.groups, h.delivered, hS, List.forall_mem_append.mpr ⟨h.opened, ho⟩,
    hc.trans ((acceptAll_iComplete _ _).trans h.complete), hl, h.pending⟩

theorem Tracks.decode_open (h : Tracks P r gs fs (ks.flatten ++ t)) (hp : r.parsing = true)
    (hks : ∀ u ∈ ks, frameUnits.Whole u) (ho : ∀ u ∈ ks, isFin u = false) (hnone : frameUnits.size t = none)
    (hst : ¬Stalled r.mstMsgCache) (junk : ℕ → UInt8) :
    r.step (.decode junk) = some { r with
      mstMsgCache := (SrWebSocket.scanStop junk (r.mstMsgCache.acceptAll ks)).cache
      parsing := false } := by
  have hcall := decodeMsg_open h.scanned hks ho hnone h.complete (not_turnedAway (Nat.le_of_not_lt hst)) le_rfl junk
  rw [← h.pending] at hcall
  exact step_decode hp hcall

/-- Every call returns, with one of these outcomes. -/
theorem Tracks.decode (h : Tracks P r gs fs rest) (hp : r.parsing = true) (junk : ℕ → UInt8) :
    ∃ r', r.step (.decode junk) = some r' ∧ CallOutcome P r gs fs rest junk r' := by
  have hopen {ks : List (List UInt8)} (hks : ∀ u ∈ ks, frameUnits.Whole u) (hg : Group isFin ks) : FrameGroup (fs ++ ks) :=
    ⟨List.forall_mem_append.mpr ⟨h.scanned.whole, hks⟩, Group.append_open h.opened hg⟩
  obtain ⟨ret, hcall, hret⟩ := h.cacheInv.result junk
  rw [← h.pending] at hcall
  have hstep := step_decode hp hcall
  cases hret with
  | stalled hst he => exact ⟨_, h.decode_stalled hp hst junk, .stalled hst rfl⟩
  | message hst ks t hrest hks hg hno he =>
    subst he hrest
    refine ⟨_, hstep, .message hst ks t rfl hks hg ?_ ?_⟩
    · simp [Receiver.afterCall, h.pending]
    · refine ⟨by simp [h.stream], ?_, by simp [Receiver.afterCall, h.delivered], scanned_fresh h.scanned.length_rest_lt,
        by simp, rfl, Nat.two_pow_pos 33, rfl⟩
      exact List.forall_mem_append.mpr ⟨h.groups, List.forall_mem_singleton.mpr ⟨hopen hks hg, hno⟩⟩
  | clash hst ks t hrest hks hg hc he =>
    subst he hrest
    refine ⟨_, hstep, .clash hst ks t rfl (hopen hks hg) hc ?_⟩
    simp [Receiver.afterCall, h.pending]
  | waiting hst ks t hrest hks ho hnone hcomplete he =>
    subst hrest
    exact ⟨_, h.decode_open hp hks ho hnone hst junk, .waiting hst ks t rfl hks ho hnone rfl (h.scanStop hks ho junk)⟩
  | again hst ks t hrest hks ho hnone hcomplete he => exact absurd (h.complete.symm.trans hcomplete) (by simp)

theorem CallOutcome.tracks (h : Tracks P r gs fs rest) (hno : ¬Conflict P)
    (ho : CallOutcome P r gs fs rest junk r') : ∃ gs' fs' rest', Tracks P r' gs' fs' rest' := by
  cases ho with
  | stalled _ he =>
    subst he
    exact ⟨gs, fs, rest, h.idle⟩
  | message _ ks t _ _ _ _ ht => exact ⟨_, _, _, ht⟩
  | clash _ ks t hrest hg hc _ =>
    exact absurd ⟨gs, fs ++ ks, t, by simp [h.stream, hrest], fun g hg => (h.groups g hg).1, hg, hc⟩ hno
  | waiting _ ks t _ _ _ _ _ ht => exact ⟨_, _, _, ht⟩

theorem Tracks.exec {acts : List RecvAct} (h : Tracks P r gs fs rest)
    (he : Machine.exec Receiver.step r acts = some r') (hno : ¬Conflict (P ++ (received acts).flatten)) :
    ∃ gs' fs' rest', Tracks (P ++ (received acts).flatten) r' gs' fs' rest' := by
  induction acts generalizing P r gs fs rest with
  | nil =>
    cases he
    exact ⟨gs, fs, rest, by simpa [received] using h⟩
  | cons a acts ih =>
    obtain ⟨q, hq, hrun⟩ := Machine.exec_cons_eq_some.mp he
    cases a with
    | recv chunk =>
      have hq' := h.recv hq
      have := ih hq' hrun (by simpa [received] using hno)
      simpa [received] using this
    | decode junk =>
      have hp : r.parsing = true := by
        by_contra hp
        simp [Receiver.step, hp] at hq
      have hnoP : ¬Conflict P := fun hc => hno (hc.append _)
      obtain ⟨q', hq', ho⟩ := h.decode hp junk
      obtain rfl := Option.some.inj (hq.symm.trans hq')
      obtain ⟨gs', fs', rest', ht⟩ := ho.tracks h hnoP
      exact ih ht hrun hno

end SrWebSocket
