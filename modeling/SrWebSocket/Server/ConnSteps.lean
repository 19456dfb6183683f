import SrWebSocket.Parse.CallCases
import SrWebSocket.Server.Connection

/-! # What a step of a connection does

A step creates at most one `CWsMsg`, for a request before the upgrade and for a
decoded message after it. What it does to the session is what
`CWsHandlerMgr::ProcMsg` does with that message.
-/
namespace SrWebSocket

/-- The message that the next call of `DecodeMsg` hands out. -/
def Conn.handedOut (junk : ℕ → UInt8) (c : Conn) : Option WsMsg :=
  (decodeMsg 64 (callFuel c.mstMsgCache) junk c.mstMsgCache c.mpMsg).bind fun ret =>
    if ret.iRet = 0 then none else ret.pWsMsg

def Conn.creates (c : Conn) : ConnAct → Option CWsMsg
  | .push _ => none
  | .proc _ => if c.miState = .none ∧ IsGet c.arrived then some (requestMsg c.arrived) else none
  | .decode junk _ => (c.handedOut junk).map (frameMsg c.mstrProtocol)

structure ConnInv (c : Conn) : Prop where
  cache : ∃ fs rest, CacheInv c.mstMsgCache fs rest
  pending : c.mpMsg = none
  waiting : c.miState = .none → c.mstMsgCache = .fresh [] ∧ c.parsing = false

/-- The messages that can be created in a state. -/
inductive Creation (c : Conn) : CWsMsg → Prop
  | request (hstate : c.miState = .none) (hget : IsGet c.arrived) : Creation c (requestMsg c.arrived)
  | frame (hstate : c.miState = .connect) (m : WsMsg) (fs : List (List UInt8)) (hm : BuiltFrom m fs) :
      Creation c (frameMsg c.mstrProtocol m)

/-- The session after a connection has created a message and `ProcMsg` is through with it. -/
def Conn.reply (env : Env) (s : Scratch) (c : Conn) (pMsg : CWsMsg) : Session :=
  Session.procMsg env s { c.toSession with mstrProtocol := pMsg.mstrProtocol } pMsg

variable {env : Env} {c c' : Conn} {a : ConnAct} {s : Scratch} {junk : ℕ → UInt8} {pMsg : CWsMsg}

theorem connInv_start : ConnInv .start where
  cache := ⟨[], [], cacheInv_fresh (Nat.two_pow_pos 63)⟩
  pending := rfl
  waiting _ := ⟨rfl, rfl⟩

theorem Conn.step_fault (h : c.step env a = some c') : c.fault = none := by
  by_contra hf
  cases a <;> simp [Conn.step, hf] at h

theorem step_proc :
    c.step env (.proc s) = some c' ↔
      (c.fault = none ∧ c.parsing = false ∧ c.arrived.length < 2 ^ 63) ∧ c' = c.procMsg env s := by
  refine Option.ite_none_right_eq_some.trans (and_congr_right fun _ => ?_)
  rw [Option.some.injEq, eq_comm]

theorem not_isGet_nil : ¬IsGet [] := by decide

theorem WsState.eq_connect {st : WsState} (h : st ≠ .none) : st = .connect := by
  cases st with
  | none => exact absurd rfl h
  | connect => rfl

theorem Conn.procMsg_none (h : ConnInv c) (hstate : c.miState = .none) :
    c.procMsg env s = { c with
      mpRecvBuffer := []
      toSession := if IsGet c.arrived then c.reply env s (requestMsg c.arrived) else c.toSession } := by
  obtain ⟨hcache, _⟩ := h.waiting hstate
  have harrived : (c.mstMsgCache.append c.mpRecvBuffer).pBuffer = c.arrived := rfl
  have hempty : { c.mstMsgCache.append c.mpRecvBuffer with pBuffer := [] } = c.mstMsgCache := by
    rw [hcache]
    rfl
  unfold Conn.procMsg Conn.parseMsg Conn.moveMsg
  dsimp only
  rw [harrived]
  by_cases hnil : c.arrived = []
  · have hrecv : c.mpRecvBuffer = [] := (List.append_eq_nil_iff.mp hnil).2
    have hsame : c.mstMsgCache.append [] = c.mstMsgCache := by
      rw [hcache]
      rfl
    rw [if_pos hnil, hnil, if_neg not_isGet_nil, hrecv, hsame]
  · rw [if_neg hnil]
    split
    · dsimp only [Conn.parseHttp]
      rw [harrived, hempty]
      rfl
    · rename_i hother
      exact absurd (hstate.symm.trans hother) (by decide)

theorem Conn.procMsg_connect (hstate : c.miState = .connect) (hp : c.parsing = false) :
    c.procMsg env s = { c with
      mstMsgCache := c.mstMsgCache.append c.mpRecvBuffer
      mpRecvBuffer := []
      parsing := decide (c.arrived ≠ [] ∧ c.mstrProtocol ≠ []) } := by
  have harrived : (c.mstMsgCache.append c.mpRecvBuffer).pBuffer = c.arrived := rfl
  unfold Conn.procMsg Conn.parseMsg Conn.moveMsg
  dsimp only
  rw [harrived]
  by_cases hnil : c.arrived = []
  · simp only [hnil, hp, ne_eq, not_true_eq_false, false_and, decide_false, if_true]
  · rw [if_neg hnil]
    split
    · rename_i hother
      exact absurd (hstate.symm.trans hother) (by decide)
    · simp only [hnil, ne_eq, not_false_eq_true, true_and]

theorem Session.miState_procMsg {σ : Session} (h : σ.miState = .connect) : (σ.procMsg env s pMsg).miState = .connect := by
  unfold Session.procMsg
  split <;> simp [h]

theorem ConnInv.decode (h : ConnInv c) (hs : c.step env (.decode junk s) = some c') :
    c.miState = .connect ∧ ∃ ret fs rest, CacheInv ret.pMsgCache fs rest ∧
      c'.toReceiver = c.toReceiver.afterCall ret ∧ ret.pWsMsg = c.handedOut junk ∧
      (c.handedOut junk = none ∧ ret.iRet = 0 ∧ c'.toSession = c.toSession ∨
        ∃ m gs, c.handedOut junk = some m ∧ ret.iRet = 1 ∧ BuiltFrom m gs ∧
          c'.toSession = c.toSession.procMsg env s (frameMsg c.mstrProtocol m)) := by
  have hp : c.fault = none ∧ c.parsing = true := by
    by_contra hp
    simp [Conn.step, hp] at hs
  have hstate : c.miState = .connect := by
    apply WsState.eq_connect
    intro hnone
    exact absurd (hp.2.symm.trans (h.waiting hnone).2) (by decide)
  obtain ⟨fs, rest, hc⟩ := h.cache
  obtain ⟨ret, fs', rest', hcall, hc', hret⟩ := hc.call junk
  rw [← h.pending] at hcall
  have hc'' : c.afterDecode env s ret = c' := by simpa [Conn.step, hp, hcall] using hs
  subst hc''
  refine ⟨hstate, ret, fs', rest', hc', ?_⟩
  have hout : c.handedOut junk = if ret.iRet = 0 then none else ret.pWsMsg := by simp [Conn.handedOut, hcall]
  rcases hret with ⟨h0, hnone⟩ | ⟨h1, m, gs, hm, hb⟩
  · rw [h0, if_pos rfl] at hout
    refine ⟨?_, hnone.trans hout.symm, Or.inl ⟨hout, h0, ?_⟩⟩
    · simp [Conn.afterDecode, h0]
    · simp [Conn.afterDecode, h0]
  · rw [h1, if_neg one_ne_zero, hm] at hout
    refine ⟨?_, hm.trans hout.symm, Or.inr ⟨m, gs, hout, h1, hb, ?_⟩⟩
    · simp [Conn.afterDecode, h1, hm]
    · simp [Conn.afterDecode, h1, hm]

/-- Every step leaves the session alone or gives it one new message. -/
theorem ConnInv.session (h : ConnInv c) (hs : c.step env a = some c') :
    c.creates a = none ∧ c'.toSession = c.toSession ∨
      ∃ pMsg s, c.creates a = some pMsg ∧ Creation c pMsg ∧ c'.toSession = c.reply env s pMsg := by
  cases a with
  | push chunk =>
    left
    have hf := Conn.step_fault hs
    simp only [Conn.step, hf, if_true, Option.some.injEq] at hs
    exact ⟨rfl, by rw [← hs]⟩
  | proc s =>
    obtain ⟨⟨_, hp, _⟩, rfl⟩ := step_proc.mp hs
    by_cases hstate : c.miState = .none
    · rw [Conn.procMsg_none h hstate]
      by_cases hget : IsGet c.arrived
      · right
        refine ⟨requestMsg c.arrived, s, by simp [Conn.creates, hstate, hget], .request hstate hget, ?_⟩
        dsimp only
        rw [if_pos hget]
      · left
        refine ⟨by simp [Conn.creates, hget], ?_⟩
        dsimp only
        rw [if_neg hget]
    · left
      rw [Conn.procMsg_connect (WsState.eq_connect hstate) hp]
      exact ⟨by simp [Conn.creates, hstate], rfl⟩
  | decode junk s =>
    obtain ⟨hstate, ret, fs, rest, _, _, _, hout⟩ := h.decode hs
    rcases hout with ⟨hnone, _, hsame⟩ | ⟨m, gs, hm, _, hb, hproc⟩
    · exact Or.inl ⟨by simp [Conn.creates, hnone], hsame⟩
    · exact Or.inr ⟨_, s, by simp [Conn.creates, hm], .frame hstate m gs hb, hproc⟩

theorem ConnInv.step (h : ConnInv c) (hs : c.step env a = some c') : ConnInv c' := by
  obtain ⟨fs, rest, hc⟩ := h.cache
  cases a with
  | push chunk =>
    have hf := Conn.step_fault hs
    simp only [Conn.step, hf, if_true, Option.some.injEq] at hs
    subst hs
    exact ⟨h.cache, h.pending, h.waiting⟩
  | proc s =>
    obtain ⟨⟨_, hp, hlen⟩, rfl⟩ := step_proc.mp hs
    by_cases hstate : c.miState = .none
    · rw [Conn.procMsg_none h hstate]
      exact ⟨h.cache, h.pending, fun _ => h.waiting hstate⟩
    · have hconn := WsState.eq_connect hstate
      rw [Conn.procMsg_connect hconn hp]
      refine ⟨⟨fs, rest ++ c.mpRecvBuffer, hc.append ?_⟩, h.pending, fun hnone => absurd hnone hstate⟩
      rwa [Conn.arrived, List.length_append] at hlen
  | decode junk s =>
    obtain ⟨hstate, ret, fs', rest', hc', hr, hret, hout⟩ := h.decode hs
    have hconn : c'.miState = .connect := by
      rcases hout with ⟨_, _, hsame⟩ | ⟨m, _, _, _, _, hproc⟩
      · rw [hsame, hstate]
      · rw [hproc, Session.miState_procMsg hstate]
    refine ⟨⟨fs', rest', ?_⟩, ?_, fun hnone => absurd (hconn.symm.trans hnone) (by decide)⟩
    · rw [hr]
      unfold Receiver.afterCall
      split <;> exact hc'
    · rw [hr]
      rcases hout with ⟨hnone, h0, _⟩ | ⟨m, _, _, h1, _⟩
      · simp [Receiver.afterCall, h0, hret.trans hnone]
      · simp [Receiver.afterCall, h1]

end SrWebSocket
