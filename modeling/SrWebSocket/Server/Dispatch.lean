import SrWebSocket.Server.ConnSteps

/-! # Which handler answers what

A request is answered by the handler for `GET` or the one for the key, by a text
that the request contains. A data message is answered by the handler registered
under the protocol of its connection, which may be any of the three or none.
-/
namespace SrWebSocket
variable {env : Env} {p text : List UInt8} {h : Handler} {m : WsMsg} {fs : List (List UInt8)}

theorem getHandler_get : getHandler fieldGet = some .get := by decide

theorem getHandler_key : getHandler fieldWebsocketKey = some .upgrade := by decide

theorem getHandler_echo : getHandler wsProtocolEcho = some .echo := by decide

def Handler.name : Handler → List UInt8
  | .get => fieldGet
  | .upgrade => fieldWebsocketKey
  | .echo => wsProtocolEcho

theorem getHandler_eq_some : getHandler p = some h ↔ p = h.name := by
  constructor
  · intro he
    unfold getHandler mmapHandlers at he
    obtain ⟨xs, ys, hrow, _⟩ := List.lookup_eq_some_iff.mp he
    have hmem : (p, h) ∈ [(fieldGet, Handler.get), (fieldWebsocketKey, .upgrade), (wsProtocolEcho, .echo)] := by
      rw [hrow]
      simp
    simp only [List.mem_cons, Prod.mk.injEq, List.not_mem_nil, or_false] at hmem
    rcases hmem with ⟨rfl, rfl⟩ | ⟨rfl, rfl⟩ | ⟨rfl, rfl⟩ <;> rfl
  · rintro rfl
    cases h with
    | get => exact getHandler_get
    | upgrade => exact getHandler_key
    | echo => exact getHandler_echo

theorem handlerMgrProcMsg_request (env : Env) (s : Scratch) (text : List UInt8) :
    handlerMgrProcMsg env s (requestMsg text) =
      if HasKey text then
        match upgradeProcMsg env.toBaseLibrary s.stack text with
        | .undefined => .undefined .upgrade
        | .returns none _ => .nullResult .upgrade
        | .returns (some pResult) setProtocol => .handled .upgrade pResult setProtocol
      else .handled .get (getProcMsg env) none := by
  unfold handlerMgrProcMsg requestMsg
  dsimp only [Option.all]
  by_cases hkey : HasKey text
  · rw [if_pos hkey, if_pos hkey, getHandler_key]
    rfl
  · rw [if_neg hkey, if_neg hkey, getHandler_get]
    rfl

/-- The upgrade handler finds no key in a decoded message, and the echo handler
always has something to send back. -/
theorem handlerMgrProcMsg_frame (env : Env) (s : Scratch) (p : List UInt8) (hm : BuiltFrom m fs) :
    handlerMgrProcMsg env s (frameMsg p m) =
      if IsData m then
        match getHandler p with
        | none => .noHandler
        | some .get => .handled .get (getProcMsg env) none
        | some .upgrade => .nullResult .upgrade
        | some .echo => .handled .echo (serverFrame wsFrameText m.pBuffer) none
      else .dropped := by
  have hecho : encodeMsg 64 s.alloc m.pBuffer wsFrameText.toNat = some (serverFrame wsFrameText m.pBuffer) := by
    have := encodeMsg_eq (t := wsFrameText.toNat) (by decide) (List.length_pos_iff.mpr hm.nonempty) hm.length_lt s.alloc
    rwa [UInt8.ofNat_toNat] at this
  unfold handlerMgrProcMsg frameMsg
  dsimp only [Option.all]
  by_cases hdata : IsData m
  · rw [if_pos (decide_eq_true hdata), if_pos hdata]
    cases getHandler p with
    | none => rfl
    | some h =>
      cases h with
      | get => rfl
      | upgrade => rfl
      | echo =>
        dsimp only [Handler.procMsg, echoProcMsg]
        rw [hecho]
  · rw [if_neg (by simpa using hdata), if_neg hdata]

/-! ## What a message changes -/

section Changes
variable {s : Scratch} {pMsg : CWsMsg} (σ : Session)

theorem miState_procMsg :
    (σ.procMsg env s pMsg).miState =
      match handlerMgrProcMsg env s pMsg with
      | .handled _ _ setProtocol => if setProtocol.isSome then .connect else σ.miState
      | _ => σ.miState := by
  unfold Session.procMsg
  split <;> simp_all

theorem mstrProtocol_procMsg :
    (σ.procMsg env s pMsg).mstrProtocol =
      match handlerMgrProcMsg env s pMsg with
      | .handled _ _ setProtocol => setProtocol.getD σ.mstrProtocol
      | _ => σ.mstrProtocol := by
  unfold Session.procMsg
  split <;> simp_all

theorem events_procMsg :
    (σ.procMsg env s pMsg).events =
      match handlerMgrProcMsg env s pMsg with
      | .dropped => σ.events
      | .noHandler => σ.events
      | .handled h pResult _ =>
        σ.events ++ [{ state := σ.miState, handler := h, sent := if pResult ≠ [] then some pResult else none }]
      | .nullResult h => σ.events ++ [{ state := σ.miState, handler := h, sent := none }]
      | .undefined h => σ.events ++ [{ state := σ.miState, handler := h, sent := none }] := by
  unfold Session.procMsg
  split <;> simp_all

theorem created_procMsg : (σ.procMsg env s pMsg).created = σ.created + 1 := by
  unfold Session.procMsg
  split <;> rfl

theorem deleted_procMsg :
    (σ.procMsg env s pMsg).deleted =
      match handlerMgrProcMsg env s pMsg with
      | .dropped => σ.deleted ++ [σ.created]
      | .handled _ _ _ => σ.deleted ++ [σ.created]
      | _ => σ.deleted := by
  unfold Session.procMsg
  split <;> simp_all

theorem fault_procMsg :
    (σ.procMsg env s pMsg).fault =
      match handlerMgrProcMsg env s pMsg with
      | .nullResult _ => some .nullResult
      | .undefined _ => some .undefined
      | _ => σ.fault := by
  unfold Session.procMsg
  split <;> simp_all

end Changes

/-! ## Runs -/

/-- Every message that is created in the run meets the condition. -/
def EveryMessage (env : Env) (P : CWsMsg → Prop) (acts : List ConnAct) : Prop :=
  Machine.EachStep (Conn.step env) (fun c a => ∀ pMsg ∈ c.creates a, P pMsg) .start acts

/-- What a message that breaks the condition spoils for good holds at the end of
a run exactly when no message of the run breaks it. -/
theorem session_iff (I J G : Session → Prop) (P : CWsMsg → Prop) (hstart : I .start)
    (hJ : ∀ σ, σ.fault = none → J σ)
    (hI : ∀ (c : Conn) s pMsg, I c.toSession → Creation c pMsg → I (c.reply env s pMsg))
    (hG : ∀ (c : Conn) s pMsg, I c.toSession → c.fault = none → Creation c pMsg → J (c.reply env s pMsg) →
      (G (c.reply env s pMsg) ↔ G c.toSession ∧ P pMsg))
    {acts : List ConnAct} {c : Conn} (hrun : Machine.exec (Conn.step env) .start acts = some c)
    (hc : J c.toSession) : G c.toSession ↔ G .start ∧ EveryMessage env P acts := by
  refine Machine.exec_iff (fun c => ConnInv c ∧ I c.toSession) (fun c => J c.toSession) (fun c => G c.toSession) _
    ?_ ?_ ?_ ⟨connInv_start, hstart⟩ hc hrun
  · rintro c a c' ⟨hinv, hi⟩ hs
    refine ⟨hinv.step hs, ?_⟩
    rcases hinv.session hs with ⟨_, hsame⟩ | ⟨pMsg, s, _, hcr, hreply⟩
    · rwa [hsame]
    · rw [hreply]
      exact hI c s pMsg hi hcr
  · intro c a c' hs
    exact hJ _ (Conn.step_fault hs)
  · rintro c a c' ⟨hinv, hi⟩ hj hs
    rcases hinv.session hs with ⟨hnone, hsame⟩ | ⟨pMsg, s, hmsg, hcr, hreply⟩
    · rw [hsame]
      simp [hnone]
    · rw [hreply] at hj ⊢
      rw [hG c s pMsg hi (Conn.step_fault hs) hcr hj, hmsg]
      simp

end SrWebSocket
