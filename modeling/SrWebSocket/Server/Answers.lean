import SrWebSocket.Server.Serving

/-! # The answers of a connection

Over a whole run the handler calls of a connection are the pages for its GET
requests, one upgrade, and then one call for each data message that the decoder has
handed out, in that order, by the handler of the protocol that the upgrade set.
-/
namespace SrWebSocket

def pageEvent (env : Env) : Event where
  state := .none
  handler := .get
  sent := if getProcMsg env ≠ [] then some (getProcMsg env) else none

/-- What the handlers send for a decoded message. -/
def Handler.sends (env : Env) (m : WsMsg) : Handler → Option (List UInt8)
  | .get => if getProcMsg env ≠ [] then some (getProcMsg env) else none
  | .upgrade => none
  | .echo => some (serverFrame wsFrameText m.pBuffer)

/-- The handler call for a message that is decoded under the protocol `p`. -/
def answer (env : Env) (p : List UInt8) (m : WsMsg) : Option Event :=
  if IsData m then (getHandler p).map fun h => { state := .connect, handler := h, sent := h.sends env m } else none

/-- The handler calls of a connection and what they left. -/
inductive Answered (env : Env) (c : Conn) : Prop
  /-- only pages so far -/
  | pages (n : ℕ) (hstate : c.miState = .none) (hdel : c.delivered = []) (halive : c.fault = none)
      (hev : c.events = List.replicate n (pageEvent env))
  /-- a request that the upgrade handler could not answer -/
  | failed (n : ℕ) (hstate : c.miState = .none) (hdel : c.delivered = []) (hfault : c.fault ≠ none)
      (hev : c.events = List.replicate n (pageEvent env) ++ [⟨.none, .upgrade, none⟩])
  | upgraded (n : ℕ) (pMsg pRet : List UInt8) (stack : ℤ → UInt8) (hstate : c.miState = .connect)
      (hreq : IsGet pMsg ∧ HasKey pMsg)
      (hret : upgradeProcMsg env.toBaseLibrary stack pMsg = .returns (some pRet) (some c.mstrProtocol))
      (hfault : c.fault = none ↔ (c.mstrProtocol = fieldWebsocketKey → ∀ m ∈ c.delivered, ¬IsData m))
      (hev : c.events = List.replicate n (pageEvent env) ++
        ⟨.none, .upgrade, if pRet ≠ [] then some pRet else none⟩ :: c.delivered.filterMap (answer env c.mstrProtocol))

variable {env : Env} {s : Scratch} {c c' : Conn} {a : ConnAct} {m : WsMsg} {fs : List (List UInt8)}

/-! ## One message -/

theorem events_reply_frame (σ : Session) (hstate : σ.miState = .connect) (hm : BuiltFrom m fs) :
    (σ.procMsg env s (frameMsg σ.mstrProtocol m)).events = σ.events ++ (answer env σ.mstrProtocol m).toList := by
  rw [events_procMsg, handlerMgrProcMsg_frame env s _ hm, answer]
  by_cases hdata : IsData m
  · rw [if_pos hdata, if_pos hdata]
    cases getHandler σ.mstrProtocol with
    | none => simp
    | some h => cases h <;> simp [Handler.sends, hstate, serverFrame]
  · rw [if_neg hdata, if_neg hdata]
    simp

theorem fault_reply_frame (σ : Session) (halive : σ.fault = none) (hm : BuiltFrom m fs) :
    (σ.procMsg env s (frameMsg σ.mstrProtocol m)).fault = none ↔ (σ.mstrProtocol = fieldWebsocketKey → ¬IsData m) := by
  have hname : σ.mstrProtocol = fieldWebsocketKey ↔ getHandler σ.mstrProtocol = some .upgrade :=
    (getHandler_eq_some (h := .upgrade)).symm
  rw [fault_procMsg, handlerMgrProcMsg_frame env s _ hm, hname]
  by_cases hdata : IsData m
  · rw [if_pos hdata]
    cases getHandler σ.mstrProtocol with
    | none => simp [halive]
    | some h => cases h <;> simp [halive, hdata]
  · rw [if_neg hdata]
    simp [halive, hdata]

/-! ## Steps -/

theorem answered_start : Answered env .start := .pages 0 rfl rfl rfl rfl

/-- What becomes of a session before its upgrade when it is given the request `text`. -/
inductive RequestResult (env : Env) (stack : ℤ → UInt8) (text : List UInt8) (σ τ : Session) : Prop
  | page (hkey : ¬HasKey text) (hstate : τ.miState = .none) (halive : τ.fault = none)
      (hev : τ.events = σ.events ++ [pageEvent env])
  | failed (hkey : HasKey text) (hret : ∀ pResult p, upgradeProcMsg env.toBaseLibrary stack text ≠ .returns (some pResult) p)
      (hstate : τ.miState = .none) (hfault : τ.fault ≠ none) (hev : τ.events = σ.events ++ [⟨.none, .upgrade, none⟩])
  | upgraded (hkey : HasKey text) (pResult : List UInt8)
      (hret : upgradeProcMsg env.toBaseLibrary stack text = .returns (some pResult) (some τ.mstrProtocol))
      (hstate : τ.miState = .connect) (halive : τ.fault = none)
      (hev : τ.events = σ.events ++ [⟨.none, .upgrade, if pResult ≠ [] then some pResult else none⟩])

theorem Conn.reply_request (hstate : c.miState = .none) (halive : c.fault = none) (s : Scratch) (text : List UInt8) :
    RequestResult env s.stack text c.toSession (c.reply env s (requestMsg text)) := by
  have hst : (c.reply env s (requestMsg text)).miState = _ := miState_procMsg _
  have hpr : (c.reply env s (requestMsg text)).mstrProtocol = _ := mstrProtocol_procMsg _
  have hft : (c.reply env s (requestMsg text)).fault = _ := fault_procMsg _
  have hes : (c.reply env s (requestMsg text)).events = _ := events_procMsg _
  rw [handlerMgrProcMsg_request] at hst hpr hft hes
  by_cases hkey : HasKey text
  · rw [if_pos hkey] at hst hpr hft hes
    cases hret : upgradeProcMsg env.toBaseLibrary s.stack text with
    | undefined =>
      rw [hret] at hst hft hes
      exact .failed hkey (by simp [hret]) (hst.trans hstate) (by simp [hft]) (by rw [hes, hstate])
    | returns pRet setProtocol =>
      have hset := upgradeProcMsg_sets hret
      rw [hret] at hst hpr hft hes
      cases pRet with
      | none => exact .failed hkey (by simp [hret]) (hst.trans hstate) (by simp [hft]) (by rw [hes, hstate])
      | some pResult =>
        obtain ⟨p, rfl⟩ := Option.isSome_iff_exists.mp hset
        exact .upgraded hkey pResult (by rw [hret, hpr]; rfl) hst (hft.trans halive) (by rw [hes, hstate])
  · rw [if_neg hkey] at hst hft hes
    exact .page hkey (hst.trans hstate) (hft.trans halive) (by rw [hes, hstate]; rfl)

theorem Answered.request (h : Answered env c) (hstate : c.miState = .none) (halive : c.fault = none)
    (hget : IsGet c.arrived) (hsame : c'.delivered = c.delivered)
    (hreply : c'.toSession = c.reply env s (requestMsg c.arrived)) : Answered env c' := by
  have hold : c.delivered = [] ∧ ∃ n, c.events = List.replicate n (pageEvent env) := by
    cases h with
    | pages n _ hdel _ hev => exact ⟨hdel, n, hev⟩
    | failed _ _ _ hfault _ => exact absurd halive hfault
    | upgraded _ _ _ _ hconn _ _ _ _ => exact absurd (hstate.symm.trans hconn) (by decide)
  obtain ⟨hdel, n, hev⟩ := hold
  have hdel' : c'.delivered = [] := hsame.trans hdel
  have hresult : RequestResult env s.stack c.arrived c.toSession (c.reply env s (requestMsg c.arrived)) :=
    Conn.reply_request hstate halive s c.arrived
  rw [← hreply] at hresult
  cases hresult with
  | page hkey hst halive' hes =>
    refine .pages (n + 1) hst hdel' halive' ?_
    rw [hes, hev, List.replicate_succ']
  | failed hkey hret hst hfault hes => exact .failed n hst hdel' hfault (by rw [hes, hev])
  | upgraded hkey pResult hret hst halive' hes =>
    refine .upgraded n c.arrived pResult s.stack hst ⟨hget, hkey⟩ hret ?_ ?_
    · simp [halive', hdel']
    · rw [hes, hev, hdel']
      rfl

theorem Answered.frame (h : Answered env c) (hstate : c.miState = .connect) (halive : c.fault = none)
    (hm : BuiltFrom m fs) (hdel : c'.delivered = c.delivered ++ [m])
    (hproc : c'.toSession = c.toSession.procMsg env s (frameMsg c.mstrProtocol m)) : Answered env c' := by
  have hproto : c'.mstrProtocol = c.mstrProtocol := by rw [hproc, mstrProtocol_reply_frame hm]
  cases h with
  | pages _ hnone _ _ _ => exact absurd (hstate.symm.trans hnone) (by decide)
  | failed _ hnone _ _ _ => exact absurd (hstate.symm.trans hnone) (by decide)
  | upgraded n pMsg pRet stack _ hreq hret hfault hev =>
    refine .upgraded n pMsg pRet stack ?_ hreq (hproto ▸ hret) ?_ ?_
    · rw [hproc]
      exact Session.miState_procMsg hstate
    · have hold := hfault.mp halive
      rw [hproto, hdel, List.forall_mem_append, List.forall_mem_singleton, hproc, fault_reply_frame _ halive hm]
      exact ⟨fun hnew hp => ⟨hold hp, hnew hp⟩, fun hall hp => (hall hp).2⟩
    · rw [hproto, hdel, List.filterMap_append, hproc, events_reply_frame _ hstate hm, hev]
      cases ha : answer env c.mstrProtocol m <;> simp [ha]

theorem Answered.keep (h : Answered env c) (hdel : c'.delivered = c.delivered) (hsame : c'.toSession = c.toSession) :
    Answered env c' := by
  cases h with
  | pages n hstate hnil halive hev =>
    exact .pages n (by rw [hsame, hstate]) (hdel.trans hnil) (by rw [hsame, halive]) (by rw [hsame, hev])
  | failed n hstate hnil hfault hev =>
    exact .failed n (by rw [hsame, hstate]) (hdel.trans hnil) (by rw [hsame]; exact hfault) (by rw [hsame, hev])
  | upgraded n pMsg pRet stack hstate hreq hret hfault hev =>
    refine .upgraded n pMsg pRet stack (by rw [hsame, hstate]) hreq (by rw [hsame, hret]) ?_ ?_
    · rw [hsame, hdel]
      exact hfault
    · rw [hsame, hdel, hev]

theorem Answered.step (h : Answered env c) (hinv : ConnInv c) (hs : c.step env a = some c') : Answered env c' := by
  have halive := Conn.step_fault hs
  cases a with
  | push chunk =>
    rw [(step_push.mp hs).2]
    exact h.keep rfl rfl
  | proc s =>
    obtain ⟨⟨_, hp, _⟩, rfl⟩ := step_proc.mp hs
    by_cases hstate : c.miState = .none
    · rw [Conn.procMsg_none hinv hstate]
      by_cases hget : IsGet c.arrived
      · exact h.request (s := s) hstate halive hget rfl (if_pos hget)
      · exact h.keep rfl (if_neg hget)
    · rw [Conn.procMsg_connect (WsState.eq_connect hstate) hp]
      exact h.keep rfl rfl
  | decode junk s =>
    obtain ⟨hstate, ret, _, _, _, hr, hret, ⟨_, h0, hsame⟩ | ⟨m, gs, hm, h1, hb, hproc⟩⟩ := hinv.decode hs
    · exact h.keep (by rw [hr]; simp [Receiver.afterCall, h0]) hsame
    · refine h.frame hstate halive hb ?_ hproc
      rw [hr]
      simp [Receiver.afterCall, h1, hret.trans hm]

/-! ## Runs -/

theorem Answered.exec {acts : List ConnAct} (h : Answered env c) (hinv : ConnInv c)
    (hrun : Machine.exec (Conn.step env) c acts = some c') : Answered env c' := by
  have hboth := Machine.exec_invariant (fun c => ConnInv c ∧ Answered env c)
    (fun _ _ _ ⟨hinv, ha⟩ hs => ⟨hinv.step hs, ha.step hinv hs⟩) ⟨hinv, h⟩ hrun
  exact hboth.2

/-- In every run of a connection the handler calls are some pages, one upgrade, and
then an answer to each data message that was handed out, in their order; what the
upgrade set is what answers. -/
theorem answered_run (env : Env) (acts : List ConnAct) (c : Conn)
    (hrun : Machine.exec (Conn.step env) .start acts = some c) : Answered env c :=
  answered_start.exec connInv_start hrun

theorem answered_run_echo :
    ∃ c, Machine.exec (Conn.step sampleEnv) .start (textRun wsProtocolEcho (by decide) (by decide)) = some c ∧
      Answered sampleEnv c := by
  obtain ⟨c, hc, _⟩ := exec_textRun_echo
  exact ⟨c, hc, answered_run sampleEnv _ c hc⟩

end SrWebSocket
