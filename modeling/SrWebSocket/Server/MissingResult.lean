import SrWebSocket.Server.Dispatch

/-! # Handlers that return nothing

`CWsHandlerMgr::ProcMsg` takes the buffer of a result without asking whether there
is a result. Only the upgrade handler ever returns none: for a request in which
the text of the key's name stands somewhere but its lines give no key, and for
every data message that its connection's protocol sends to it.
-/
namespace SrWebSocket

/-- A message for which a result comes back, or nothing at all. -/
def KeepsResult (pMsg : CWsMsg) : Prop :=
  match pMsg.mpMsg with
  | none => HasKey pMsg.mstrHttpMsg → [] ∈ requestLines pMsg.mstrHttpMsg ∨ keyValue pMsg.mstrHttpMsg ≠ []
  | some m => IsData m → pMsg.mstrProtocol ≠ fieldWebsocketKey

variable {env : Env} {s : Scratch} {pMsg : CWsMsg} {lib : BaseLibrary} {httpMsg : List UInt8}

theorem upgradeProcMsg_ne_null (hlib : lib.Works) (stack : ℤ → UInt8) :
    ([] ∈ requestLines httpMsg ∨ keyValue httpMsg ≠ []) ↔
      ∀ setProtocol, upgradeProcMsg lib stack httpMsg ≠ .returns none setProtocol := by
  rw [← readFields_eq_none]
  unfold upgradeProcMsg
  cases hf : readFields httpMsg with
  | none => simp
  | some f =>
    rw [← websocketKey_eq hf]
    dsimp only
    by_cases hkey : f.websocketKey = []
    · simp [hkey]
    obtain ⟨e, he, hlen, _⟩ := hlib.accept f.websocketKey
    have hne : e ≠ [] := by
      rintro rfl
      exact absurd hlen (by decide)
    rw [if_neg hkey, he]
    dsimp only
    rw [if_neg hne]
    refine ⟨fun _ setProtocol h => ?_, fun _ => Or.inr hkey⟩
    split at h <;> cases h

/-- One message: a result is missing exactly when the condition fails. -/
theorem nullResult_iff (hlib : env.Works) {c : Conn} (hfault : c.fault = none) (hcr : Creation c pMsg) :
    (c.reply env s pMsg).fault ≠ some .nullResult ↔ KeepsResult pMsg := by
  rw [Conn.reply, fault_procMsg]
  cases hcr with
  | request hstate hget =>
    rw [handlerMgrProcMsg_request]
    by_cases hkey : HasKey c.arrived
    · have hkeeps : KeepsResult (requestMsg c.arrived) ↔ [] ∈ requestLines c.arrived ∨ keyValue c.arrived ≠ [] := by
        simp only [KeepsResult, requestMsg, hkey, true_imp_iff]
      rw [if_pos hkey, hkeeps, upgradeProcMsg_ne_null hlib s.stack]
      cases upgradeProcMsg env.toBaseLibrary s.stack c.arrived with
      | undefined => simp
      | returns pRet setProtocol => cases pRet <;> simp [hfault]
    · simp [KeepsResult, requestMsg, hkey, hfault]
  | frame hstate m fs hm =>
    rw [handlerMgrProcMsg_frame env s _ hm]
    by_cases hdata : IsData m
    · have hname : c.mstrProtocol = fieldWebsocketKey ↔ getHandler c.mstrProtocol = some .upgrade :=
        (getHandler_eq_some (h := .upgrade)).symm
      simp only [KeepsResult, frameMsg, hdata, if_true, true_imp_iff, ne_eq, hname]
      cases getHandler c.mstrProtocol with
      | none => simp [hfault]
      | some h => cases h <;> simp [hfault]
    · simp [KeepsResult, frameMsg, hdata, hfault]

/-- In a run of a connection no missing result is used exactly when every message
that was created keeps its result. -/
theorem noNullResult_iff (env : Env) (hlib : env.Works) (acts : List ConnAct) (c : Conn)
    (hrun : Machine.exec (Conn.step env) .start acts = some c) :
    c.fault ≠ some .nullResult ↔ EveryMessage env KeepsResult acts := by
  have h := session_iff (fun _ => True) (fun _ => True) (fun σ => σ.fault ≠ some .nullResult) KeepsResult trivial
    (fun _ _ => trivial) (fun _ _ _ _ _ => trivial) ?_ hrun trivial
  · exact h.trans (and_iff_right (by decide))
  · intro c s pMsg _ hfault hcr _
    rw [nullResult_iff hlib hfault hcr, hfault]
    simp

theorem noNullResult_echo :
    ∃ c, Machine.exec (Conn.step sampleEnv) .start (textRun wsProtocolEcho (by decide) (by decide)) = some c ∧
      (c.fault ≠ some .nullResult ↔
        EveryMessage sampleEnv KeepsResult (textRun wsProtocolEcho (by decide) (by decide))) := by
  obtain ⟨c, hc, _⟩ := exec_textRun_echo
  exact ⟨c, hc, noNullResult_iff sampleEnv sampleLibrary_works _ c hc⟩

/-- A request that mentions the name of the key and has no key. -/
def keylessRequest : List UInt8 := requestText [ascii "GET / HTTP/1.1", ascii "Vary: Sec-WebSocket-Key"]

theorem keylessRequest_nullResult :
    ∃ c, Machine.exec (Conn.step sampleEnv) .start [.push keylessRequest, .proc zeroScratch] = some c ∧
      c.fault = some .nullResult := by
  have hfault : (Machine.exec (Conn.step sampleEnv) .start [.push keylessRequest, .proc zeroScratch]).map
      (fun c => c.fault) = some (some .nullResult) := by decide +kernel
  exact Option.map_eq_some_iff.mp hfault

end SrWebSocket
