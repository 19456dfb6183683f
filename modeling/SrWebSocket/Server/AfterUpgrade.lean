import SrWebSocket.Server.Dispatch

/-! # What leaves the server after the upgrade

The handlers for HTTP and for the frames of a protocol are found in one map. A
client that asks for the protocol `GET` or `Sec-WebSocket-Key` gets it, and its
data messages go to the HTTP handlers from then on.
-/
namespace SrWebSocket

/-- A concatenation of well-formed server frames. -/
def ServerFrames (bytes : List UInt8) : Prop :=
  ∃ frames : List (UInt8 × List UInt8), (∀ f ∈ frames, f.1.toNat < 16 ∧ f.2.length < 2 ^ 63) ∧
    bytes = frames.flatMap fun f => serverFrame f.1 f.2

/-- The 101 response. -/
def Event.IsUpgrade (e : Event) : Prop := e.handler = .upgrade ∧ e.sent.isSome

/-- After the 101 response only frames are sent, and no message that is decoded
after the upgrade goes to an HTTP handler. -/
def FramesOnly (events : List Event) : Prop :=
  (events.Pairwise fun e later => e.IsUpgrade → ∀ bytes, later.sent = some bytes → ServerFrames bytes) ∧
  ∀ e ∈ events, e.state = .connect → e.handler ≠ .get ∧ e.handler ≠ .upgrade

/-- A message that is not sent to an HTTP handler after the upgrade. -/
def KeepsToFrames (pMsg : CWsMsg) : Prop :=
  ∀ m, pMsg.mpMsg = some m → IsData m → pMsg.mstrProtocol ≠ fieldGet ∧ pMsg.mstrProtocol ≠ fieldWebsocketKey

def UpgradesOnce (σ : Session) : Prop := σ.miState = .none → ∀ e ∈ σ.events, ¬e.IsUpgrade

variable {env : Env} {s : Scratch} {pMsg : CWsMsg} {events : List Event} {e : Event}

theorem serverFrames_text {payload : List UInt8} (h : payload.length < 2 ^ 63) :
    ServerFrames (serverFrame wsFrameText payload) :=
  ⟨[(wsFrameText, payload)], by simpa using ⟨by decide, h⟩, by simp⟩

theorem framesOnly_nil : FramesOnly [] := ⟨by simp, by simp⟩

theorem framesOnly_append_none (hno : ∀ e ∈ events, ¬e.IsUpgrade) (hstate : e.state = .none) :
    FramesOnly (events ++ [e]) ↔ FramesOnly events := by
  have hpairs : ∀ d ∈ events, d.IsUpgrade → ∀ bytes, e.sent = some bytes → ServerFrames bytes :=
    fun d hd hup => absurd hup (hno d hd)
  have hnone : e.state ≠ .connect := by simp [hstate]
  simp only [FramesOnly, List.pairwise_append, List.pairwise_singleton, List.forall_mem_append,
    List.forall_mem_singleton, true_and, hnone, false_imp_iff, and_true]
  exact and_congr_left' (and_iff_left hpairs)

theorem framesOnly_append_connect (hstate : e.state = .connect)
    (hsent : e.handler = .echo → ∀ bytes, e.sent = some bytes → ServerFrames bytes) :
    FramesOnly (events ++ [e]) ↔ FramesOnly events ∧ e.handler ≠ .get ∧ e.handler ≠ .upgrade := by
  simp only [FramesOnly, List.pairwise_append, List.pairwise_singleton, List.forall_mem_append,
    List.forall_mem_singleton, true_and, hstate, true_imp_iff]
  refine ⟨fun ⟨⟨hp, _⟩, hs, he⟩ => ⟨⟨hp, hs⟩, he⟩, fun ⟨⟨hp, hs⟩, he⟩ => ⟨⟨hp, fun d _ _ => hsent ?_⟩, hs, he⟩⟩
  cases hh : e.handler with
  | get => exact absurd hh he.1
  | upgrade => exact absurd hh he.2
  | echo => rfl

theorem upgradesOnce_reply {c : Conn} (hi : UpgradesOnce c.toSession) (hcr : Creation c pMsg) :
    UpgradesOnce (c.reply env s pMsg) := by
  have hget (st : WsState) (sent : Option (List UInt8)) : ¬Event.IsUpgrade ⟨st, .get, sent⟩ := by simp [Event.IsUpgrade]
  have hunsent (st : WsState) (h : Handler) : ¬Event.IsUpgrade ⟨st, h, none⟩ := by simp [Event.IsUpgrade]
  intro hnone
  cases hcr with
  | frame hstate m fs hm =>
    exact absurd ((Session.miState_procMsg hstate).symm.trans hnone) (by decide)
  | request hstate _ =>
    rw [Conn.reply, miState_procMsg, handlerMgrProcMsg_request] at hnone
    rw [Conn.reply, events_procMsg, handlerMgrProcMsg_request]
    by_cases hkey : HasKey c.arrived
    · rw [if_pos hkey] at hnone ⊢
      cases hret : upgradeProcMsg env.toBaseLibrary s.stack c.arrived with
      | undefined => exact List.forall_mem_append.mpr ⟨hi hstate, by simpa using hunsent _ _⟩
      | returns pRet setProtocol =>
        cases pRet with
        | none => exact List.forall_mem_append.mpr ⟨hi hstate, by simpa using hunsent _ _⟩
        | some pResult =>
          rw [hret] at hnone
          dsimp only at hnone
          have hset : setProtocol.isSome = true := upgradeProcMsg_sets hret
          rw [if_pos hset] at hnone
          cases hnone
    · rw [if_neg hkey]
      exact List.forall_mem_append.mpr ⟨hi hstate, by simpa using hget _ _⟩

theorem framesOnly_reply {c : Conn} (hi : UpgradesOnce c.toSession) (hcr : Creation c pMsg) :
    FramesOnly (c.reply env s pMsg).events ↔ FramesOnly c.events ∧ KeepsToFrames pMsg := by
  rw [Conn.reply, events_procMsg]
  cases hcr with
  | request hstate _ =>
    have hkeeps : KeepsToFrames (requestMsg c.arrived) := fun m hm => absurd hm (by simp [requestMsg])
    have hone (h : Handler) (sent : Option (List UInt8)) :
        FramesOnly (c.events ++ [⟨c.miState, h, sent⟩]) ↔ FramesOnly c.events ∧ KeepsToFrames (requestMsg c.arrived) :=
      (framesOnly_append_none (hi hstate) hstate).trans (and_iff_left hkeeps).symm
    rw [handlerMgrProcMsg_request]
    by_cases hkey : HasKey c.arrived
    · rw [if_pos hkey]
      cases upgradeProcMsg env.toBaseLibrary s.stack c.arrived with
      | undefined => exact hone _ _
      | returns pRet setProtocol => cases pRet <;> exact hone _ _
    · rw [if_neg hkey]
      exact hone _ _
  | frame hstate m fs hm =>
    rw [handlerMgrProcMsg_frame env s _ hm]
    by_cases hdata : IsData m
    · have hkeeps : KeepsToFrames (frameMsg c.mstrProtocol m) ↔
          getHandler c.mstrProtocol ≠ some .get ∧ getHandler c.mstrProtocol ≠ some .upgrade := by
        simp [KeepsToFrames, frameMsg, hdata, getHandler_eq_some, Handler.name]
      have hone (h : Handler) (sent : Option (List UInt8))
          (hsent : h = .echo → ∀ bytes, sent = some bytes → ServerFrames bytes) :
          FramesOnly (c.events ++ [⟨c.miState, h, sent⟩]) ↔ FramesOnly c.events ∧ h ≠ .get ∧ h ≠ .upgrade :=
        framesOnly_append_connect hstate hsent
      rw [if_pos hdata, hkeeps]
      cases getHandler c.mstrProtocol with
      | none => simp
      | some h =>
        cases h with
        | get => simpa using hone .get (if getProcMsg env ≠ [] then some (getProcMsg env) else none) (by simp)
        | upgrade => simpa using hone .upgrade none (by simp)
        | echo =>
          have hframe (bytes : List UInt8) (hb : (if serverFrame wsFrameText m.pBuffer ≠ [] then
              some (serverFrame wsFrameText m.pBuffer) else none) = some bytes) : ServerFrames bytes := by
            rw [if_pos (by simp [serverFrame])] at hb
            exact Option.some.inj hb ▸ serverFrames_text hm.length_lt
          simpa using hone .echo _ fun _ => hframe
    · rw [if_neg hdata]
      exact (and_iff_left fun m' hm' hd => absurd (Option.some.inj hm' ▸ hd) hdata).symm

/-- In a run of a connection only frames leave the server after the upgrade
exactly when no data message is created under the name of an HTTP handler. -/
theorem framesOnly_iff (env : Env) (acts : List ConnAct) (c : Conn)
    (hrun : Machine.exec (Conn.step env) .start acts = some c) :
    FramesOnly c.events ↔ EveryMessage env KeepsToFrames acts := by
  have h := session_iff UpgradesOnce (fun _ => True) (fun σ => FramesOnly σ.events) KeepsToFrames
    (fun _ e he => absurd he (by simp [Session.start])) (fun _ _ => trivial)
    (fun c s pMsg hi hcr => upgradesOnce_reply hi hcr) (fun c s pMsg hi _ hcr _ => framesOnly_reply hi hcr) hrun trivial
  exact h.trans (and_iff_right framesOnly_nil)

theorem framesOnly_echo :
    ∃ c, Machine.exec (Conn.step sampleEnv) .start (textRun wsProtocolEcho (by decide) (by decide)) = some c ∧
      (FramesOnly c.events ↔
        EveryMessage sampleEnv KeepsToFrames (textRun wsProtocolEcho (by decide) (by decide))) := by
  obtain ⟨c, hc, _⟩ := exec_textRun_echo
  exact ⟨c, hc, framesOnly_iff sampleEnv _ c hc⟩

theorem not_serverFrames_of_lt {b : UInt8} {bytes : List UInt8} (h : b.toNat < 128) : ¬ServerFrames (b :: bytes) := by
  rintro ⟨frames, hops, hbytes⟩
  cases frames with
  | nil => cases hbytes
  | cons f frames =>
    obtain ⟨rfl, _⟩ := List.cons.inj hbytes
    have hop := opByte_toNat (hops f List.mem_cons_self).1 true
    rw [if_pos rfl] at hop
    omega

/-- A client that asks for the protocol `GET` is sent the page when its text is decoded. -/
theorem getProtocol_page :
    ∃ c e later, Machine.exec (Conn.step sampleEnv) .start (textRun fieldGet (by decide) (by decide)) = some c ∧
      c.events = [e, later] ∧ e.IsUpgrade ∧ later.state = .connect ∧ later.handler = .get ∧
      later.sent = some (getProcMsg sampleEnv) ∧ ¬ServerFrames (getProcMsg sampleEnv) ∧ ¬FramesOnly c.events := by
  let e : Event := ⟨.none, .upgrade, some (responseText (ascii "s3pPLMBiTxaQ9kYGzzhZRbK+xOo=") fieldGet)⟩
  let later : Event := ⟨.connect, .get, some (getProcMsg sampleEnv)⟩
  have hrun : (Machine.exec (Conn.step sampleEnv) .start (textRun fieldGet (by decide) (by decide))).map
      (fun c => c.events) = some [e, later] := by decide +kernel
  obtain ⟨c, hc, hevents⟩ := Option.map_eq_some_iff.mp hrun
  have hpage : ¬ServerFrames (getProcMsg sampleEnv) := by
    have hcons : ∃ bytes, getProcMsg sampleEnv = 72 :: bytes := ⟨_, rfl⟩
    obtain ⟨bytes, hb⟩ := hcons
    exact hb ▸ not_serverFrames_of_lt (by decide)
  refine ⟨c, e, later, hc, hevents, ⟨rfl, rfl⟩, rfl, rfl, rfl, hpage, fun hframes => ?_⟩
  rw [hevents] at hframes
  exact (hframes.2 later (by simp) rfl).1 rfl

end SrWebSocket
