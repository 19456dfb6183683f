import SrWebSocket.System.Lifetime

/-! # Messages that nobody deletes

`CWsHandlerMgr::ProcMsg` leaves a message where it is when no handler is registered for
the protocol of the connection, and the message keeps its reference on the client. So
one such message is enough for the client to stay for good.
-/
namespace SrWebSocket

/-- The data messages that came on a protocol without a handler. -/
def Conn.leaked (c : Conn) : ℕ :=
  if c.miState = .connect ∧ getHandler c.mstrProtocol = none then c.delivered.countP fun m => IsData m else 0

/-- As long as no handler has failed, these are the messages that exist. -/
structure LeakInv (c : Conn) : Prop where
  inv : ConnInv c
  deletes : DeletesCreated c.toSession
  waiting : c.miState = .none → c.delivered = []
  live : c.fault = none → c.live.length = c.leaked

variable {env : Env} {c c' : Conn} {a : ConnAct} {acts : List ConnAct} {s : Scratch} {m : WsMsg} {fs : List (List UInt8)}

theorem leakInv_start : LeakInv .start where
  inv := connInv_start
  deletes := by simp [DeletesCreated, Conn.start, Session.start]
  waiting _ := rfl
  live _ := rfl

theorem Conn.leaked_of_none (h : c.delivered = []) : c.leaked = 0 := by
  rw [Conn.leaked, h, List.countP_nil, ite_self]

/-- A request that no handler fails on is deleted. -/
theorem live_request (hfault : (c.reply env s (requestMsg c.arrived)).fault = none) :
    (c.reply env s (requestMsg c.arrived)).live = c.live := by
  have hcreated : (c.reply env s (requestMsg c.arrived)).created = c.created + 1 := created_procMsg _
  have hdeleted : (c.reply env s (requestMsg c.arrived)).deleted = _ := deleted_procMsg _
  rw [Conn.reply, fault_procMsg, handlerMgrProcMsg_request] at hfault
  rw [handlerMgrProcMsg_request] at hdeleted
  refine live_delete hcreated (hdeleted.trans ?_)
  by_cases hkey : HasKey c.arrived
  · rw [if_pos hkey] at hfault ⊢
    cases hret : upgradeProcMsg env.toBaseLibrary s.stack c.arrived with
    | undefined => simp [hret] at hfault
    | returns pRet setProtocol =>
      cases pRet with
      | none => simp [hret] at hfault
      | some pResult => rfl
  · rw [if_neg hkey]

/-- A decoded message stays exactly when it is a data message without a handler. -/
theorem live_frame (hd : DeletesCreated c.toSession) (hm : BuiltFrom m fs)
    (hfault : (c.toSession.procMsg env s (frameMsg c.mstrProtocol m)).fault = none) :
    (c.toSession.procMsg env s (frameMsg c.mstrProtocol m)).live.length =
      c.live.length + if IsData m ∧ getHandler c.mstrProtocol = none then 1 else 0 := by
  have hcreated : (c.toSession.procMsg env s (frameMsg c.mstrProtocol m)).created = c.created + 1 := created_procMsg _
  have hdeleted : (c.toSession.procMsg env s (frameMsg c.mstrProtocol m)).deleted = _ := deleted_procMsg _
  rw [fault_procMsg, handlerMgrProcMsg_frame env s _ hm] at hfault
  rw [handlerMgrProcMsg_frame env s _ hm] at hdeleted
  by_cases hdata : IsData m
  · rw [if_pos hdata] at hfault hdeleted
    cases hh : getHandler c.mstrProtocol with
    | none =>
      rw [hh] at hdeleted
      rw [live_keep hd hcreated hdeleted, List.length_append, if_pos ⟨hdata, rfl⟩]
      rfl
    | some h =>
      rw [hh] at hdeleted hfault
      rw [if_neg (by simp)]
      cases h with
      | get => exact congrArg List.length (live_delete hcreated hdeleted)
      | upgrade => cases hfault
      | echo => exact congrArg List.length (live_delete hcreated hdeleted)
  · rw [if_neg hdata] at hdeleted
    rw [if_neg fun hboth => hdata hboth.1]
    exact congrArg List.length (live_delete hcreated hdeleted)

theorem LeakInv.step (h : LeakInv c) (hs : c.step env a = some c') : LeakInv c' := by
  have hinv := h.inv.step hs
  have hdeletes := (h.inv.takesDrops h.deletes hs).2
  have hfault := Conn.step_fault hs
  have hlive := h.live hfault
  cases a with
  | push chunk =>
    obtain ⟨_, rfl⟩ := step_push.mp hs
    exact ⟨hinv, hdeletes, h.waiting, fun _ => hlive⟩
  | proc s =>
    obtain ⟨⟨_, hidle, _⟩, rfl⟩ := step_proc.mp hs
    by_cases hstate : c.miState = .none
    · have hproc : c.procMsg env s = _ := Conn.procMsg_none h.inv hstate
      have hdel : (c.procMsg env s).delivered = [] := by
        rw [hproc]
        exact h.waiting hstate
      refine ⟨hinv, hdeletes, fun _ => hdel, fun hf => ?_⟩
      rw [Conn.leaked_of_none hdel]
      rw [Conn.leaked_of_none (h.waiting hstate)] at hlive
      rw [hproc] at hf ⊢
      dsimp only at hf ⊢
      split at hf
      · rename_i hget
        rw [if_pos hget, live_request hf, hlive]
      · rename_i hget
        rw [if_neg hget, hlive]
    · have hproc : c.procMsg env s = _ := Conn.procMsg_connect (WsState.eq_connect hstate) hidle
      refine ⟨hinv, hdeletes, ?_, ?_⟩
      · rw [hproc]
        exact h.waiting
      · rw [hproc]
        exact fun _ => hlive
  | decode junk s =>
    obtain ⟨hstate, ret, _, _, _, hr, hret, hout⟩ := h.inv.decode hs
    obtain ⟨hstate', hproto', _⟩ := h.inv.step_connect hstate hs
    refine ⟨hinv, hdeletes, fun hnone => absurd (hstate'.symm.trans hnone) (by decide), fun hf => ?_⟩
    rw [Conn.leaked, hstate, if_congr (and_iff_right rfl) rfl rfl] at hlive
    rw [Conn.leaked, hstate', hproto', if_congr (and_iff_right rfl) rfl rfl]
    rcases hout with ⟨_, h0, hsame⟩ | ⟨m, gs, hm, h1, hb, hsession⟩
    · have hdel : c'.delivered = c.delivered := by
        rw [hr, Receiver.afterCall, if_pos h0]
      rw [hsame, hdel, hlive]
    · have hdel : c'.delivered = c.delivered ++ [m] := by
        rw [hr]
        simp [Receiver.afterCall, h1, hret.trans hm]
      rw [hsession] at hf
      rw [hsession, live_frame h.deletes hb hf, hlive, hdel, List.countP_append, List.countP_singleton]
      by_cases hnone : getHandler c.mstrProtocol = none
      · simp [hnone]
      · simp [hnone]

theorem LeakInv.exec (h : LeakInv c) (hrun : Machine.exec (Conn.step env) c acts = some c') : LeakInv c' :=
  Machine.exec_invariant LeakInv (fun _ _ _ hi hs => hi.step hs) h hrun

/-- Messages that stay do so for good. -/
theorem LeakInv.live_le (h : LeakInv c) (hrun : Machine.exec (Conn.step env) c acts = some c') :
    c.live.length ≤ c'.live.length := by
  induction acts generalizing c with
  | nil =>
    cases hrun
    exact le_rfl
  | cons a acts ih =>
    obtain ⟨u, hu, hrun⟩ := Machine.exec_cons_eq_some.mp hrun
    obtain ⟨⟨m, k, _, _, _, hlive⟩, _⟩ := h.inv.takesDrops h.deletes hu
    have hrest := ih (h.step hu) hrun
    omega

/-- In every state of a server that lives, the messages of a client are its data messages
without a handler. It is deleted when it is found closed and its task has quit, unless
there are such messages; and if there are, then not in any later state either. -/
theorem leaked_exact (rules : RefRules) (env : Env) (hpos : 0 < rules.init + rules.held) (acts later : List ProcAct)
    (pr pr' : Process) (hrun : Machine.exec (Process.step rules env) .start acts = some pr) (halive : pr.fault = none)
    (p : ℕ) (hp : p ∈ accepted pr.events) (hlater : Machine.exec (Process.step rules env) pr later = some pr') :
    (pr.cli p).live.length = (pr.cli p).leaked ∧
      (pr.cli p).deletes =
        (if rules.init = 0 ∧ FoundClosed p pr.events ∧ (pr.cli p).quit = true ∧ (pr.cli p).leaked = 0 then 1 else 0) ∧
      ((pr.cli p).leaked ≠ 0 → (pr'.cli p).deletes = 0) := by
  have hlife := lifeInv_exec hpos hrun
  obtain ⟨bs, hbs, _⟩ := procInv_start.exec_client hrun p
  obtain ⟨cs, hcs, _⟩ := hlife.inv.exec_client hlater p
  have hleak : LeakInv (pr.cli p).toConn := leakInv_start.exec (Client.exec_conn hbs)
  have hlive : (pr.cli p).live.length = (pr.cli p).leaked := hleak.live (hlife.inv.alive halive p)
  refine ⟨hlive, ?_, fun hne => ?_⟩
  · rw [hlife.deletes_eq hpos hp, ← hlive]
    apply if_congr _ rfl rfl
    rw [List.length_eq_zero_iff]
  · have hle := hleak.live_le (Client.exec_conn hcs)
    have hlife' := lifeInv_exec hpos (Machine.exec_append.mpr ⟨pr, hrun, hlater⟩)
    have hacc : p ∈ accepted pr'.events := by
      by_contra hnew
      have hstart : (pr'.cli p).live = [] := congrArg (fun cl : Client => cl.live) (hlife'.inv.fresh p hnew)
      rw [hstart, List.length_nil] at hle
      omega
    rw [hlife'.deletes_eq hpos hacc, if_neg]
    rintro ⟨_, _, _, hnil⟩
    rw [hnil, List.length_nil] at hle
    omega

/-- A client sends a request and then a text. -/
def requestTextActs (request : List UInt8) : List ProcAct :=
  [.onAccept 0 0 1, .work 1 .testFlag, .onRecv 0 1 request, .post 1, .work 1 .wait,
    .work 1 (.procMsg zeroScratch), .onRecv 0 1 [0x81, 1, 97], .work 1 .leaveParse, .post 1, .work 1 .testFlag,
    .work 1 .wait, .work 1 (.procMsg zeroScratch), .work 1 (.decodeMsg zeros zeroScratch)]

/-- It closes, a tick finds it and its task quits, which no other client would outlive. -/
def leaveActs : List ProcAct :=
  [.work 1 (.decodeMsg zeros zeroScratch), .onClose 1, .onBaseTimer (fun _ => 0) fun _ => false, .work 1 .leaveParse,
    .work 1 .testFlag, .taskQuit 1]

/-- No handler is registered for the protocol that it asks for. -/
theorem leaked_exact_chat :
    ∃ pr pr', Machine.exec (Process.step ⟨0, 1⟩ sampleEnv) .start
        (requestTextActs (sampleRequest (ascii "chat") (by decide) (by decide)).text) = some pr ∧
      Machine.exec (Process.step ⟨0, 1⟩ sampleEnv) pr leaveActs = some pr' ∧ (pr'.cli 1).quit = true ∧
      (pr.cli 1).live.length = 1 ∧ (pr'.cli 1).deletes = 0 := by
  have hstates : (Machine.exec (Process.step ⟨0, 1⟩ sampleEnv) .start
      (requestTextActs (sampleRequest (ascii "chat") (by decide) (by decide)).text)).bind (fun pr =>
      (Machine.exec (Process.step ⟨0, 1⟩ sampleEnv) pr leaveActs).map fun pr' =>
        ((pr.fault, accepted pr.events), (pr.cli 1).leaked, (pr'.cli 1).quit)) = some ((none, [1]), 1, true) := by
    decide +kernel
  obtain ⟨pr, hrun, hstates⟩ := Option.bind_eq_some_iff.mp hstates
  obtain ⟨pr', hlater, hstates⟩ := Option.map_eq_some_iff.mp hstates
  simp only [Prod.mk.injEq] at hstates
  obtain ⟨⟨halive, hacc⟩, hleaked, hquit⟩ := hstates
  obtain ⟨hlive, _, hnever⟩ := leaked_exact ⟨0, 1⟩ sampleEnv (by decide) _ leaveActs pr pr' hrun halive 1
    (by simp [hacc]) hlater
  exact ⟨pr, pr', hrun, hlater, hquit, hlive.trans hleaked, hnever (by simp [hleaked])⟩

end SrWebSocket
