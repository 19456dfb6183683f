import SrWebSocket.Server.Conversation
import SrWebSocket.System.Components

/-! # What the server does for each of its clients

A client that is upgraded is answered according to what it was sent since then,
whatever the server does for its other clients. Its worker needs no other thread to
come to an end with all of it.
-/
namespace SrWebSocket

variable {rules : RefRules} {env : Env} {pr pr' : Process} {a : ProcAct} {p : ℕ} {bs : List ClientAct} {b : ClientAct}
  {cl cl' : Client}

/-- Only a step of its own worker changes a client's session. -/
theorem ProcInv.session_changes (h : ProcInv pr) (hs : pr.step rules env a = some pr')
    (hne : (pr'.cli p).toSession ≠ (pr.cli p).toSession) :
    ∃ b, (pr.cli p).toClient.step env b = some (pr'.cli p).toClient := by
  have hself (x : SvrCli) : ((pr.setCli p x).cli p).toClient = x.toClient := by rw [setCli_self]
  have hkeep {x : SvrCli} {q : ℕ} (hx : x.toSession = (pr.cli q).toSession) :
      ((pr.setCli q x).cli p).toSession = (pr.cli p).toSession := by
    rcases eq_or_ne p q with rfl | hq
    · rw [setCli_self, hx]
    · rw [setCli_of_ne hq]
  cases Process.step_cases hs with
  | onAccept now pUvTcp pCli hidle hnew =>
    rcases eq_or_ne p pCli with rfl | hq
    · refine absurd ?_ hne
      rw [setCli_self, h.fresh p hnew]
      rfl
    · refine absurd ?_ hne
      rw [setCli_of_ne hq]
      rfl
  | noData now pCli hidle hopen => exact absurd rfl hne
  | onRecv now pCli pMsg cl hidle hopen hnil hcl => exact (hne (hkeep (Client.step_network hcl id).1)).elim
  | post pCli cl halive hrecv hcl => exact (hne (hkeep (Client.step_network hcl id).1)).elim
  | onSend now pCli hidle hopen => exact (hne (hkeep rfl)).elim
  | onClose pCli hidle hopen => exact absurd rfl hne
  | onBaseTimer clock atOnce svr hidle hsvr => exact absurd rfl hne
  | broadCast pData halive => exact absurd rfl hne
  | work pCli b cl halive hacc ha hcl =>
    rcases eq_or_ne p pCli with rfl | hq
    · exact ⟨b, by rw [hself]; exact hcl⟩
    · refine absurd ?_ hne
      rw [setCli_of_ne hq]
  | taskQuit pCli halive hacc hleft hquit => exact (hne (hkeep rfl)).elim

/-- The upgrade of a client and what follows it, seen from that client. -/
theorem exec_upgraded {acts later : List ProcAct} {pr₀ pr₁ : Process}
    (hrun : Machine.exec (Process.step rules env) .start acts = some pr₀) (hnone : (pr₀.cli p).miState = .none)
    (hup : pr₀.step rules env a = some pr₁) (hconn : (pr₁.cli p).miState = .connect)
    (hlater : Machine.exec (Process.step rules env) pr₁ later = some pr) :
    ∃ bs b cs, Machine.exec (Client.step env) .start bs = some (pr₀.cli p).toClient ∧
      (pr₀.cli p).toClient.step env b = some (pr₁.cli p).toClient ∧
      Machine.exec (Client.step env) (pr₁.cli p).toClient cs = some (pr.cli p).toClient ∧
      cs.flatMap ClientAct.chunks = later.flatMap (ProcAct.chunksTo p) := by
  have hinv := procInv_exec hrun
  obtain ⟨bs, hbs, _⟩ := procInv_start.exec_client hrun p
  obtain ⟨b, hb⟩ := hinv.session_changes hup fun he =>
    absurd ((congrArg Session.miState he).symm.trans hconn) (by rw [hnone]; decide)
  obtain ⟨cs, hcs, hchunks⟩ := (hinv.step hup).exec_client hlater p
  exact ⟨bs, b, cs, hbs, hb, hcs, hchunks⟩

/-- In every run of the server, a client that is upgraded is answered as the messages
say that it was sent since then, whatever the server does for others: in their order,
none of them twice, and all of them when the client's worker waits and no cut was unsafe. -/
theorem server_answers (rules : RefRules) (env : Env) (acts later : List ProcAct) (a : ProcAct) (pr₀ pr₁ pr : Process)
    (p : ℕ) (hrun : Machine.exec (Process.step rules env) .start acts = some pr₀) (hnone : (pr₀.cli p).miState = .none)
    (hup : pr₀.step rules env a = some pr₁) (hconn : (pr₁.cli p).miState = .connect)
    (hlater : Machine.exec (Process.step rules env) pr₁ later = some pr) (ms : List WireMsg) (os : List (List UInt8))
    (ho : OpenFrames os)
    (hwire : (later.flatMap (ProcAct.chunksTo p)).flatten = ms.flatMap WireMsg.wire ++ os.flatten) :
    (pr.cli p).events = (pr₁.cli p).events ++ (pr.cli p).delivered.filterMap (answer env (pr₁.cli p).mstrProtocol) ∧
      (pr.cli p).delivered <+: ms.map WireMsg.message ∧
      (Quiet (pr.cli p).toClient → CutsSafe (ms.flatMap WireMsg.frames ++ os) (later.flatMap (ProcAct.chunksTo p)) →
        (pr.cli p).delivered = ms.map WireMsg.message) := by
  obtain ⟨bs, b, cs, hbs, hb, hcs, hchunks⟩ := exec_upgraded hrun hnone hup hconn hlater
  have hreach : Machine.exec (Client.step env) .start (bs ++ b :: cs) = some (pr.cli p).toClient :=
    Machine.exec_append.mpr ⟨_, hbs, Machine.exec_cons_eq_some.mpr ⟨_, hb, hcs⟩⟩
  have h := Client.streams hbs hnone hb hconn hcs
  rw [hchunks] at h
  refine ⟨h.events, h.delivered_prefix ho (hwire ▸ List.prefix_rfl), fun hquiet hsafe => ?_⟩
  have hidle := Client.exec_idle hreach (by rw [hquiet.task]; decide)
  exact h.delivered_all ho hwire hsafe hidle (hquiet.mpRecvBuffer hreach)

/-- A client asks for the echo protocol while another one is accepted. -/
def upgradeActs : List ProcAct :=
  [.onAccept 0 0 1, .work 1 .testFlag, .onRecv 0 1 echoRequest.text, .post 1, .onAccept 0 0 2, .work 1 .wait]

/-- It sends a text, and the other one sends something too. -/
def mixedActs : List ProcAct :=
  [.onRecv 0 1 [0x81, 1, 97], .work 1 .leaveParse, .post 1, .work 2 .testFlag, .onRecv 0 2 [71], .work 1 .testFlag,
    .post 2, .work 1 .wait, .work 2 .wait, .work 1 (.procMsg zeroScratch), .work 2 (.procMsg zeroScratch), .onClose 2,
    .work 1 (.decodeMsg zeros zeroScratch), .work 1 (.decodeMsg zeros zeroScratch), .work 1 .leaveParse, .work 1 .testFlag]

theorem server_answers_mixed :
    ∃ pr₁ pr, Machine.exec (Process.step ⟨0, 1⟩ sampleEnv) pr₁ mixedActs = some pr ∧
      (pr.cli 1).delivered = [textA.message] ∧
      (pr.cli 1).events = (pr₁.cli 1).events ++
        (pr.cli 1).delivered.filterMap (answer sampleEnv (pr₁.cli 1).mstrProtocol) := by
  have hstates : (Machine.exec (Process.step ⟨0, 1⟩ sampleEnv) .start upgradeActs).bind (fun pr₀ =>
      (pr₀.step ⟨0, 1⟩ sampleEnv (.work 1 (.procMsg zeroScratch))).bind fun pr₁ =>
        (Machine.exec (Process.step ⟨0, 1⟩ sampleEnv) pr₁ mixedActs).map fun pr =>
          ((pr₀.cli 1).miState, (pr₁.cli 1).miState, decide (Quiet (pr.cli 1).toClient))) =
      some (.none, .connect, true) := by decide +kernel
  obtain ⟨pr₀, hrun, hstates⟩ := Option.bind_eq_some_iff.mp hstates
  obtain ⟨pr₁, hup, hstates⟩ := Option.bind_eq_some_iff.mp hstates
  obtain ⟨pr, hlater, hstates⟩ := Option.map_eq_some_iff.mp hstates
  simp only [Prod.mk.injEq] at hstates
  obtain ⟨hnone, hconn, hquiet⟩ := hstates
  have hsafe : CutsSafe ([textA].flatMap WireMsg.frames ++ []) (mixedActs.flatMap (ProcAct.chunksTo 1)) :=
    cutsSafe_whole textA.frames_whole
  obtain ⟨hevents, _, hall⟩ := server_answers ⟨0, 1⟩ sampleEnv upgradeActs mixedActs (.work 1 (.procMsg zeroScratch))
    pr₀ pr₁ pr 1 hrun hnone hup hconn hlater [textA] [] openFrames_nil (by decide)
  exact ⟨pr₁, pr, hlater, hall (of_decide_eq_true hquiet) hsafe, hevents⟩

/-- In every run of the server, and whatever memory its handlers find: the handler calls
for a client are told by the chunks that it was sent. Each text before its upgrade is what
came between two calls of `ProcMsg`; there is a page for each of them that starts with GET,
one upgrade for the first with a key, and an answer to each message that is decoded from
what came after that text was taken. -/
theorem server_conversation (rules : RefRules) (env : Env) (acts : List ProcAct) (pr : Process)
    (hrun : Machine.exec (Process.step rules env) .start acts = some pr) (p : ℕ) :
    Conversation env (acts.flatMap (ProcAct.chunksTo p)) (pr.cli p).toConn := by
  obtain ⟨bs, hbs, hchunks⟩ := procInv_start.exec_client hrun p
  have h := conversation_exec (Client.exec_conn hbs)
  have hpushes : (bs.flatMap ClientAct.conn).flatMap ConnAct.pushes = bs.flatMap ClientAct.chunks := by
    rw [List.flatMap_assoc]
    exact List.flatMap_congr fun b _ => pushes_conn b
  rwa [hpushes, hchunks] at h

theorem server_conversation_echo :
    ∃ pr, Machine.exec (Process.step ⟨0, 1⟩ sampleEnv) .start (upgradeActs ++ [.work 1 (.procMsg zeroScratch)]) = some pr ∧
      (pr.cli 1).miState = .connect ∧ Conversation sampleEnv [echoRequest.text] (pr.cli 1).toConn ∧
      Conversation sampleEnv [] (pr.cli 2).toConn := by
  have hstate : (Machine.exec (Process.step ⟨0, 1⟩ sampleEnv) .start (upgradeActs ++ [.work 1 (.procMsg zeroScratch)])).map
      (fun pr => (pr.cli 1).miState) = some .connect := by decide +kernel
  obtain ⟨pr, hrun, hstate⟩ := Option.map_eq_some_iff.mp hstate
  have htalk (p : ℕ) := server_conversation ⟨0, 1⟩ sampleEnv _ pr hrun p
  exact ⟨pr, hrun, hstate, htalk 1, htalk 2⟩

/-- Every byte that an upgraded client has sent belongs to a message that was handed out or
is still in its buffers. So a frame that the decoder takes for none, such as an empty one,
and all behind it, stays in memory, and nothing behind it is handed out. -/
theorem server_accounts (rules : RefRules) (env : Env) (acts later : List ProcAct) (a : ProcAct) (pr₀ pr₁ pr : Process)
    (p : ℕ) (hrun : Machine.exec (Process.step rules env) .start acts = some pr₀) (hnone : (pr₀.cli p).miState = .none)
    (hup : pr₀.step rules env a = some pr₁) (hconn : (pr₁.cli p).miState = .connect)
    (hlater : Machine.exec (Process.step rules env) pr₁ later = some pr) (ms : List WireMsg) (os : List (List UInt8))
    (ho : OpenFrames os) (t : List UInt8) (ht : frameUnits.size t = none)
    (hsent : (later.flatMap (ProcAct.chunksTo p)).flatten <+: ms.flatMap WireMsg.wire ++ os.flatten ++ t) :
    ∃ ms₁ ms₂, ms = ms₁ ++ ms₂ ∧ (pr.cli p).delivered = ms₁.map WireMsg.message ∧
      (later.flatMap (ProcAct.chunksTo p)).flatten = ms₁.flatMap WireMsg.wire ++ (pr.cli p).arrived := by
  obtain ⟨bs, b, cs, hbs, hb, hcs, hchunks⟩ := exec_upgraded hrun hnone hup hconn hlater
  have h := Client.streams hbs hnone hb hconn hcs
  rw [hchunks] at h
  exact h.accounts ho ht hsent

/-- An empty PING stands before the text, which is never handed out. -/
theorem server_accounts_empty :
    ∃ pr₁ pr, Machine.exec (Process.step ⟨0, 1⟩ sampleEnv) pr₁
        [.onRecv 0 1 [0x89, 0, 0x81, 1, 97], .work 1 .leaveParse, .post 1, .work 1 .testFlag, .work 1 .wait,
          .work 1 (.procMsg zeroScratch), .work 1 (.decodeMsg zeros zeroScratch)] = some pr ∧
      (pr.cli 1).delivered = [] ∧ (pr.cli 1).arrived = [0x89, 0, 0x81, 1, 97] := by
  have hstates : (Machine.exec (Process.step ⟨0, 1⟩ sampleEnv) .start upgradeActs).bind (fun pr₀ =>
      (pr₀.step ⟨0, 1⟩ sampleEnv (.work 1 (.procMsg zeroScratch))).bind fun pr₁ =>
        (Machine.exec (Process.step ⟨0, 1⟩ sampleEnv) pr₁
          [.onRecv 0 1 [0x89, 0, 0x81, 1, 97], .work 1 .leaveParse, .post 1, .work 1 .testFlag, .work 1 .wait,
            .work 1 (.procMsg zeroScratch), .work 1 (.decodeMsg zeros zeroScratch)]).map fun _ =>
          ((pr₀.cli 1).miState, (pr₁.cli 1).miState)) = some (.none, .connect) := by decide +kernel
  obtain ⟨pr₀, hrun, hstates⟩ := Option.bind_eq_some_iff.mp hstates
  obtain ⟨pr₁, hup, hstates⟩ := Option.bind_eq_some_iff.mp hstates
  obtain ⟨pr, hlater, hstates⟩ := Option.map_eq_some_iff.mp hstates
  obtain ⟨hnone, hconn⟩ := Prod.mk.inj hstates
  obtain ⟨ms₁, ms₂, hms, hdel, hsent⟩ := server_accounts ⟨0, 1⟩ sampleEnv upgradeActs _ (.work 1 (.procMsg zeroScratch))
    pr₀ pr₁ pr 1 hrun hnone hup hconn hlater [] [] openFrames_nil [0x89, 0, 0x81, 1, 97] (by decide) List.prefix_rfl
  obtain ⟨rfl, _⟩ := List.append_eq_nil_iff.mp hms.symm
  exact ⟨pr₁, pr, hlater, hdel, hsent.symm⟩

/-! ## One worker by itself -/

theorem Client.step_fault (hs : cl.step env b = some cl') : cl.fault = none := by
  by_contra hf
  cases b <;> simp [Client.step, Conn.step, hf] at hs

/-- What a worker can do, it can do whatever the other clients are like. -/
theorem Process.step_work (rules : RefRules) (halive : pr.fault = none) (hacc : p ∈ accepted pr.events)
    (hb : b.OfWorker) (hs : (pr.cli p).toClient.step env b = some cl) :
    ∃ pr', pr.step rules env (.work p b) = some pr' ∧ (pr'.cli p).toClient = cl ∧ pr'.fault = cl.fault ∧
      pr'.events = pr.events ∧ ∀ q, q ≠ p → pr'.cli q = pr.cli q := by
  refine ⟨{ pr.setCli p ((pr.cli p).work cl) with fault := cl.fault }, ?_, ?_, rfl, rfl, fun q hq => setCli_of_ne hq⟩
  · rw [Process.step, if_pos ⟨halive, hacc, hb⟩, hs]
    rfl
  · have hself : (pr.setCli p ((pr.cli p).work cl)).cli p = (pr.cli p).work cl := setCli_self
    exact congrArg SvrCli.toClient hself

theorem Process.exec_work (rules : RefRules) (halive : pr.fault = none) (hacc : p ∈ accepted pr.events)
    (hW : ∀ b ∈ bs, ClientAct.OfWorker b) (hrun : Machine.exec (Client.step env) (pr.cli p).toClient bs = some cl) :
    ∃ pr', Machine.exec (Process.step rules env) pr (bs.map (.work p)) = some pr' ∧ (pr'.cli p).toClient = cl ∧
      (cl.fault = none → pr'.fault = none) ∧ pr'.events = pr.events ∧ ∀ q, q ≠ p → pr'.cli q = pr.cli q := by
  induction bs generalizing pr with
  | nil => exact ⟨pr, rfl, Option.some.inj hrun, fun _ => halive, rfl, fun q _ => rfl⟩
  | cons b bs ih =>
    obtain ⟨u, hu, hrest⟩ := Machine.exec_cons_eq_some.mp hrun
    obtain ⟨hb, hW⟩ := List.forall_mem_cons.mp hW
    obtain ⟨pr₁, hstep, rfl, hfault, hevents, hother⟩ := Process.step_work rules halive hacc hb hu
    cases bs with
    | nil =>
      obtain rfl := Option.some.inj hrest
      exact ⟨pr₁, Machine.exec_one hstep, rfl, hfault.trans, hevents, hother⟩
    | cons b' bs =>
      obtain ⟨v, hv, _⟩ := Machine.exec_cons_eq_some.mp hrest
      obtain ⟨pr', hpr', hcl, hfault', hevents', hq⟩ := ih (hfault.trans (Client.step_fault hv)) (hevents ▸ hacc) hW hrest
      exact ⟨pr', Machine.exec_cons_eq_some.mpr ⟨_, hstep, hpr'⟩, hcl, hfault', hevents'.trans hevents,
        fun q hne => (hq q hne).trans (hother q hne)⟩

/-- From any state of a server that has not died, the worker of an open client has a
run of its own to a state in which that client has been answered all that it was sent
since its upgrade, and nothing else has changed. -/
theorem server_drains (rules : RefRules) (env : Env) (acts later : List ProcAct) (a : ProcAct) (pr₀ pr₁ pr : Process)
    (p : ℕ) (hrun : Machine.exec (Process.step rules env) .start acts = some pr₀) (hnone : (pr₀.cli p).miState = .none)
    (hup : pr₀.step rules env a = some pr₁) (hconn : (pr₁.cli p).miState = .connect)
    (hproto : (pr₁.cli p).mstrProtocol ≠ fieldWebsocketKey)
    (hlater : Machine.exec (Process.step rules env) pr₁ later = some pr) (halive : pr.fault = none) (hopen : pr.Open p)
    (hrecv : pr.inRecv ≠ some p) (ms : List WireMsg) (os : List (List UInt8)) (ho : OpenFrames os)
    (hwire : (later.flatMap (ProcAct.chunksTo p)).flatten = ms.flatMap WireMsg.wire ++ os.flatten)
    (hsafe : CutsSafe (ms.flatMap WireMsg.frames ++ os) (later.flatMap (ProcAct.chunksTo p)))
    (hlen : (later.flatMap (ProcAct.chunksTo p)).flatten.length < 2 ^ 63) :
    ∃ (bs : List ClientAct) (pr' : Process), (∀ b ∈ bs, b.OfWorker) ∧
      Machine.exec (Process.step rules env) pr (bs.map (.work p)) = some pr' ∧ (∀ q, q ≠ p → pr'.cli q = pr.cli q) ∧
      (pr'.cli p).delivered = ms.map WireMsg.message ∧
      (pr'.cli p).events =
        (pr₁.cli p).events ++ (ms.map WireMsg.message).filterMap (answer env (pr₁.cli p).mstrProtocol) := by
  have hinv' : ProcInv pr := Machine.exec_invariant ProcInv (fun _ _ _ hi hs => hi.step hs) ((procInv_exec hrun).step hup) hlater
  obtain ⟨cs, b, ds, hcs, hb, hds, hchunks⟩ := exec_upgraded hrun hnone hup hconn hlater
  have hserves := serves_later hcs hnone hb hconn hds
  rw [hchunks] at hserves
  have hno : ¬Conflict (later.flatMap (ProcAct.chunksTo p)).flatten := hwire ▸ not_conflict_open ms ho
  obtain ⟨bs, cl, hW, hworker, hrest⟩ := hserves.exists_rests hno
  obtain ⟨pr', hpr', rfl, _, _, hother⟩ := Process.exec_work rules halive hopen.1 hW hworker
  have hserves' := hserves.exec hserves.protocol_ne_nil hW hworker
  obtain ⟨hflag, hout⟩ := Client.exec_ofWorker hW hworker
  have hreach : Machine.exec (Client.step env) .start (cs ++ b :: (ds ++ bs)) = some (pr'.cli p).toClient :=
    Machine.exec_append.mpr ⟨_, hcs, Machine.exec_cons_eq_some.mpr ⟨_, hb, Machine.exec_append.mpr ⟨_, hds, hworker⟩⟩⟩
  have hquiet : Quiet (pr'.cli p).toClient := by
    rcases hserves'.rests hproto hno hlen hrest with hleft | ⟨htask, hsem⟩
    · have hclosed := Client.closed_of_left hreach hleft
      rw [hflag, hopen.2] at hclosed
      cases hclosed
    · refine ⟨htask, hsem, ?_⟩
      rw [hout]
      cases hpos : (pr.cli p).recv with
      | outside => rfl
      | pushed => exact absurd ((hinv'.recv p).mp hpos) hrecv
  have hall := hserves'.streams.delivered_all ho hwire hsafe (hserves'.idle (by rw [hquiet.task]; decide))
    (hquiet.mpRecvBuffer hreach)
  exact ⟨bs, pr', hW, hpr', hother, hall, hall ▸ hserves'.streams.events⟩

/-- The network thread has the second client's bytes in its hands while the first worker goes on. -/
theorem server_drains_mixed :
    ∃ pr₁ pr pr' bs, Machine.exec (Process.step ⟨0, 1⟩ sampleEnv) pr₁
        [.onRecv 0 1 [0x81, 1, 97], .work 1 .leaveParse, .post 1, .onRecv 0 2 [71]] = some pr ∧
      Machine.exec (Process.step ⟨0, 1⟩ sampleEnv) pr (List.map (.work 1) bs) = some pr' ∧ pr'.cli 2 = pr.cli 2 ∧
      (pr'.cli 1).delivered = [textA.message] := by
  have hstates : (Machine.exec (Process.step ⟨0, 1⟩ sampleEnv) .start upgradeActs).bind (fun pr₀ =>
      (pr₀.step ⟨0, 1⟩ sampleEnv (.work 1 (.procMsg zeroScratch))).bind fun pr₁ =>
        (Machine.exec (Process.step ⟨0, 1⟩ sampleEnv) pr₁
          [.onRecv 0 1 [0x81, 1, 97], .work 1 .leaveParse, .post 1, .onRecv 0 2 [71]]).map fun pr =>
            ((((pr₀.cli 1).miState, (pr₁.cli 1).miState), decide ((pr₁.cli 1).mstrProtocol = wsProtocolEcho)),
              (pr.fault, pr.inRecv), decide (pr.Open 1))) =
      some (((.none, .connect), true), (none, some 2), true) := by decide +kernel
  obtain ⟨pr₀, hrun, hstates⟩ := Option.bind_eq_some_iff.mp hstates
  obtain ⟨pr₁, hup, hstates⟩ := Option.bind_eq_some_iff.mp hstates
  obtain ⟨pr, hlater, hstates⟩ := Option.map_eq_some_iff.mp hstates
  simp only [Prod.mk.injEq] at hstates
  obtain ⟨⟨⟨hnone, hconn⟩, hecho⟩, ⟨halive, hrecv⟩, hopen⟩ := hstates
  have hproto : (pr₁.cli 1).mstrProtocol ≠ fieldWebsocketKey := by
    rw [of_decide_eq_true hecho]
    decide
  have hsafe : CutsSafe ([textA].flatMap WireMsg.frames ++ []) (List.flatMap (ProcAct.chunksTo 1)
      [.onRecv 0 1 [0x81, 1, 97], .work 1 .leaveParse, .post 1, .onRecv 0 2 [71]]) := cutsSafe_whole textA.frames_whole
  obtain ⟨bs, pr', _, hworker, hother, hall, _⟩ := server_drains ⟨0, 1⟩ sampleEnv upgradeActs _
    (.work 1 (.procMsg zeroScratch)) pr₀ pr₁ pr 1 hrun hnone hup hconn hproto hlater halive (of_decide_eq_true hopen)
    (by rw [hrecv]; decide) [textA] [] openFrames_nil (by decide) hsafe (by decide)
  exact ⟨pr₁, pr, pr', bs, hlater, hworker, hother 2 (by decide), hall⟩

end SrWebSocket
