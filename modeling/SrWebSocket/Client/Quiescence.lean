import SrWebSocket.Client.Threads
import SrWebSocket.Server.Arrivals
import SrWebSocket.Stream.SplitStream

/-! # A client whose worker waits

The worker comes to wait without a permit only when it has moved and parsed all that
was pushed. So with safe cuts everything that was sent has been answered by then, in
whatever order the threads took their steps.
-/
namespace SrWebSocket

/-- The chunks that an action gives to `PushMsg`; `OnRecv` without data gives none. -/
def ClientAct.chunks : ClientAct → List (List UInt8)
  | .pushMsg pMsg => if 0 < pMsg.length then [pMsg] else []
  | .post | .onClose | .testFlag | .wait | .procMsg _ | .decodeMsg _ _ | .leaveParse => []

/-- The worker waits without a permit and the network thread is not in `OnRecv`. -/
structure Quiet (cl : Client) : Prop where
  task : cl.task = .wait
  mcUvSem : cl.mcUvSem = 0
  recv : cl.recv = .outside

instance (cl : Client) : Decidable (Quiet cl) :=
  decidable_of_iff (cl.task = .wait ∧ cl.mcUvSem = 0 ∧ cl.recv = .outside)
    ⟨fun h => ⟨h.1, h.2.1, h.2.2⟩, fun h => ⟨h.task, h.mcUvSem, h.recv⟩⟩

variable {env : Env} {cl cl' cl₀ cl₁ : Client} {a : ClientAct} {acts : List ClientAct}

theorem pushes_conn (a : ClientAct) : a.conn.flatMap ConnAct.pushes = a.chunks := by
  cases a with
  | pushMsg pMsg =>
    rw [ClientAct.conn, ClientAct.chunks]
    by_cases hpos : 0 < pMsg.length
    · rw [if_pos hpos, if_pos hpos]
      rfl
    · rw [if_neg hpos, if_neg hpos]
      rfl
  | post => rfl
  | onClose => rfl
  | testFlag => rfl
  | wait => rfl
  | procMsg s => rfl
  | decodeMsg junk s => rfl
  | leaveParse => rfl

theorem flatten_chunks (a : ClientAct) : a.chunks.flatten = a.bytes := by
  cases a with
  | pushMsg pMsg =>
    rw [ClientAct.chunks, ClientAct.bytes]
    by_cases hpos : 0 < pMsg.length
    · rw [if_pos hpos]
      exact List.append_nil pMsg
    · rw [if_neg hpos]
      exact (List.length_eq_zero_iff.mp (Nat.eq_zero_of_not_pos hpos)).symm
  | post => rfl
  | onClose => rfl
  | testFlag => rfl
  | wait => rfl
  | procMsg s => rfl
  | decodeMsg junk s => rfl
  | leaveParse => rfl

theorem flatten_flatMap_chunks (acts : List ClientAct) :
    (acts.flatMap ClientAct.chunks).flatten = acts.flatMap ClientAct.bytes := by
  rw [← List.flatMap_id, List.flatMap_assoc]
  exact congrArg (acts.flatMap ·) (funext fun a => List.flatMap_id.trans (flatten_chunks a))

/-- Outside `ParseMsg` the loop is over. -/
theorem Client.step_idle (h : cl.task ≠ .parse → cl.parsing = false) (hs : cl.step env a = some cl') :
    cl'.task ≠ .parse → cl'.parsing = false := by
  cases Client.step_cases hs with
  | noData hrecv => exact h
  | pushMsg pMsg c hrecv hne hc =>
    obtain ⟨_, rfl⟩ := step_push.mp hc
    exact h
  | post hrecv => exact h
  | onClose hrecv hopen => exact h
  | stay htask hopen => exact fun _ => h (by simp [htask])
  | leave htask hclosed => exact fun _ => h (by simp [htask])
  | wait htask hsem => exact fun _ => h (by simp [htask])
  | procMsg s c htask hc => exact fun hp => absurd rfl hp
  | decodeMsg junk s c htask hc => exact fun hp => absurd htask hp
  | leaveParse htask hidle => exact fun _ => hidle

theorem Client.exec_idle (hrun : Machine.exec (Client.step env) .start acts = some cl) (htask : cl.task ≠ .parse) :
    cl.parsing = false :=
  Machine.exec_invariant (fun cl => cl.task ≠ .parse → cl.parsing = false)
    (fun _ _ _ hi hs => Client.step_idle hi hs) (fun _ => rfl) hrun htask

/-- A quiet client has moved everything that it received. -/
theorem Quiet.mpRecvBuffer (h : Quiet cl) (hrun : Machine.exec (Client.step env) .start acts = some cl) :
    cl.mpRecvBuffer = [] := by
  obtain ⟨bs, cli, hcli, _, hsame⟩ := sameThreads_start.exec hrun
  have hinv := workerInv_exec hcli
  by_contra hne
  rw [← hsame.mpRecvBuffer] at hne
  rcases hinv.woken hne with hpos | hpushed | hmove
  · exact absurd (hsame.mcUvSem.trans h.mcUvSem) hpos.ne'
  · exact absurd ((hsame.recv.trans h.recv).symm.trans hpushed) (by decide)
  · exact absurd ((hsame.task.trans h.task).symm.trans hmove) (by decide)

/-- A client streams what is pushed after the step that upgrades it. -/
theorem Client.streams {later : List ClientAct} (hrun : Machine.exec (Client.step env) .start acts = some cl₀)
    (hnone : cl₀.miState = .none) (hs : cl₀.step env a = some cl₁) (hconn : cl₁.miState = .connect)
    (hlater : Machine.exec (Client.step env) cl₁ later = some cl) :
    Streams env cl₁.mstrProtocol cl₁.events (later.flatMap ClientAct.chunks) cl.toConn := by
  have hpushes : (later.flatMap ClientAct.conn).flatMap ConnAct.pushes = later.flatMap ClientAct.chunks := by
    rw [List.flatMap_assoc]
    exact congrArg (later.flatMap ·) (funext pushes_conn)
  obtain ⟨x, hx⟩ : ∃ x, cl₀.toConn.step env x = some cl₁.toConn := by
    cases Client.step_cases hs with
    | pushMsg pMsg c hrecv hne hc => exact ⟨_, hc⟩
    | procMsg s c htask hc => exact ⟨_, hc⟩
    | decodeMsg junk s c htask hc => exact ⟨_, hc⟩
    | noData hrecv => exact absurd (hnone.symm.trans hconn) (by decide)
    | post hrecv => exact absurd (hnone.symm.trans hconn) (by decide)
    | onClose hrecv hopen => exact absurd (hnone.symm.trans hconn) (by decide)
    | stay htask hopen => exact absurd (hnone.symm.trans hconn) (by decide)
    | leave htask hclosed => exact absurd (hnone.symm.trans hconn) (by decide)
    | wait htask hsem => exact absurd (hnone.symm.trans hconn) (by decide)
    | leaveParse htask hidle => exact absurd (hnone.symm.trans hconn) (by decide)
  obtain ⟨hp, hup⟩ := streams_upgraded (Client.exec_conn hrun) hnone hx hconn
  rw [← hpushes, ← List.nil_append (List.flatMap _ _)]
  exact hup.exec hp (Client.exec_conn hlater)

/-- Once a client is upgraded, the peer's messages are handed out in their order,
whatever the order of the threads' steps, the cuts and the memory; and when the
worker waits without a permit and the cuts were safe, all of them have been handed
out and answered. -/
theorem quiet_answered (env : Env) (acts later : List ClientAct) (a : ClientAct) (cl₀ cl₁ cl : Client)
    (hrun : Machine.exec (Client.step env) .start acts = some cl₀) (hnone : cl₀.miState = .none)
    (hup : cl₀.step env a = some cl₁) (hconn : cl₁.miState = .connect)
    (hlater : Machine.exec (Client.step env) cl₁ later = some cl) (ms : List WireMsg) (os : List (List UInt8))
    (ho : OpenFrames os) (hwire : later.flatMap ClientAct.bytes = ms.flatMap WireMsg.wire ++ os.flatten) :
    cl.events = cl₁.events ++ cl.delivered.filterMap (answer env cl₁.mstrProtocol) ∧
      cl.delivered <+: ms.map WireMsg.message ∧
      (Quiet cl → CutsSafe (ms.flatMap WireMsg.frames ++ os) (later.flatMap ClientAct.chunks) →
        cl.mpRecvBuffer = [] ∧ cl.delivered = ms.map WireMsg.message) := by
  have h := Client.streams hrun hnone hup hconn hlater
  have hflat := (flatten_flatMap_chunks later).trans hwire
  have hreach : Machine.exec (Client.step env) .start (acts ++ a :: later) = some cl :=
    Machine.exec_append.mpr ⟨cl₀, hrun, Machine.exec_cons_eq_some.mpr ⟨cl₁, hup, hlater⟩⟩
  refine ⟨h.events, h.delivered_prefix ho (hflat ▸ List.prefix_rfl), fun hquiet hsafe => ?_⟩
  have hmoved := hquiet.mpRecvBuffer hreach
  have hidle := Client.exec_idle hreach (by rw [hquiet.task]; decide)
  exact ⟨hmoved, h.delivered_all ho hflat hsafe hidle hmoved⟩

theorem wsFrameText_ne_zero : wsFrameText ≠ 0 := by decide

theorem wsFrameText_lt : wsFrameText.toNat < 16 := by decide

/-- The TEXT message `a`. -/
def textA : WireMsg where
  opcode := wsFrameText
  opcode_ne := wsFrameText_ne_zero
  opcode_lt := wsFrameText_lt
  first := letterA
  more := []

/-- A request for the echo protocol is pushed and waits to be processed. -/
def requestActs : List ClientAct :=
  [.testFlag, .pushMsg echoRequest.text, .post, .wait]

/-- The message arrives while the worker is still in the `ParseMsg` of the upgrade. -/
def textActs : List ClientAct :=
  [.pushMsg [0x81, 1, 97], .leaveParse, .post, .testFlag, .wait, .procMsg zeroScratch,
    .decodeMsg zeros zeroScratch, .decodeMsg zeros zeroScratch, .leaveParse, .testFlag]

theorem quiet_answered_echo :
    ∃ cl₁ cl, Machine.exec (Client.step sampleEnv) cl₁ textActs = some cl ∧ Quiet cl ∧ cl.delivered = [textA.message] ∧
      cl.events = cl₁.events ++ cl.delivered.filterMap (answer sampleEnv cl₁.mstrProtocol) := by
  have hstates : (Machine.exec (Client.step sampleEnv) .start requestActs).bind (fun cl₀ =>
      (cl₀.step sampleEnv (.procMsg zeroScratch)).bind fun cl₁ =>
        (Machine.exec (Client.step sampleEnv) cl₁ textActs).map fun cl => (cl₀.miState, cl₁.miState, decide (Quiet cl))) =
      some (.none, .connect, true) := by decide +kernel
  obtain ⟨cl₀, hrun, hstates⟩ := Option.bind_eq_some_iff.mp hstates
  obtain ⟨cl₁, hup, hstates⟩ := Option.bind_eq_some_iff.mp hstates
  obtain ⟨cl, hlater, hstates⟩ := Option.map_eq_some_iff.mp hstates
  simp only [Prod.mk.injEq] at hstates
  obtain ⟨hnone, hconn, hquiet⟩ := hstates
  have hquiet : Quiet cl := of_decide_eq_true hquiet
  have hsafe : CutsSafe ([textA].flatMap WireMsg.frames ++ []) (textActs.flatMap ClientAct.chunks) :=
    cutsSafe_whole textA.frames_whole
  obtain ⟨hevents, _, hall⟩ := quiet_answered sampleEnv requestActs textActs (.procMsg zeroScratch) cl₀ cl₁ cl hrun hnone
    hup hconn hlater [textA] [] openFrames_nil (by decide)
  exact ⟨cl₁, cl, hlater, hquiet, (hall hquiet hsafe).2, hevents⟩

end SrWebSocket
