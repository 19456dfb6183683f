import SrWebSocket.Client.Worker
import SrWebSocket.Server.Serving

/-! # A client and its two threads

The connection of a client, driven by the network thread and the worker: the worker
calls `ProcMsg` and then `DecodeMsg` over and over, and meanwhile bytes may arrive,
the semaphore be posted and the client close. Whatever the order of these steps, the
connection makes a run of its own, and so do the worker's positions.
-/
namespace SrWebSocket

/-- A `CWsCli` with its `CWsInput` and the positions of its two threads. -/
structure Client extends Conn where
  mbCloseFlag : Bool
  mcUvSem : ℕ
  recv : RecvPos
  task : TaskPos

def Client.start : Client where
  toConn := .start
  mbCloseFlag := false
  mcUvSem := 0
  recv := .outside
  task := .test

inductive ClientAct where
  | pushMsg (pMsg : List UInt8)
  | post
  | onClose
  | testFlag
  | wait
  | procMsg (s : Scratch)
  | decodeMsg (junk : ℕ → UInt8) (s : Scratch)
  | leaveParse

/-- No step follows one that the process does not survive. -/
def Client.step (env : Env) (cl : Client) : ClientAct → Option Client
  | .pushMsg pMsg =>
    if cl.fault = none ∧ cl.recv = .outside then
      if 0 < pMsg.length then (cl.toConn.step env (.push pMsg)).map fun c => { cl with toConn := c, recv := .pushed }
      else some cl
    else none
  | .post =>
    if cl.fault = none ∧ cl.recv = .pushed then some { cl with mcUvSem := cl.mcUvSem + 1, recv := .outside } else none
  | .onClose =>
    if cl.fault = none ∧ cl.recv = .outside ∧ cl.mbCloseFlag = false then some { cl with mbCloseFlag := true } else none
  | .testFlag =>
    if cl.fault = none ∧ cl.task = .test then some { cl with task := if cl.mbCloseFlag then .left else .wait } else none
  | .wait =>
    if cl.fault = none ∧ cl.task = .wait ∧ 0 < cl.mcUvSem then some { cl with mcUvSem := cl.mcUvSem - 1, task := .move }
    else none
  | .procMsg s =>
    if cl.task = .move then (cl.toConn.step env (.proc s)).map fun c => { cl with toConn := c, task := .parse } else none
  | .decodeMsg junk s =>
    if cl.task = .parse then (cl.toConn.step env (.decode junk s)).map fun c => { cl with toConn := c } else none
  | .leaveParse =>
    if cl.fault = none ∧ cl.task = .parse ∧ cl.parsing = false then some { cl with task := .test } else none

/-- What a step can do. -/
inductive ClientStep (env : Env) (cl : Client) : ClientAct → Client → Prop
  | noData (hrecv : cl.recv = .outside) : ClientStep env cl (.pushMsg []) cl
  | pushMsg (pMsg : List UInt8) (c : Conn) (hrecv : cl.recv = .outside) (hne : pMsg ≠ [])
      (hc : cl.toConn.step env (.push pMsg) = some c) : ClientStep env cl (.pushMsg pMsg) { cl with toConn := c, recv := .pushed }
  | post (hrecv : cl.recv = .pushed) : ClientStep env cl .post { cl with mcUvSem := cl.mcUvSem + 1, recv := .outside }
  | onClose (hrecv : cl.recv = .outside) (hopen : cl.mbCloseFlag = false) :
      ClientStep env cl .onClose { cl with mbCloseFlag := true }
  | stay (htask : cl.task = .test) (hopen : cl.mbCloseFlag = false) : ClientStep env cl .testFlag { cl with task := .wait }
  | leave (htask : cl.task = .test) (hclosed : cl.mbCloseFlag = true) :
      ClientStep env cl .testFlag { cl with task := .left }
  | wait (htask : cl.task = .wait) (hsem : 0 < cl.mcUvSem) :
      ClientStep env cl .wait { cl with mcUvSem := cl.mcUvSem - 1, task := .move }
  | procMsg (s : Scratch) (c : Conn) (htask : cl.task = .move) (hc : cl.toConn.step env (.proc s) = some c) :
      ClientStep env cl (.procMsg s) { cl with toConn := c, task := .parse }
  | decodeMsg (junk : ℕ → UInt8) (s : Scratch) (c : Conn) (htask : cl.task = .parse)
      (hc : cl.toConn.step env (.decode junk s) = some c) : ClientStep env cl (.decodeMsg junk s) { cl with toConn := c }
  | leaveParse (htask : cl.task = .parse) (hidle : cl.parsing = false) :
      ClientStep env cl .leaveParse { cl with task := .test }

variable {env : Env} {cl cl' : Client} {a : ClientAct} {acts : List ClientAct}

theorem Client.step_cases (h : cl.step env a = some cl') : ClientStep env cl a cl' := by
  cases a with
  | pushMsg pMsg =>
    obtain ⟨⟨_, hrecv⟩, he⟩ := Option.ite_none_right_eq_some.mp h
    by_cases hpos : 0 < pMsg.length
    · rw [if_pos hpos] at he
      obtain ⟨c, hc, rfl⟩ := Option.map_eq_some_iff.mp he
      exact .pushMsg pMsg c hrecv (List.length_pos_iff.mp hpos) hc
    · rw [if_neg hpos] at he
      obtain rfl := List.length_eq_zero_iff.mp (Nat.eq_zero_of_not_pos hpos)
      exact Option.some.inj he ▸ .noData hrecv
  | post =>
    obtain ⟨⟨_, hrecv⟩, he⟩ := Option.ite_none_right_eq_some.mp h
    exact Option.some.inj he ▸ .post hrecv
  | onClose =>
    obtain ⟨⟨_, hrecv, hopen⟩, he⟩ := Option.ite_none_right_eq_some.mp h
    exact Option.some.inj he ▸ .onClose hrecv hopen
  | testFlag =>
    obtain ⟨⟨_, htask⟩, he⟩ := Option.ite_none_right_eq_some.mp h
    by_cases hflag : cl.mbCloseFlag = true
    · rw [if_pos hflag] at he
      exact Option.some.inj he ▸ .leave htask hflag
    · rw [if_neg hflag] at he
      exact Option.some.inj he ▸ .stay htask (by simpa using hflag)
  | wait =>
    obtain ⟨⟨_, htask, hsem⟩, he⟩ := Option.ite_none_right_eq_some.mp h
    exact Option.some.inj he ▸ .wait htask hsem
  | procMsg s =>
    obtain ⟨htask, he⟩ := Option.ite_none_right_eq_some.mp h
    obtain ⟨c, hc, rfl⟩ := Option.map_eq_some_iff.mp he
    exact .procMsg s c htask hc
  | decodeMsg junk s =>
    obtain ⟨htask, he⟩ := Option.ite_none_right_eq_some.mp h
    obtain ⟨c, hc, rfl⟩ := Option.map_eq_some_iff.mp he
    exact .decodeMsg junk s c htask hc
  | leaveParse =>
    obtain ⟨⟨_, htask, hidle⟩, he⟩ := Option.ite_none_right_eq_some.mp h
    exact Option.some.inj he ▸ .leaveParse htask hidle

/-! ## The connection -/

/-- What an action does to the connection. -/
def ClientAct.conn : ClientAct → List ConnAct
  | .pushMsg pMsg => if 0 < pMsg.length then [.push pMsg] else []
  | .procMsg s => [.proc s]
  | .decodeMsg junk s => [.decode junk s]
  | .post | .onClose | .testFlag | .wait | .leaveParse => []

theorem Client.step_conn (h : cl.step env a = some cl') :
    Machine.exec (Conn.step env) cl.toConn a.conn = some cl'.toConn := by
  cases Client.step_cases h with
  | noData hrecv => rfl
  | pushMsg pMsg c hrecv hne hc =>
    rw [ClientAct.conn, if_pos (List.length_pos_iff.mpr hne)]
    exact exec_single.mpr hc
  | post hrecv => rfl
  | onClose hrecv hopen => rfl
  | stay htask hopen => rfl
  | leave htask hclosed => rfl
  | wait htask hsem => rfl
  | procMsg s c htask hc => exact exec_single.mpr hc
  | decodeMsg junk s c htask hc => exact exec_single.mpr hc
  | leaveParse htask hidle => rfl

theorem Client.exec_conn (h : Machine.exec (Client.step env) cl acts = some cl') :
    Machine.exec (Conn.step env) cl.toConn (acts.flatMap ClientAct.conn) = some cl'.toConn := by
  obtain ⟨c, hc, rfl⟩ := Machine.exec_simulates (fun cl c => cl.toConn = c) ClientAct.conn
    (fun cl a cl' c (hR : cl.toConn = c) hs => ⟨cl'.toConn, hR ▸ Client.step_conn hs, rfl⟩) rfl h
  exact hc

/-! ## The worker -/

/-- The bytes that an action gives to `PushMsg`. -/
def ClientAct.bytes : ClientAct → List UInt8
  | .pushMsg pMsg => pMsg
  | .post | .onClose | .testFlag | .wait | .procMsg _ | .decodeMsg _ _ | .leaveParse => []

/-- The worker and the network thread of `cli` are where those of `cl` are, with the
same flag, permits and receive buffer; the cache is the same but while `ParseMsg` runs. -/
structure SameThreads (cl : Client) (cli : WsCli) : Prop where
  inv : ConnInv cl.toConn
  mbCloseFlag : cli.mbCloseFlag = cl.mbCloseFlag
  mcUvSem : cli.mcUvSem = cl.mcUvSem
  recv : cli.recv = cl.recv
  task : cli.task = cl.task
  mpRecvBuffer : cli.mpInput.mpRecvBuffer = cl.mpRecvBuffer
  pBuffer : cl.task ≠ .parse → cli.mpInput.pBuffer = cl.mstMsgCache.pBuffer

variable {cli : WsCli}

theorem sameThreads_start : SameThreads .start .start := ⟨connInv_start, rfl, rfl, rfl, rfl, rfl, fun _ => rfl⟩

/-- What the worker moves is what the connection parses. -/
theorem SameThreads.moveMsg (h : SameThreads cl cli) (htask : cl.task ≠ .parse) :
    cli.mpInput.moveMsg = cl.toConn.moveMsg.input := by
  have hin : cli.mpInput = cl.toConn.input := congrArg₂ Input.mk h.mpRecvBuffer (h.pBuffer htask)
  rw [hin, Conn.input_moveMsg]

theorem SameThreads.step (h : SameThreads cl cli) (hs : cl.step env a = some cl') :
    ∃ bs cli', Machine.exec WsCli.step cli bs = some cli' ∧ bs.flatMap CliAct.bytes = a.bytes ∧ SameThreads cl' cli' := by
  have hmoved := h.moveMsg
  obtain ⟨hinv, hflag, hsem, hrecv, htask, hbuf, hcache⟩ := h
  cases Client.step_cases hs with
  | noData hout => exact ⟨[], cli, rfl, rfl, hinv, hflag, hsem, hrecv, htask, hbuf, hcache⟩
  | pushMsg pMsg c hout hne hc =>
    have hpos := List.length_pos_iff.mpr hne
    obtain ⟨_, rfl⟩ := step_push.mp hc
    refine ⟨[.pushMsg pMsg], _, Machine.exec_one ((if_pos (hrecv.trans hout)).trans (if_pos hpos)),
      List.append_nil _, hinv.step hc, hflag, hsem, rfl, htask, congrArg (· ++ pMsg) hbuf, hcache⟩
  | post hout =>
    exact ⟨[.post], _, Machine.exec_one (if_pos (hrecv.trans hout)), rfl, hinv, hflag, congrArg (· + 1) hsem, rfl,
      htask, hbuf, hcache⟩
  | onClose hout hopen =>
    exact ⟨[.onClose], _, Machine.exec_one (if_pos ⟨hrecv.trans hout, hflag.trans hopen⟩), rfl, hinv, rfl, hsem, hrecv,
      htask, hbuf, hcache⟩
  | stay htest hopen =>
    refine ⟨[.testFlag], _, Machine.exec_one (if_pos (htask.trans htest)), rfl, hinv, hflag, hsem, hrecv, ?_, hbuf,
      fun _ => hcache (by simp [htest])⟩
    exact if_neg (by simp [hflag, hopen])
  | leave htest hclosed =>
    refine ⟨[.testFlag], _, Machine.exec_one (if_pos (htask.trans htest)), rfl, hinv, hflag, hsem, hrecv, ?_, hbuf,
      fun _ => hcache (by simp [htest])⟩
    exact if_pos (hflag.trans hclosed)
  | wait hwait hpos =>
    exact ⟨[.wait], _, Machine.exec_one (if_pos ⟨htask.trans hwait, hsem.symm ▸ hpos⟩), rfl, hinv, hflag,
      congrArg (· - 1) hsem, hrecv, rfl, hbuf, fun _ => hcache (by simp [hwait])⟩
  | procMsg s c hmove hc =>
    obtain ⟨_, hparse⟩ : _ ∧ c = cl.toConn.moveMsg.parseMsg env s := Conn.step_input hc
    have hsame : cli.mpInput.moveMsg.mpRecvBuffer = c.mpRecvBuffer := by
      rw [hparse, Conn.mpRecvBuffer_parseMsg, hmoved (by simp [hmove])]
      rfl
    exact ⟨[.moveMsg], _, Machine.exec_one (if_pos (htask.trans hmove)), rfl, hinv.step hc, hflag, hsem, hrecv, rfl,
      hsame, fun hp => absurd rfl hp⟩
  | decodeMsg junk s c hparse hc =>
    exact ⟨[], cli, rfl, rfl, hinv.step hc, hflag, hsem, hrecv, htask, hbuf.trans (step_decode_mpRecvBuffer hc).symm,
      fun hp => absurd hparse hp⟩
  | leaveParse hparse hidle =>
    exact ⟨[.parseMsg cl.mstMsgCache.pBuffer], _, Machine.exec_one (if_pos (htask.trans hparse)), rfl, hinv, hflag, hsem,
      hrecv, rfl, hbuf, fun _ => rfl⟩

theorem SameThreads.exec (h : SameThreads cl cli) (hrun : Machine.exec (Client.step env) cl acts = some cl') :
    ∃ bs cli', Machine.exec WsCli.step cli bs = some cli' ∧
      bs.flatMap CliAct.bytes = acts.flatMap ClientAct.bytes ∧ SameThreads cl' cli' :=
  Machine.exec_refines SameThreads ClientAct.bytes CliAct.bytes (fun _ _ _ _ hR hs => hR.step hs) h hrun

/-- However the two threads of a client interleave, its connection makes a run in
which the same bytes are pushed, and the positions of the threads, the semaphore and
the buffers make a run of the worker with the same bytes. -/
theorem client_refines (env : Env) (acts : List ClientAct) (cl : Client)
    (hrun : Machine.exec (Client.step env) .start acts = some cl) :
    Machine.exec (Conn.step env) .start (acts.flatMap ClientAct.conn) = some cl.toConn ∧
      ∃ bs cli, Machine.exec WsCli.step .start bs = some cli ∧
        bs.flatMap CliAct.bytes = acts.flatMap ClientAct.bytes ∧ SameThreads cl cli :=
  ⟨Client.exec_conn hrun, sameThreads_start.exec hrun⟩

/-- A second chunk that is pushed between the two halves of the first `OnRecv`. -/
theorem client_refines_waiting :
    ∃ cl cli bs, Machine.exec (Client.step sampleEnv) .start
        [.pushMsg [71], .testFlag, .post, .pushMsg [69], .wait, .procMsg zeroScratch, .post, .leaveParse] = some cl ∧
      cl.mcUvSem = 1 ∧ Machine.exec WsCli.step .start bs = some cli ∧ bs.flatMap CliAct.bytes = [71, 69] ∧
      SameThreads cl cli := by
  have hrun : (Machine.exec (Client.step sampleEnv) .start
      [.pushMsg [71], .testFlag, .post, .pushMsg [69], .wait, .procMsg zeroScratch, .post, .leaveParse]).map
      (fun cl => cl.mcUvSem) = some 1 := by decide +kernel
  obtain ⟨cl, hcl, hsem⟩ := Option.map_eq_some_iff.mp hrun
  obtain ⟨_, bs, cli, hcli, hbytes, hsame⟩ := client_refines sampleEnv _ cl hcl
  exact ⟨cl, cli, bs, hcl, hsem, hcli, hbytes, hsame⟩

end SrWebSocket
