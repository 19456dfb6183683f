import SrWebSocket.Server.Serving

/-! # The worker of a client

The network thread appends what arrives to `mpRecvBuffer` and posts `mcUvSem`; the
worker tests the close flag, waits, moves the buffer into the cache and parses.
Each of these is one step, and the steps of the two threads come in any order.
What was moved and what was parsed is read off the cache; what `ParseMsg` leaves
there is not said here: it is part of its step.
-/
namespace SrWebSocket

/-- The two buffers of a `CWsInput`. -/
structure Input where
  mpRecvBuffer : List UInt8
  pBuffer : List UInt8
deriving DecidableEq

def Input.pushMsg (i : Input) (pMsg : List UInt8) : Input := { i with mpRecvBuffer := i.mpRecvBuffer ++ pMsg }

/-- `ProcMsg`, up to the call of `ParseMsg`. -/
def Input.moveMsg (i : Input) : Input :=
  if 0 < i.mpRecvBuffer.length then { mpRecvBuffer := [], pBuffer := i.pBuffer ++ i.mpRecvBuffer } else i

theorem Input.mpRecvBuffer_moveMsg (i : Input) : i.moveMsg.mpRecvBuffer = [] := by
  unfold Input.moveMsg
  split
  · rfl
  · rename_i h
    exact List.length_eq_zero_iff.mp (Nat.eq_zero_of_not_pos h)

/-- What a move has appended to the cache. -/
def Input.appended (i : Input) : List UInt8 := i.moveMsg.pBuffer.drop i.pBuffer.length

theorem Input.pBuffer_moveMsg (i : Input) : i.moveMsg.pBuffer = i.pBuffer ++ i.mpRecvBuffer := by
  unfold Input.moveMsg
  split
  · rfl
  · rename_i h
    rw [List.length_eq_zero_iff.mp (Nat.eq_zero_of_not_pos h), List.append_nil]

theorem Input.appended_eq (i : Input) : i.appended = i.mpRecvBuffer := by
  rw [Input.appended, i.pBuffer_moveMsg, List.drop_left]

def Conn.input (c : Conn) : Input where
  mpRecvBuffer := c.mpRecvBuffer
  pBuffer := c.mstMsgCache.pBuffer

theorem Conn.input_moveMsg (c : Conn) : c.moveMsg.input = c.input.moveMsg :=
  (congrArg₂ Input.mk c.input.mpRecvBuffer_moveMsg c.input.pBuffer_moveMsg).symm

theorem Conn.mpRecvBuffer_parseMsg (env : Env) (s : Scratch) (c : Conn) : (c.parseMsg env s).mpRecvBuffer = c.mpRecvBuffer := by
  unfold Conn.parseMsg
  split
  · rfl
  · split <;> rfl

/-- Every step of a connection is one of these on its buffers; `ParseMsg` starts on the
cache into which the bytes were moved, and what it leaves there is not said. -/
theorem Conn.step_input {env : Env} {c c' : Conn} {a : ConnAct} (hs : c.step env a = some c') :
    match a with
    | .push pMsg => c'.input = c.input.pushMsg pMsg
    | .proc s => c.moveMsg.input = c.input.moveMsg ∧ c' = c.moveMsg.parseMsg env s
    | .decode _ _ => c'.input = { c.input with pBuffer := c'.input.pBuffer } := by
  cases a with
  | push pMsg =>
    obtain ⟨_, rfl⟩ := step_push.mp hs
    rfl
  | proc s => exact ⟨c.input_moveMsg, (step_proc.mp hs).2⟩
  | decode junk s => simp [Conn.input, step_decode_mpRecvBuffer hs]

/-- Where the network thread is: between `PushMsg` and `Post` in `OnRecv`, or not. -/
inductive RecvPos where
  | outside
  | pushed
deriving DecidableEq

/-- Where the worker is in `TaskExcute`: in front of one of its steps, or out of it. -/
inductive TaskPos where
  | test
  | wait
  | move
  | parse
  | left
deriving DecidableEq

/-- A `CWsCli` with the positions of its two threads and what they have done so far. -/
structure WsCli where
  mpInput : Input
  mbCloseFlag : Bool
  mcUvSem : ℕ
  recv : RecvPos
  task : TaskPos
  /-- the chunks given to `PushMsg` -/
  pushed : List (List UInt8)
  /-- those of them whose `OnRecv` was over when `OnClose` was called -/
  received : List (List UInt8)
  /-- what each `ProcMsg` has appended to the cache -/
  moved : List (List UInt8)
  /-- what the last `ParseMsg` has left in the cache -/
  kept : List UInt8
  /-- what each `ParseMsg` has found in the cache behind what the one before had left -/
  parsed : List (List UInt8)
deriving DecidableEq

def WsCli.start : WsCli where
  mpInput := { mpRecvBuffer := [], pBuffer := [] }
  mbCloseFlag := false
  mcUvSem := 0
  recv := .outside
  task := .test
  pushed := []
  received := []
  moved := []
  kept := []
  parsed := []

inductive CliAct where
  | pushMsg (pMsg : List UInt8)
  | post
  | onClose
  | testFlag
  | wait
  | moveMsg
  | parseMsg (pBuffer : List UInt8)

def CliAct.OfWorker : CliAct → Prop
  | .testFlag | .wait | .moveMsg | .parseMsg _ => True
  | .pushMsg _ | .post | .onClose => False

/-- `OnRecv` without data does nothing. `OnClose` is called once, by the thread that
calls `OnRecv`. -/
def WsCli.step (cli : WsCli) : CliAct → Option WsCli
  | .pushMsg pMsg =>
    if cli.recv = .outside then
      if 0 < pMsg.length then
        some { cli with mpInput := cli.mpInput.pushMsg pMsg, recv := .pushed, pushed := cli.pushed ++ [pMsg] }
      else some cli
    else none
  | .post =>
    if cli.recv = .pushed then
      some { cli with
        mcUvSem := cli.mcUvSem + 1
        recv := .outside
        received := if cli.mbCloseFlag then cli.received else cli.pushed }
    else none
  | .onClose => if cli.recv = .outside ∧ cli.mbCloseFlag = false then some { cli with mbCloseFlag := true } else none
  | .testFlag => if cli.task = .test then some { cli with task := if cli.mbCloseFlag then .left else .wait } else none
  | .wait =>
    if cli.task = .wait ∧ 0 < cli.mcUvSem then some { cli with mcUvSem := cli.mcUvSem - 1, task := .move } else none
  | .moveMsg =>
    if cli.task = .move then
      some { cli with mpInput := cli.mpInput.moveMsg, task := .parse, moved := cli.moved ++ [cli.mpInput.appended] }
    else none
  | .parseMsg pBuffer =>
    if cli.task = .parse then
      some { cli with
        mpInput := { cli.mpInput with pBuffer := pBuffer }
        task := .test
        kept := pBuffer
        parsed := cli.parsed ++ [cli.mpInput.pBuffer.drop cli.kept.length] }
    else none

/-- What a step can do. -/
inductive CliStep (cli : WsCli) : CliAct → WsCli → Prop
  | noData (hrecv : cli.recv = .outside) : CliStep cli (.pushMsg []) cli
  | pushMsg (pMsg : List UInt8) (hrecv : cli.recv = .outside) (hne : pMsg ≠ []) : CliStep cli (.pushMsg pMsg)
      { cli with mpInput := cli.mpInput.pushMsg pMsg, recv := .pushed, pushed := cli.pushed ++ [pMsg] }
  | post (hrecv : cli.recv = .pushed) : CliStep cli .post
      { cli with
        mcUvSem := cli.mcUvSem + 1
        recv := .outside
        received := if cli.mbCloseFlag then cli.received else cli.pushed }
  | onClose (hrecv : cli.recv = .outside) (hopen : cli.mbCloseFlag = false) :
      CliStep cli .onClose { cli with mbCloseFlag := true }
  | stay (htask : cli.task = .test) (hopen : cli.mbCloseFlag = false) : CliStep cli .testFlag { cli with task := .wait }
  | leave (htask : cli.task = .test) (hclosed : cli.mbCloseFlag = true) : CliStep cli .testFlag { cli with task := .left }
  | wait (htask : cli.task = .wait) (hsem : 0 < cli.mcUvSem) :
      CliStep cli .wait { cli with mcUvSem := cli.mcUvSem - 1, task := .move }
  | moveMsg (htask : cli.task = .move) : CliStep cli .moveMsg
      { cli with mpInput := cli.mpInput.moveMsg, task := .parse, moved := cli.moved ++ [cli.mpInput.appended] }
  | parseMsg (pBuffer : List UInt8) (htask : cli.task = .parse) : CliStep cli (.parseMsg pBuffer)
      { cli with
        mpInput := { cli.mpInput with pBuffer := pBuffer }
        task := .test
        kept := pBuffer
        parsed := cli.parsed ++ [cli.mpInput.pBuffer.drop cli.kept.length] }

variable {cli cli' : WsCli} {a : CliAct} {acts : List CliAct}

theorem WsCli.step_cases (h : cli.step a = some cli') : CliStep cli a cli' := by
  cases a with
  | pushMsg pMsg =>
    obtain ⟨hrecv, he⟩ := Option.ite_none_right_eq_some.mp h
    by_cases hpos : 0 < pMsg.length
    · rw [if_pos hpos] at he
      exact Option.some.inj he ▸ .pushMsg pMsg hrecv (List.length_pos_iff.mp hpos)
    · rw [if_neg hpos] at he
      obtain rfl := List.length_eq_zero_iff.mp (Nat.eq_zero_of_not_pos hpos)
      exact Option.some.inj he ▸ .noData hrecv
  | post =>
    obtain ⟨hrecv, he⟩ := Option.ite_none_right_eq_some.mp h
    exact Option.some.inj he ▸ .post hrecv
  | onClose =>
    obtain ⟨⟨hrecv, hopen⟩, he⟩ := Option.ite_none_right_eq_some.mp h
    exact Option.some.inj he ▸ .onClose hrecv hopen
  | testFlag =>
    obtain ⟨htask, he⟩ := Option.ite_none_right_eq_some.mp h
    by_cases hflag : cli.mbCloseFlag = true
    · rw [if_pos hflag] at he
      exact Option.some.inj he ▸ .leave htask hflag
    · rw [if_neg hflag] at he
      exact Option.some.inj he ▸ .stay htask (by simpa using hflag)
  | wait =>
    obtain ⟨⟨htask, hsem⟩, he⟩ := Option.ite_none_right_eq_some.mp h
    exact Option.some.inj he ▸ .wait htask hsem
  | moveMsg =>
    obtain ⟨htask, he⟩ := Option.ite_none_right_eq_some.mp h
    exact Option.some.inj he ▸ .moveMsg htask
  | parseMsg pBuffer =>
    obtain ⟨htask, he⟩ := Option.ite_none_right_eq_some.mp h
    exact Option.some.inj he ▸ .parseMsg pBuffer htask

/-- What holds in every state that the two threads can reach. -/
structure WorkerInv (cli : WsCli) : Prop where
  conserved : cli.moved.flatten ++ cli.mpInput.mpRecvBuffer = cli.pushed.flatten
  woken : cli.mpInput.mpRecvBuffer ≠ [] → 0 < cli.mcUvSem ∨ cli.recv = .pushed ∨ cli.task = .move
  kept : cli.task ≠ .parse → cli.mpInput.pBuffer = cli.kept
  parsed : cli.task ≠ .parse → cli.parsed = cli.moved
  parsing : cli.task = .parse → ∃ m, cli.moved = cli.parsed ++ [m] ∧ cli.mpInput.pBuffer = cli.kept ++ m
  received : cli.received <+: cli.pushed
  receivedAll : cli.mbCloseFlag = false → cli.recv = .outside → cli.received = cli.pushed
  running : cli.mbCloseFlag = false → cli.task ≠ .left

theorem workerInv_start : WorkerInv .start where
  conserved := rfl
  woken h := absurd rfl h
  kept _ := rfl
  parsed _ := rfl
  parsing h := absurd h (by decide)
  received := List.prefix_rfl
  receivedAll _ _ := rfl
  running _ := by decide

/-- The worker goes on to another step without a look at the buffers. -/
theorem WorkerInv.goesOn (h : WorkerInv cli) {task : TaskPos} {sem : ℕ} (hfrom : cli.task ≠ .parse) (hto : task ≠ .parse)
    (hwoken : cli.mpInput.mpRecvBuffer ≠ [] → 0 < sem ∨ cli.recv = .pushed ∨ task = .move)
    (hrunning : cli.mbCloseFlag = false → task ≠ .left) : WorkerInv { cli with mcUvSem := sem, task := task } where
  conserved := h.conserved
  woken := hwoken
  kept _ := h.kept hfrom
  parsed _ := h.parsed hfrom
  parsing hparse := absurd hparse hto
  received := h.received
  receivedAll := h.receivedAll
  running := hrunning

theorem WorkerInv.step (h : WorkerInv cli) (hs : cli.step a = some cli') : WorkerInv cli' := by
  have hwoken : cli.task ≠ .move → cli.mpInput.mpRecvBuffer ≠ [] → 0 < cli.mcUvSem ∨ cli.recv = .pushed := by
    intro htask hne
    rcases h.woken hne with hsem | hrecv | hmove
    · exact Or.inl hsem
    · exact Or.inr hrecv
    · exact absurd hmove htask
  cases WsCli.step_cases hs with
  | noData hrecv => exact h
  | pushMsg pMsg hrecv hne =>
    refine { h with
      conserved := ?_
      woken := fun _ => Or.inr (Or.inl rfl)
      received := h.received.trans (List.prefix_append _ _)
      receivedAll := fun _ hout => ?_ }
    · simp [Input.pushMsg, ← List.append_assoc, h.conserved]
    · cases hout
  | post hrecv =>
    refine { h with
      woken := fun _ => Or.inl (Nat.succ_pos _)
      received := ?_
      receivedAll := fun (hopen : cli.mbCloseFlag = false) _ => if_neg (by simp [hopen]) }
    dsimp only
    split
    · exact h.received
    · exact List.prefix_rfl
  | onClose hrecv hopen =>
    exact { h with receivedAll := fun h => absurd h (by simp), running := fun h => absurd h (by simp) }
  | stay htask hopen =>
    exact h.goesOn (by simp [htask]) (by simp) (fun hne => (hwoken (by simp [htask]) hne).imp_right Or.inl) fun _ => by simp
  | leave htask hclosed =>
    exact h.goesOn (by simp [htask]) (by simp) (fun hne => (hwoken (by simp [htask]) hne).imp_right Or.inl)
      fun hopen => absurd (hclosed.symm.trans hopen) (by simp)
  | wait htask hsem =>
    exact h.goesOn (by simp [htask]) (by simp) (fun _ => Or.inr (Or.inr rfl)) fun _ => by simp
  | moveMsg htask =>
    have hnotParse : cli.task ≠ .parse := by simp [htask]
    refine { h with
      conserved := ?_
      woken := fun hne => absurd cli.mpInput.mpRecvBuffer_moveMsg hne
      kept := fun h => absurd rfl h
      parsed := fun h => absurd rfl h
      parsing := fun _ => ⟨cli.mpInput.appended, ?_, ?_⟩
      running := fun _ => by simp }
    · simp [Input.mpRecvBuffer_moveMsg, Input.appended_eq, h.conserved]
    · rw [h.parsed hnotParse]
    · rw [Input.pBuffer_moveMsg, Input.appended_eq, h.kept hnotParse]
  | parseMsg pBuffer htask =>
    refine { h with
      woken := fun hne => (hwoken (by simp [htask]) hne).imp_right Or.inl
      kept := fun _ => rfl
      parsed := fun _ => ?_
      parsing := fun h => absurd h (by simp)
      running := fun _ => by simp }
    obtain ⟨m, hmoved, hbuf⟩ := h.parsing htask
    rw [hbuf, List.drop_left, hmoved]

theorem workerInv_exec (h : Machine.exec WsCli.step .start acts = some cli) : WorkerInv cli :=
  Machine.exec_invariant WorkerInv (fun _ _ _ hi hs => hi.step hs) workerInv_start h

/-- The bytes that an action gives to `PushMsg`. -/
def CliAct.bytes : CliAct → List UInt8
  | .pushMsg pMsg => pMsg
  | _ => []

theorem pushed_exec (h : Machine.exec WsCli.step cli acts = some cli') :
    cli'.pushed.flatten = cli.pushed.flatten ++ acts.flatMap CliAct.bytes := by
  induction acts generalizing cli with
  | nil =>
    cases h
    simp
  | cons a acts ih =>
    obtain ⟨u, hu, hrun⟩ := Machine.exec_cons_eq_some.mp h
    have hone : u.pushed.flatten = cli.pushed.flatten ++ a.bytes := by
      cases WsCli.step_cases hu <;> simp [CliAct.bytes]
    rw [ih hrun, hone, List.flatMap_cons, List.append_assoc]

/-- However the two threads interleave, what was appended to the cache by the moves and
what is still in the receive buffer are the bytes pushed so far, in order; `ParseMsg`
finds the last of it behind what it had left; and the worker does not wait without a
permit while there are bytes to move. -/
theorem received_conserved (acts : List CliAct) (cli : WsCli) (hrun : Machine.exec WsCli.step .start acts = some cli) :
    cli.moved.flatten ++ cli.mpInput.mpRecvBuffer = acts.flatMap CliAct.bytes ∧
    (cli.task = .parse → ∃ ms m, cli.moved = ms ++ [m] ∧ cli.mpInput.pBuffer = cli.kept ++ m) ∧
    (cli.task = .wait → cli.mcUvSem = 0 → cli.recv ≠ .pushed → cli.mpInput.mpRecvBuffer = []) := by
  have h := workerInv_exec hrun
  refine ⟨h.conserved.trans (pushed_exec hrun), fun htask => ⟨cli.parsed, h.parsing htask⟩, fun htask hsem hrecv => ?_⟩
  by_contra hne
  rcases h.woken hne with hpos | hpushed | hmove
  · omega
  · exact hrecv hpushed
  · exact absurd (htask.symm.trans hmove) (by simp)

/-- Two chunks that are moved at once, which leaves a permit behind. -/
def coalescedRun : List CliAct :=
  [.pushMsg [97], .post, .testFlag, .pushMsg [98], .post, .wait, .moveMsg, .parseMsg [], .testFlag]

theorem received_conserved_coalesced :
    ∃ cli, Machine.exec WsCli.step .start coalescedRun = some cli ∧ cli.mcUvSem = 1 ∧
      cli.moved.flatten ++ cli.mpInput.mpRecvBuffer = [97, 98] := by
  have hrun : (Machine.exec WsCli.step .start coalescedRun).map (fun cli => cli.mcUvSem) = some 1 := by decide
  obtain ⟨cli, hcli, hsem⟩ := Option.map_eq_some_iff.mp hrun
  exact ⟨cli, hcli, hsem, (received_conserved coalescedRun cli hcli).1⟩

end SrWebSocket
