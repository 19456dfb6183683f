import SrWebSocket.Client.Quiescence
import SrWebSocket.Stream.ReceiveLoop

/-! # The worker by itself

Between two arrivals the worker can take only so many steps, and they end with
everything parsed. So what is sent is answered as soon as the worker is scheduled.
-/
namespace SrWebSocket

def ClientAct.OfWorker : ClientAct → Prop
  | .testFlag | .wait | .procMsg _ | .decodeMsg _ _ | .leaveParse => True
  | .pushMsg _ | .post | .onClose => False

instance (a : ClientAct) : Decidable a.OfWorker :=
  match a with
  | .testFlag | .wait | .procMsg _ | .decodeMsg _ _ | .leaveParse => .isTrue trivial
  | .pushMsg _ | .post | .onClose => .isFalse id

/-- The steps that the worker has in front of it before it waits again. -/
def Client.turn (cl : Client) : ℕ :=
  match cl.task with
  | .left | .wait => 0
  | .test => 1
  | .parse => if cl.parsing then 3 else 2
  | .move => 4

/-- No more steps than this can the worker take without the network thread. -/
def Client.work (cl : Client) : ℕ := 5 * cl.mcUvSem + cl.arrived.length + cl.turn

variable {env : Env} {p : List UInt8} {evs : List Event} {pushes : List (List UInt8)} {cl cl' : Client} {c c' : Conn}
  {a : ClientAct} {s : Scratch} {junk : ℕ → UInt8}

theorem Streams.tracks (h : Streams env p evs pushes c) (hno : ¬Conflict pushes.flatten) :
    ∃ P left gs fs rest, pushes.flatten = P ++ left ∧ c.mpRecvBuffer = left ∧ Tracks P c.toReceiver gs fs rest ∧
      ¬Conflict P := by
  obtain ⟨acts, left, hrun, hjoin, hbuf⟩ := h.stream
  have hflat := hjoin.flatten
  have hno' : ¬Conflict ([] ++ (received acts).flatten) := by
    intro hc
    rw [List.nil_append] at hc
    exact hno (hflat ▸ hc.append _)
  obtain ⟨gs, fs, rest, ht⟩ := tracks_start.exec hrun hno'
  exact ⟨_, _, gs, fs, rest, hflat, hbuf, ht, hno'⟩

/-- What has arrived and is not yet decoded is a part of what was pushed. -/
theorem Streams.length_arrived (h : Streams env p evs pushes c) (hno : ¬Conflict pushes.flatten) :
    c.arrived.length ≤ pushes.flatten.length := by
  obtain ⟨P, left, gs, fs, rest, hflat, hbuf, ht, _⟩ := h.tracks hno
  have hle := ht.length_le
  rw [Conn.arrived, hflat, List.length_append, List.length_append, hbuf]
  omega

theorem CallOutcome.length_le {P rest : List UInt8} {r r' : Receiver} {gs : List (List (List UInt8))}
    {fs : List (List UInt8)} (ht : Tracks P r gs fs rest) (hno : ¬Conflict P)
    (ho : CallOutcome P r gs fs rest junk r') : r'.mstMsgCache.pBuffer.length ≤ r.mstMsgCache.pBuffer.length := by
  cases ho with
  | stalled hst he => rw [he]
  | message hst ks t hrest hks hg he ht' =>
    have hb := congrArg List.length ht.scanned.buffer
    rw [he]
    simp only [hrest, List.length_append, WsMsgCache.fresh] at hb ⊢
    omega
  | clash hst ks t hrest hg hc he =>
    exact absurd ⟨gs, fs ++ ks, t, by simp [ht.stream, hrest], fun g hg => (ht.groups g hg).1, hg, hc⟩ hno
  | waiting hst ks t hrest hks ho hnone he ht' =>
    rw [he]
    simp [scanStop_pBuffer]

/-- A call of `DecodeMsg` ends the loop or shortens the buffer. -/
theorem Streams.decode_progress (h : Streams env p evs pushes c) (hno : ¬Conflict pushes.flatten)
    (hs : c.step env (.decode junk s) = some c') :
    c'.arrived.length ≤ c.arrived.length ∧ c.parsing = true ∧
      (c'.parsing = false ∨ c'.arrived.length < c.arrived.length) := by
  obtain ⟨P, left, gs, fs, rest, _, _, ht, hnoP⟩ := h.tracks hno
  have hrecv : c.toReceiver.step (.decode junk) = some c'.toReceiver :=
    (step_decode_receiver (Conn.step_fault hs)).symm.trans (congrArg (Option.map _) hs)
  have hbuf := step_decode_mpRecvBuffer hs
  have hp : c.parsing = true := by
    by_contra hp
    simp [Receiver.step, hp] at hrecv
  obtain ⟨q, hq, ho⟩ := ht.decode hp junk
  obtain rfl := Option.some.inj (hrecv.symm.trans hq)
  have hle := ho.length_le ht hnoP
  rw [Conn.arrived, Conn.arrived, hbuf, List.length_append, List.length_append]
  refine ⟨by omega, hp, ?_⟩
  rcases ho.progress ht hnoP hp with hidle | ⟨_, hlt⟩
  · exact Or.inl hidle
  · exact Or.inr (by omega)

/-- Every step of the worker leaves less for it to do. -/
theorem Client.step_work (h : Streams env p evs pushes cl.toConn) (hno : ¬Conflict pushes.flatten)
    (ha : a.OfWorker) (hs : cl.step env a = some cl') : cl'.work < cl.work := by
  cases Client.step_cases hs with
  | noData hrecv => exact ha.elim
  | pushMsg pMsg c hrecv hne hc => exact ha.elim
  | post hrecv => exact ha.elim
  | onClose hrecv hopen => exact ha.elim
  | stay htask hopen =>
    simp [Client.work, Client.turn, htask, Conn.arrived]
  | leave htask hclosed =>
    simp [Client.work, Client.turn, htask, Conn.arrived]
  | wait htask hsem =>
    simp only [Client.work, Client.turn, htask, Conn.arrived]
    omega
  | procMsg s c htask hc =>
    obtain ⟨⟨_, hidle, _⟩, rfl⟩ := step_proc.mp hc
    have hproc : cl.toConn.procMsg env s = _ := Conn.procMsg_connect h.state hidle
    have harrived : (cl.toConn.procMsg env s).arrived.length = cl.arrived.length := by
      rw [hproc]
      simp [Conn.arrived, WsMsgCache.append]
    have hturn : (if (cl.toConn.procMsg env s).parsing then 3 else 2) ≤ 3 := by split <;> decide
    simp only [Client.work, Client.turn, htask]
    omega
  | decodeMsg junk s c htask hc =>
    obtain ⟨hle, hparse, hless⟩ := h.decode_progress hno hc
    simp only [Client.work, Client.turn, htask, hparse, if_true]
    rcases hless with hidle | hlt
    · rw [hidle, if_neg Bool.false_ne_true]
      omega
    · have hturn : (if c.parsing then 3 else 2) ≤ 3 := by split <;> decide
      omega
  | leaveParse htask hidle =>
    simp [Client.work, Client.turn, htask, Conn.arrived, hidle]

/-- No step of the worker is enabled. -/
def Client.Rests (env : Env) (cl : Client) : Prop := ∀ b : ClientAct, b.OfWorker → cl.step env b = none

/-- What the worker finds in a client that is upgraded with the protocol `p`. -/
structure Serves (env : Env) (p : List UInt8) (evs : List Event) (pushes : List (List UInt8)) (cl : Client) : Prop where
  streams : Streams env p evs pushes cl.toConn
  answered : Answered env cl.toConn
  idle : cl.task ≠ .parse → cl.parsing = false

theorem chunks_ofWorker (ha : a.OfWorker) : a.chunks = [] := by
  cases a with
  | pushMsg pMsg => exact ha.elim
  | post => exact ha.elim
  | onClose => exact ha.elim
  | testFlag => rfl
  | wait => rfl
  | procMsg s => rfl
  | decodeMsg junk s => rfl
  | leaveParse => rfl

theorem Serves.step (h : Serves env p evs pushes cl) (hp : p ≠ []) (ha : a.OfWorker) (hs : cl.step env a = some cl') :
    Serves env p evs pushes cl' := by
  have hconn := Client.step_conn hs
  have hanswered := h.answered.exec h.streams.inv hconn
  have hstreams := h.streams.exec hp hconn
  rw [pushes_conn, chunks_ofWorker ha, List.append_nil] at hstreams
  exact ⟨hstreams, hanswered, Client.step_idle h.idle hs⟩

theorem Serves.fault (h : Serves env p evs pushes cl) (hproto : p ≠ fieldWebsocketKey) : cl.fault = none := by
  cases h.answered with
  | pages n hnone _ _ _ => exact absurd (h.streams.state.symm.trans hnone) (by decide)
  | failed n hnone _ _ _ => exact absurd (h.streams.state.symm.trans hnone) (by decide)
  | upgraded n pMsg pRet stack _ _ _ hfault _ =>
    exact hfault.mpr fun he => absurd (h.streams.protocol.symm.trans he) hproto

theorem Serves.protocol_ne_nil (h : Serves env p evs pushes cl) : p ≠ [] := by
  cases h.answered with
  | pages n hnone _ _ _ => exact absurd (h.streams.state.symm.trans hnone) (by decide)
  | failed n hnone _ _ _ => exact absurd (h.streams.state.symm.trans hnone) (by decide)
  | upgraded n pMsg pRet stack _ _ hret _ _ => exact h.streams.protocol ▸ upgradeProcMsg_ne_nil hret

/-- The worker rests nowhere but in front of the semaphore, or when it has left. -/
theorem Serves.rests (h : Serves env p evs pushes cl) (hproto : p ≠ fieldWebsocketKey) (hno : ¬Conflict pushes.flatten)
    (hlen : pushes.flatten.length < 2 ^ 63) (hrest : cl.Rests env) :
    cl.task = .left ∨ cl.task = .wait ∧ cl.mcUvSem = 0 := by
  have hfault := h.fault hproto
  cases htask : cl.task with
  | left => exact Or.inl rfl
  | wait =>
    refine Or.inr ⟨rfl, ?_⟩
    by_contra hsem
    have hnone := hrest .wait trivial
    rw [Client.step, if_pos ⟨hfault, htask, Nat.pos_of_ne_zero hsem⟩] at hnone
    cases hnone
  | test =>
    have hnone := hrest .testFlag trivial
    rw [Client.step, if_pos ⟨hfault, htask⟩] at hnone
    cases hnone
  | move =>
    have harrived := (h.streams.length_arrived hno).trans_lt hlen
    have hproc : cl.toConn.step env (.proc zeroScratch) = some _ :=
      step_proc.mpr ⟨⟨hfault, h.idle (by simp [htask]), harrived⟩, rfl⟩
    have hnone := hrest (.procMsg zeroScratch) trivial
    rw [Client.step, if_pos htask, hproc] at hnone
    cases hnone
  | parse =>
    cases hparse : cl.parsing with
    | false =>
      have hnone := hrest .leaveParse trivial
      rw [Client.step, if_pos ⟨hfault, htask, hparse⟩] at hnone
      cases hnone
    | true =>
      obtain ⟨fs, rest, hc⟩ := h.streams.inv.cache
      obtain ⟨ret, _, _, hcall, _⟩ := hc.call zeros
      rw [← h.streams.inv.pending] at hcall
      have hdecode : cl.toConn.step env (.decode zeros zeroScratch) = some (cl.toConn.afterDecode env zeroScratch ret) := by
        rw [Conn.step, if_pos ⟨hfault, hparse⟩, hcall]
        rfl
      have hnone := hrest (.decodeMsg zeros zeroScratch) trivial
      rw [Client.step, if_pos htask, hdecode] at hnone
      cases hnone

/-- The worker does not touch the close flag nor the network thread. -/
theorem Client.step_ofWorker (ha : a.OfWorker) (hs : cl.step env a = some cl') :
    cl'.mbCloseFlag = cl.mbCloseFlag ∧ cl'.recv = cl.recv := by
  cases Client.step_cases hs with
  | noData hrecv => exact ha.elim
  | pushMsg pMsg c hrecv hne hc => exact ha.elim
  | post hrecv => exact ha.elim
  | onClose hrecv hopen => exact ha.elim
  | stay htask hopen => exact ⟨rfl, rfl⟩
  | leave htask hclosed => exact ⟨rfl, rfl⟩
  | wait htask hsem => exact ⟨rfl, rfl⟩
  | procMsg s c htask hc => exact ⟨rfl, rfl⟩
  | decodeMsg junk s c htask hc => exact ⟨rfl, rfl⟩
  | leaveParse htask hidle => exact ⟨rfl, rfl⟩

variable {cl₀ cl₁ : Client} {acts later bs : List ClientAct}

theorem Client.exec_ofWorker (hW : ∀ b ∈ bs, b.OfWorker) (hrun : Machine.exec (Client.step env) cl bs = some cl') :
    cl'.mbCloseFlag = cl.mbCloseFlag ∧ cl'.recv = cl.recv := by
  induction bs generalizing cl with
  | nil =>
    cases hrun
    exact ⟨rfl, rfl⟩
  | cons b bs ih =>
    obtain ⟨u, hu, hrun⟩ := Machine.exec_cons_eq_some.mp hrun
    obtain ⟨hb, hW⟩ := List.forall_mem_cons.mp hW
    obtain ⟨hflag, hrecv⟩ := Client.step_ofWorker hb hu
    obtain ⟨hflag', hrecv'⟩ := ih hW hrun
    exact ⟨hflag'.trans hflag, hrecv'.trans hrecv⟩

theorem Serves.exec (h : Serves env p evs pushes cl) (hp : p ≠ []) (hW : ∀ b ∈ bs, b.OfWorker)
    (hrun : Machine.exec (Client.step env) cl bs = some cl') : Serves env p evs pushes cl' := by
  induction bs generalizing cl with
  | nil =>
    cases hrun
    exact h
  | cons b bs ih =>
    obtain ⟨u, hu, hrun⟩ := Machine.exec_cons_eq_some.mp hrun
    obtain ⟨hb, hW⟩ := List.forall_mem_cons.mp hW
    exact ih (h.step hp hb hu) hW hrun

theorem serves_later (hrun : Machine.exec (Client.step env) .start acts = some cl₀) (hnone : cl₀.miState = .none)
    (hup : cl₀.step env a = some cl₁) (hconn : cl₁.miState = .connect)
    (hlater : Machine.exec (Client.step env) cl₁ later = some cl) :
    Serves env cl₁.mstrProtocol cl₁.events (later.flatMap ClientAct.chunks) cl := by
  have hreach : Machine.exec (Client.step env) .start (acts ++ a :: later) = some cl :=
    Machine.exec_append.mpr ⟨cl₀, hrun, Machine.exec_cons_eq_some.mpr ⟨cl₁, hup, hlater⟩⟩
  have hanswered := answered_start.exec connInv_start (Client.exec_conn hreach)
  exact ⟨Client.streams hrun hnone hup hconn hlater, hanswered, Client.exec_idle hreach⟩

/-- A worker that has left has seen the close flag. -/
theorem Client.closed_of_left (hrun : Machine.exec (Client.step env) .start acts = some cl) (hleft : cl.task = .left) :
    cl.mbCloseFlag = true := by
  obtain ⟨_, cli, hcli, _, hsame⟩ := sameThreads_start.exec hrun
  by_contra hopen
  exact (workerInv_exec hcli).running (hsame.mbCloseFlag.trans (by simpa using hopen)) (hsame.task.trans hleft)

theorem Serves.exists_rests (h : Serves env p evs pushes cl) (hno : ¬Conflict pushes.flatten) :
    ∃ bs cl', (∀ b ∈ bs, ClientAct.OfWorker b) ∧ Machine.exec (Client.step env) cl bs = some cl' ∧ cl'.Rests env :=
  Machine.exists_exec_stuck (fun _ _ _ hi hb hs => hi.step h.protocol_ne_nil hb hs)
    (fun _ _ _ hi hb hs => Client.step_work hi.streams hno hb hs) h

theorem Serves.length_le (h : Serves env p evs pushes cl) (hno : ¬Conflict pushes.flatten) (hW : ∀ b ∈ bs, b.OfWorker)
    (hrun : Machine.exec (Client.step env) cl bs = some cl') : bs.length ≤ cl.work := by
  have hle := Machine.exec_length_le (fun _ _ _ hi hb hs => Serves.step hi h.protocol_ne_nil hb hs)
    (fun _ _ _ hi hb hs => Client.step_work (Serves.streams hi) hno hb hs) h hW hrun
  omega

/-- From any state of an upgraded client the worker alone comes to rest after at most
`work` steps, however it goes on; it then has left or waits without a permit, and if
it waits and the cuts were safe, everything sent so far has been answered. -/
theorem worker_drains (env : Env) (acts later : List ClientAct) (a : ClientAct) (cl₀ cl₁ cl : Client)
    (hrun : Machine.exec (Client.step env) .start acts = some cl₀) (hnone : cl₀.miState = .none)
    (hup : cl₀.step env a = some cl₁) (hconn : cl₁.miState = .connect) (hproto : cl₁.mstrProtocol ≠ fieldWebsocketKey)
    (hlater : Machine.exec (Client.step env) cl₁ later = some cl) (ms : List WireMsg) (os : List (List UInt8))
    (ho : OpenFrames os) (hwire : later.flatMap ClientAct.bytes = ms.flatMap WireMsg.wire ++ os.flatten)
    (hlen : (later.flatMap ClientAct.bytes).length < 2 ^ 63) :
    (∃ bs cl', (∀ b ∈ bs, ClientAct.OfWorker b) ∧ Machine.exec (Client.step env) cl bs = some cl' ∧ cl'.Rests env) ∧
      ∀ bs cl', (∀ b ∈ bs, ClientAct.OfWorker b) → Machine.exec (Client.step env) cl bs = some cl' →
        bs.length ≤ cl.work ∧
          (cl'.Rests env →
            (cl'.task = .left ∧ cl.mbCloseFlag = true ∨ cl'.task = .wait ∧ cl'.mcUvSem = 0) ∧
              (cl'.task = .wait → cl.recv = .outside →
                CutsSafe (ms.flatMap WireMsg.frames ++ os) (later.flatMap ClientAct.chunks) →
                cl'.delivered = ms.map WireMsg.message ∧
                  cl'.events = cl₁.events ++ (ms.map WireMsg.message).filterMap (answer env cl₁.mstrProtocol))) := by
  have hserves := serves_later hrun hnone hup hconn hlater
  have hp := hserves.protocol_ne_nil
  have hflat := (flatten_flatMap_chunks later).trans hwire
  have hno : ¬Conflict (later.flatMap ClientAct.chunks).flatten := hflat ▸ not_conflict_open ms ho
  refine ⟨hserves.exists_rests hno, fun bs cl' hW hworker => ⟨hserves.length_le hno hW hworker, fun hrest => ?_⟩⟩
  have hserves' := hserves.exec hp hW hworker
  obtain ⟨hflag, hrecv⟩ := Client.exec_ofWorker hW hworker
  have hlen' : (later.flatMap ClientAct.chunks).flatten.length < 2 ^ 63 := by rwa [flatten_flatMap_chunks]
  have hend := hserves'.rests hproto hno hlen' hrest
  have hreach : Machine.exec (Client.step env) .start (acts ++ a :: (later ++ bs)) = some cl' :=
    Machine.exec_append.mpr ⟨cl₀, hrun, Machine.exec_cons_eq_some.mpr ⟨cl₁, hup,
      Machine.exec_append.mpr ⟨cl, hlater, hworker⟩⟩⟩
  refine ⟨hend.imp_left fun hleft => ⟨hleft, ?_⟩, fun htask hout hsafe => ?_⟩
  · rw [← hflag]
    exact Client.closed_of_left hreach hleft
  · have hsem : cl'.mcUvSem = 0 := by
      rcases hend with hleft | ⟨_, hsem⟩
      · exact absurd (htask.symm.trans hleft) (by decide)
      · exact hsem
    have hquiet : Quiet cl' := ⟨htask, hsem, hrecv.trans hout⟩
    have hall := hserves'.streams.delivered_all ho hflat hsafe (hserves'.idle (by simp [htask]))
      (hquiet.mpRecvBuffer hreach)
    exact ⟨hall, hall ▸ hserves'.streams.events⟩

/-- The worker is still in the `ParseMsg` of the upgrade when the message arrives. -/
theorem worker_drains_text :
    ∃ cl₁ cl bs cl', Machine.exec (Client.step sampleEnv) cl₁ [.pushMsg [0x81, 1, 97], .post] = some cl ∧
      Machine.exec (Client.step sampleEnv) cl bs = some cl' ∧ cl'.Rests sampleEnv ∧ cl'.task = .wait ∧
      cl'.delivered = [textA.message] := by
  have hstates : (Machine.exec (Client.step sampleEnv) .start requestActs).bind (fun cl₀ =>
      (cl₀.step sampleEnv (.procMsg zeroScratch)).bind fun cl₁ =>
        (Machine.exec (Client.step sampleEnv) cl₁ [.pushMsg [0x81, 1, 97], .post]).map fun cl =>
          ((cl₀.miState, cl₁.miState), decide (cl₁.mstrProtocol = wsProtocolEcho), (cl.mbCloseFlag, cl.recv))) =
      some ((.none, .connect), true, (false, .outside)) := by decide +kernel
  obtain ⟨cl₀, hrun, hstates⟩ := Option.bind_eq_some_iff.mp hstates
  obtain ⟨cl₁, hup, hstates⟩ := Option.bind_eq_some_iff.mp hstates
  obtain ⟨cl, hlater, hstates⟩ := Option.map_eq_some_iff.mp hstates
  simp only [Prod.mk.injEq] at hstates
  obtain ⟨⟨hnone, hconn⟩, hecho, hflag, hrecv⟩ := hstates
  have hproto : cl₁.mstrProtocol ≠ fieldWebsocketKey := by
    rw [of_decide_eq_true hecho]
    decide
  obtain ⟨⟨bs, cl', hW, hworker, hrest⟩, hall⟩ := worker_drains sampleEnv requestActs _ (.procMsg zeroScratch) cl₀ cl₁ cl
    hrun hnone hup hconn hproto hlater [textA] [] openFrames_nil (by decide) (by decide)
  obtain ⟨hend, hdone⟩ := (hall bs cl' hW hworker).2 hrest
  have htask : cl'.task = .wait := by
    rcases hend with ⟨_, hclosed⟩ | ⟨htask, _⟩
    · exact absurd (hflag.symm.trans hclosed) (by decide)
    · exact htask
  have hsafe : CutsSafe ([textA].flatMap WireMsg.frames ++ [])
      (List.flatMap ClientAct.chunks [.pushMsg [0x81, 1, 97], .post]) := cutsSafe_whole textA.frames_whole
  exact ⟨cl₁, cl, bs, cl', hlater, hworker, hrest, htask, (hdone htask hrecv hsafe).1⟩

/-! ## Any order of steps -/

/-- The work that an action of the network thread brings. -/
def ClientAct.brings : ClientAct → ℕ
  | .pushMsg pMsg => pMsg.length
  | .post => 5
  | .onClose | .testFlag | .wait | .procMsg _ | .decodeMsg _ _ | .leaveParse => 0

/-- A step of the worker is paid for by the work that it had in front of it. -/
theorem Client.step_work_le (h : Streams env p evs pushes cl.toConn) (hno : ¬Conflict pushes.flatten)
    (hs : cl.step env a = some cl') : (if a.OfWorker then 1 else 0) + cl'.work ≤ cl.work + a.brings := by
  by_cases ha : a.OfWorker
  · have hlt := Client.step_work h hno ha hs
    rw [if_pos ha]
    omega
  · rw [if_neg ha]
    cases Client.step_cases hs with
    | noData hrecv => simp [ClientAct.brings]
    | pushMsg pMsg c hrecv hne hc =>
      obtain ⟨_, rfl⟩ := step_push.mp hc
      simp only [Client.work, Client.turn, Conn.arrived, ClientAct.brings, List.length_append]
      omega
    | post hrecv =>
      simp only [Client.work, Client.turn, Conn.arrived, ClientAct.brings]
      omega
    | onClose hrecv hopen => simp [Client.work, Client.turn, Conn.arrived]
    | stay htask hopen => exact absurd trivial ha
    | leave htask hclosed => exact absurd trivial ha
    | wait htask hsem => exact absurd trivial ha
    | procMsg s c htask hc => exact absurd trivial ha
    | decodeMsg junk s c htask hc => exact absurd trivial ha
    | leaveParse htask hidle => exact absurd trivial ha

theorem Client.exec_work_le {later : List ClientAct} (h : Streams env p evs pushes cl.toConn) (hp : p ≠ [])
    (hno : ¬Conflict (pushes ++ later.flatMap ClientAct.chunks).flatten)
    (hrun : Machine.exec (Client.step env) cl later = some cl') :
    later.countP (fun a => a.OfWorker) + cl'.work ≤ cl.work + (later.map ClientAct.brings).sum := by
  induction later generalizing pushes cl with
  | nil =>
    cases hrun
    simp
  | cons a later ih =>
    obtain ⟨u, hu, hrun⟩ := Machine.exec_cons_eq_some.mp hrun
    have hnow : ¬Conflict pushes.flatten := by
      intro hc
      rw [List.flatten_append] at hno
      exact hno (hc.append _)
    have hstep := Client.step_work_le h hnow hu
    have hu' := h.exec hp (Client.step_conn hu)
    rw [pushes_conn] at hu'
    rw [List.flatMap_cons, ← List.append_assoc] at hno
    have hrest := ih hu' hno hrun
    rw [List.countP_cons, List.map_cons, List.sum_cons]
    simp only [decide_eq_true_eq]
    omega

/-- In any order of the threads' steps after the upgrade, on any bytes without a conflict,
the worker takes at most five steps for each post and one for each byte, besides those
that it had in front of it. -/
theorem worker_steps_le (env : Env) (acts later : List ClientAct) (a : ClientAct) (cl₀ cl₁ cl : Client)
    (hrun : Machine.exec (Client.step env) .start acts = some cl₀) (hnone : cl₀.miState = .none)
    (hup : cl₀.step env a = some cl₁) (hconn : cl₁.miState = .connect)
    (hlater : Machine.exec (Client.step env) cl₁ later = some cl) (hno : ¬Conflict (later.flatMap ClientAct.bytes)) :
    later.countP (fun a => a.OfWorker) + cl.work ≤ cl₁.work + (later.map ClientAct.brings).sum := by
  have hp := (serves_later hrun hnone hup hconn hlater).protocol_ne_nil
  have hstart : Streams env cl₁.mstrProtocol cl₁.events [] cl₁.toConn :=
    Client.streams hrun hnone hup hconn (Machine.exec_nil cl₁)
  rw [← flatten_flatMap_chunks, ← List.nil_append (later.flatMap _)] at hno
  exact Client.exec_work_le hstart hp hno hlater

theorem worker_steps_le_text :
    ∃ cl₁ cl, Machine.exec (Client.step sampleEnv) cl₁ textActs = some cl ∧
      textActs.countP (fun a => a.OfWorker) + cl.work ≤ cl₁.work + (textActs.map ClientAct.brings).sum := by
  have hstates : (Machine.exec (Client.step sampleEnv) .start requestActs).bind (fun cl₀ =>
      (cl₀.step sampleEnv (.procMsg zeroScratch)).bind fun cl₁ =>
        (Machine.exec (Client.step sampleEnv) cl₁ textActs).map fun _ => (cl₀.miState, cl₁.miState)) =
      some (.none, .connect) := by decide +kernel
  obtain ⟨cl₀, hrun, hstates⟩ := Option.bind_eq_some_iff.mp hstates
  obtain ⟨cl₁, hup, hstates⟩ := Option.bind_eq_some_iff.mp hstates
  obtain ⟨cl, hlater, hstates⟩ := Option.map_eq_some_iff.mp hstates
  obtain ⟨hnone, hconn⟩ := Prod.mk.inj hstates
  have hwire : textActs.flatMap ClientAct.bytes = [textA].flatMap WireMsg.wire ++ [].flatten := by decide
  have hno : ¬Conflict (textActs.flatMap ClientAct.bytes) := hwire ▸ not_conflict_open [textA] openFrames_nil
  exact ⟨cl₁, cl, hlater, worker_steps_le sampleEnv requestActs textActs (.procMsg zeroScratch) cl₀ cl₁ cl hrun hnone hup
    hconn hlater hno⟩

end SrWebSocket
