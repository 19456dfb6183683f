import SrWebSocket.System.Leaks
import SrWebSocket.System.Service

/-! # Which clients can still be deleted

A worker that is not blocked when its client closes comes to its end by itself: it works
off what is in front of it and then sees the flag. After that a tick and the task pool
drop what they have, and the messages are gone already where a handler is registered.
-/
namespace SrWebSocket

/-- The rest of a callback, a tick, a step of the client's own worker, the end of its task. -/
def ProcAct.Finishes (p : ℕ) : ProcAct → Prop
  | .post _ | .onBaseTimer _ _ => True
  | .work pCli _ | .taskQuit pCli => pCli = p
  | .onAccept _ _ _ | .onRecv _ _ _ | .onSend _ _ | .onClose _ | .broadCast _ => False

variable {rules : RefRules} {env : Env} {pr pr' : Process} {p : ℕ} {bs : List ClientAct} {b : ClientAct} {cl cl' : Client}

/-- The worker of a closed client does not go back to the semaphore. -/
theorem Client.task_ne_wait (hb : b.OfWorker) (hclosed : cl.mbCloseFlag = true) (hs : cl.step env b = some cl') :
    cl'.task ≠ .wait := by
  cases Client.step_cases hs with
  | noData hrecv => exact hb.elim
  | pushMsg pMsg c hrecv hne hc => exact hb.elim
  | post hrecv => exact hb.elim
  | onClose hrecv hopen => exact hb.elim
  | stay htask hopen => exact absurd (hclosed.symm.trans hopen) (by decide)
  | leave htask _ => simp
  | wait htask hsem => simp
  | procMsg s c htask hc => simp
  | decodeMsg junk s c htask hc => simp [htask]
  | leaveParse htask hidle => simp

theorem Client.exec_not_stuck (hW : ∀ b ∈ bs, b.OfWorker) (hclosed : cl.mbCloseFlag = true) (hnot : ¬Stuck cl)
    (hrun : Machine.exec (Client.step env) cl bs = some cl') : ¬Stuck cl' := by
  induction bs generalizing cl with
  | nil =>
    cases hrun
    exact hnot
  | cons b bs ih =>
    obtain ⟨u, hu, hrun⟩ := Machine.exec_cons_eq_some.mp hrun
    obtain ⟨hb, hW⟩ := List.forall_mem_cons.mp hW
    have hflag := (Client.step_ofWorker hb hu).1.trans hclosed
    exact ih hW hflag (fun hstuck => Client.task_ne_wait hb hclosed hu hstuck.task) hrun

/-- The worker of a closed client has a run of its own to its end, unless it is blocked. -/
theorem Serves.exists_left {proto : List UInt8} {evs : List Event} {pushes : List (List UInt8)}
    (h : Serves env proto evs pushes cl) (hproto : proto ≠ fieldWebsocketKey) (hno : ¬Conflict pushes.flatten)
    (hlen : pushes.flatten.length < 2 ^ 63) (hclosed : cl.mbCloseFlag = true) (hnot : ¬Stuck cl) :
    ∃ bs cl', (∀ b ∈ bs, ClientAct.OfWorker b) ∧ Machine.exec (Client.step env) cl bs = some cl' ∧ cl'.task = .left ∧
      cl'.fault = none := by
  obtain ⟨bs, cl', hW, hrun, hrest⟩ := h.exists_rests hno
  have h' := h.exec h.protocol_ne_nil hW hrun
  refine ⟨bs, cl', hW, hrun, ?_, h'.fault hproto⟩
  rcases h'.rests hproto hno hlen hrest with hleft | ⟨htask, hsem⟩
  · exact hleft
  · have hflag := (Client.exec_ofWorker hW hrun).1.trans hclosed
    exact absurd ⟨hflag, htask, hsem⟩ (Client.exec_not_stuck hW hclosed hnot hrun)

/-! ## The network thread -/

/-- The network thread comes to the end of its callback, which is not one of a closed client. -/
theorem ProcInv.exists_idle (rules : RefRules) (env : Env) (h : ProcInv pr) (halive : pr.fault = none)
    (hclosed : (pr.cli p).mbCloseFlag = true) :
    ∃ acts pr', (∀ a ∈ acts, ProcAct.Finishes p a) ∧ Machine.exec (Process.step rules env) pr acts = some pr' ∧ pr'.Idle ∧
      pr'.cli p = pr.cli p := by
  cases hin : pr.inRecv with
  | none => exact ⟨[], pr, by simp, rfl, ⟨halive, hin⟩, rfl⟩
  | some q =>
    have hpost : (pr.cli q).toClient.step env .post = some _ := if_pos ⟨h.alive halive q, (h.recv q).mpr hin⟩
    have hstep : pr.step rules env (.post q) = some _ :=
      (if_pos ⟨halive, hin⟩).trans (congrArg (Option.map _) hpost)
    refine ⟨[.post q], _, List.forall_mem_singleton.mpr trivial, Machine.exec_one hstep, ⟨halive, rfl⟩, setCli_of_ne ?_⟩
    rintro rfl
    exact absurd (hclosed.symm.trans (h.receiving p hin).2) (by decide)

/-- A tick finds every closed client. -/
theorem ProcInv.exists_found (rules : RefRules) (env : Env) (h : ProcInv pr) (hidle : pr.Idle)
    (hclosed : (pr.cli p).mbCloseFlag = true) :
    ∃ a pr', a.Finishes p ∧ pr.step rules env a = some pr' ∧ pr'.Idle ∧ (pr'.cli p).toClient = (pr.cli p).toClient ∧
      p ∈ accepted pr'.events ∧ FoundClosed p pr'.events := by
  have hsome : pr.server.onBaseTimer (fun _ => 0) (fun _ => false) = some _ := h.registry.onBaseTimer_eq
  have hstep : pr.step rules env (.onBaseTimer (fun _ => 0) fun _ => false) = some _ :=
    (if_pos hidle).trans (congrArg (Option.map _) hsome)
  have hcalled : Closed p pr.server.events := (h.registry.flag p).mp hclosed
  refine ⟨.onBaseTimer (fun _ => 0) fun _ => false, _, trivial, hstep, hidle,
    withServer_keeps ((ticked_flag hclosed).trans hclosed.symm), ?_, ticked_foundClosed.mpr hcalled⟩
  have hacc : p ∈ accepted (pr.server.ticked (fun _ => 0) fun _ => false).events := by
    rw [ticked_accepted]
    exact h.registry.closed p hcalled
  exact hacc

/-- The task pool lets go of a client whose task has ended. -/
theorem Process.exists_quit (rules : RefRules) (env : Env) (halive : pr.fault = none) (hacc : p ∈ accepted pr.events)
    (hleft : (pr.cli p).task = .left) :
    ∃ acts pr', (∀ a ∈ acts, ProcAct.Finishes p a) ∧ Machine.exec (Process.step rules env) pr acts = some pr' ∧
      (pr'.cli p).quit = true ∧ (pr'.cli p).toClient = (pr.cli p).toClient ∧ pr'.events = pr.events := by
  cases hquit : (pr.cli p).quit with
  | true => exact ⟨[], pr, by simp, rfl, hquit, rfl, rfl⟩
  | false =>
    have hstep : pr.step rules env (.taskQuit p) = some _ := if_pos ⟨halive, hacc, hleft, hquit⟩
    refine ⟨[.taskQuit p], _, List.forall_mem_singleton.mpr rfl, Machine.exec_one hstep, ?_, ?_, rfl⟩
    · rw [setCli_self]
      rfl
    · rw [setCli_self]
      rfl

/-- A closed client whose worker can come to its end is found by a tick, and its task quits. -/
theorem ProcInv.exists_released (rules : RefRules) (h : ProcInv pr) (halive : pr.fault = none)
    (hclosed : (pr.cli p).mbCloseFlag = true) (hW : ∀ b ∈ bs, ClientAct.OfWorker b)
    (hworker : Machine.exec (Client.step env) (pr.cli p).toClient bs = some cl) (hleft : cl.task = .left)
    (hfault : cl.fault = none) :
    ∃ acts pr', (∀ a ∈ acts, ProcAct.Finishes p a) ∧ Machine.exec (Process.step rules env) pr acts = some pr' ∧
      p ∈ accepted pr'.events ∧ FoundClosed p pr'.events ∧ (pr'.cli p).quit = true ∧ (pr'.cli p).toClient = cl := by
  obtain ⟨as, u, has, hu, hidle, hcli⟩ := h.exists_idle rules env halive hclosed
  have hinv : ProcInv u := Machine.exec_invariant ProcInv (fun _ _ _ hi hs => hi.step hs) h hu
  obtain ⟨a, v, ha, hv, hidle', hcl, hacc, hfound⟩ := hinv.exists_found rules env hidle (hcli ▸ hclosed)
  rw [← hcli, ← hcl] at hworker
  obtain ⟨w, hw, rfl, hfault', hevents, _⟩ := Process.exec_work rules hidle'.1 hacc hW hworker
  obtain ⟨bs', pr', hbs', hpr', hquit, hcl', hevents'⟩ :=
    Process.exists_quit rules env (hfault' hfault) (hevents ▸ hacc) hleft
  have hwork : ∀ a ∈ bs.map (ProcAct.work p), a.Finishes p := by
    intro a ha
    obtain ⟨b, _, rfl⟩ := List.mem_map.mp ha
    rfl
  refine ⟨as ++ a :: (bs.map (.work p) ++ bs'), pr', ?_, ?_, ?_, ?_, hquit, hcl'⟩
  · exact List.forall_mem_append.mpr ⟨has, List.forall_mem_cons.mpr ⟨ha, List.forall_mem_append.mpr ⟨hwork, hbs'⟩⟩⟩
  · exact Machine.exec_append.mpr ⟨u, hu, Machine.exec_cons_eq_some.mpr ⟨v, hv, Machine.exec_append.mpr ⟨w, hw, hpr'⟩⟩⟩
  · rwa [hevents', hevents]
  · rwa [hevents', hevents]

/-! ## Deletion -/

theorem ProcInv.accepted_exec {acts : List ProcAct} (h : ProcInv pr) (hp : p ∈ accepted pr.events)
    (hrun : Machine.exec (Process.step rules env) pr acts = some pr') : p ∈ accepted pr'.events :=
  (Machine.exec_invariant (fun pr => ProcInv pr ∧ p ∈ accepted pr.events)
    (fun _ _ _ ⟨hi, hp⟩ hs => ⟨hi.step hs, accepted_subset hi.registry hs hp⟩) ⟨h, hp⟩ hrun).2

/-- Where there is a handler, no message of an upgraded client stays. -/
theorem Conn.leaked_of_handler {c : Conn} (h : getHandler c.mstrProtocol ≠ none) : c.leaked = 0 :=
  if_neg fun hboth => h hboth.2

/-- In every state of a server that lives, a closed client that was upgraded for the
protocol of a handler can still be deleted exactly when its worker does not wait without
a permit (and the count of a new object is zero). The rest of a callback, a tick, its own
worker and the end of its task are enough then. -/
theorem closed_deleted_iff (rules : RefRules) (env : Env) (hpos : 0 < rules.init + rules.held)
    (acts later : List ProcAct) (a : ProcAct) (pr₀ pr₁ pr : Process) (p : ℕ)
    (hrun : Machine.exec (Process.step rules env) .start acts = some pr₀) (hnone : (pr₀.cli p).miState = .none)
    (hup : pr₀.step rules env a = some pr₁) (hconn : (pr₁.cli p).miState = .connect)
    (hproto : (pr₁.cli p).mstrProtocol ≠ fieldWebsocketKey) (hhandler : getHandler (pr₁.cli p).mstrProtocol ≠ none)
    (hlater : Machine.exec (Process.step rules env) pr₁ later = some pr) (halive : pr.fault = none)
    (hclosed : (pr.cli p).mbCloseFlag = true) (hno : ¬Conflict (later.flatMap (ProcAct.chunksTo p)).flatten)
    (hlen : (later.flatMap (ProcAct.chunksTo p)).flatten.length < 2 ^ 63) :
    ((∃ after pr', Machine.exec (Process.step rules env) pr after = some pr' ∧ (pr'.cli p).deletes = 1) ↔
      rules.init = 0 ∧ ¬Stuck (pr.cli p).toClient) ∧
    (rules.init = 0 → ¬Stuck (pr.cli p).toClient → ∃ after pr', (∀ a ∈ after, ProcAct.Finishes p a) ∧
      Machine.exec (Process.step rules env) pr after = some pr' ∧ (pr'.cli p).deletes = 1) := by
  have hreach : Machine.exec (Process.step rules env) .start (acts ++ a :: later) = some pr :=
    Machine.exec_append.mpr ⟨pr₀, hrun, Machine.exec_cons_eq_some.mpr ⟨pr₁, hup, hlater⟩⟩
  have hinv := procInv_exec hreach
  have hacc : p ∈ accepted pr.events := hinv.registry.closed p ((hinv.registry.flag p).mp hclosed)
  have hfinish : rules.init = 0 → ¬Stuck (pr.cli p).toClient → ∃ after pr', (∀ a ∈ after, ProcAct.Finishes p a) ∧
      Machine.exec (Process.step rules env) pr after = some pr' ∧ (pr'.cli p).deletes = 1 := by
    intro hinit hnot
    obtain ⟨cs, b, ds, hcs, hb, hds, hchunks⟩ := exec_upgraded hrun hnone hup hconn hlater
    have hserves := serves_later hcs hnone hb hconn hds
    rw [hchunks] at hserves
    obtain ⟨bs, cl, hW, hworker, hleft, hfault⟩ := hserves.exists_left hproto hno hlen hclosed hnot
    have hserves' := hserves.exec hserves.protocol_ne_nil hW hworker
    obtain ⟨after, pr', hsteps, hafter, hacc', hfound, hquit, rfl⟩ :=
      hinv.exists_released rules halive hclosed hW hworker hleft hfault
    refine ⟨after, pr', hsteps, hafter, ?_⟩
    have hall := Machine.exec_append.mpr ⟨pr, hreach, hafter⟩
    obtain ⟨xs, hxs, _⟩ := procInv_start.exec_client hall p
    have hleak : LeakInv (pr'.cli p).toConn := leakInv_start.exec (Client.exec_conn hxs)
    have hlive : (pr'.cli p).live = [] := by
      apply List.length_eq_zero_iff.mp
      rw [hleak.live hfault, Conn.leaked_of_handler]
      rwa [hserves'.streams.protocol]
    rw [(lifeInv_exec hpos hall).deletes_eq hpos hacc', if_pos ⟨hinit, hfound, hquit, hlive⟩]
  refine ⟨⟨?_, fun ⟨hinit, hnot⟩ => ?_⟩, hfinish⟩
  · rintro ⟨after, pr', hafter, hdeletes⟩
    have hlife := lifeInv_exec hpos (Machine.exec_append.mpr ⟨pr, hreach, hafter⟩)
    refine ⟨?_, fun hstuck => ?_⟩
    · rw [hlife.deletes_eq hpos (hinv.accepted_exec hacc hafter)] at hdeletes
      by_contra hinit
      rw [if_neg fun hall => hinit hall.1] at hdeletes
      cases hdeletes
    · rw [((hstuck.exec hinv hafter).undeleted hlife hpos).2] at hdeletes
      cases hdeletes
  · obtain ⟨after, pr', _, hdeleted⟩ := hfinish hinit hnot
    exact ⟨after, pr', hdeleted⟩

/-- The client closes while its text waits for the worker. -/
theorem closed_deleted_iff_text :
    ∃ pr₁ pr after pr', Machine.exec (Process.step ⟨0, 1⟩ sampleEnv) pr₁
        [.onRecv 0 1 [0x81, 1, 97], .post 1, .onClose 1] = some pr ∧ (∀ a ∈ after, ProcAct.Finishes 1 a) ∧
      Machine.exec (Process.step ⟨0, 1⟩ sampleEnv) pr after = some pr' ∧ (pr'.cli 1).deletes = 1 := by
  have hstates : (Machine.exec (Process.step ⟨0, 1⟩ sampleEnv) .start upgradeActs).bind (fun pr₀ =>
      (pr₀.step ⟨0, 1⟩ sampleEnv (.work 1 (.procMsg zeroScratch))).bind fun pr₁ =>
        (Machine.exec (Process.step ⟨0, 1⟩ sampleEnv) pr₁ [.onRecv 0 1 [0x81, 1, 97], .post 1, .onClose 1]).map fun pr =>
          ((((pr₀.cli 1).miState, (pr₁.cli 1).miState), decide ((pr₁.cli 1).mstrProtocol = wsProtocolEcho)),
            (pr.fault, (pr.cli 1).mbCloseFlag, (pr.cli 1).task))) =
      some (((.none, .connect), true), (none, true, .parse)) := by decide +kernel
  obtain ⟨pr₀, hrun, hstates⟩ := Option.bind_eq_some_iff.mp hstates
  obtain ⟨pr₁, hup, hstates⟩ := Option.bind_eq_some_iff.mp hstates
  obtain ⟨pr, hlater, hstates⟩ := Option.map_eq_some_iff.mp hstates
  simp only [Prod.mk.injEq] at hstates
  obtain ⟨⟨⟨hnone, hconn⟩, hecho⟩, halive, hclosed, htask⟩ := hstates
  have hproto : (pr₁.cli 1).mstrProtocol ≠ fieldWebsocketKey ∧ getHandler (pr₁.cli 1).mstrProtocol ≠ none := by
    rw [of_decide_eq_true hecho]
    decide
  have hwire : (List.flatMap (ProcAct.chunksTo 1) [.onRecv 0 1 [0x81, 1, 97], .post 1, .onClose 1]).flatten =
      [textA].flatMap WireMsg.wire ++ [].flatten := by decide
  have hno := hwire ▸ not_conflict_open [textA] openFrames_nil
  obtain ⟨after, pr', hdeleted⟩ := (closed_deleted_iff ⟨0, 1⟩ sampleEnv (by decide) upgradeActs _
    (.work 1 (.procMsg zeroScratch)) pr₀ pr₁ pr 1 hrun hnone hup hconn hproto.1 hproto.2 hlater halive hclosed hno
    (by decide)).2 rfl fun hstuck => absurd (htask.symm.trans hstuck.task) (by decide)
  exact ⟨pr₁, pr, after, pr', hlater, hdeleted⟩

end SrWebSocket
