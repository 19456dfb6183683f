import SrWebSocket.System.Process

/-! # The components of the server

In every run of the process the registry makes a run of its own, and so does each
client, with the chunks that this client was sent and no others. Whatever holds for
one client in all of its runs holds for each client of the server.
-/
namespace SrWebSocket

/-- What an action does to the registry. -/
def ProcAct.onServer : ProcAct → List SvrAct
  | .onAccept now pUvTcp pCli => [.addCli now (some pUvTcp) (some pCli)]
  | .onRecv now pCli pMsg => if 0 < pMsg.length then [.active now pCli] else []
  | .onSend now pCli => [.active now pCli]
  | .onClose pCli => [.onClose pCli]
  | .onBaseTimer clock atOnce => [.onBaseTimer clock atOnce]
  | .broadCast pData => [.broadCast pData]
  | .post _ | .work _ _ | .taskQuit _ => []

/-- The chunks that an action pushes to a client. -/
def ProcAct.chunksTo (p : ℕ) : ProcAct → List (List UInt8)
  | .onRecv _ pCli pMsg => if pCli = p ∧ 0 < pMsg.length then [pMsg] else []
  | .onAccept _ _ _ | .post _ | .onSend _ _ | .onClose _ | .onBaseTimer _ _ | .broadCast _ | .work _ _ | .taskQuit _ => []

/-- What holds in every state of a server process. -/
structure ProcInv (pr : Process) : Prop where
  registry : RegistryInv pr.server
  fresh : ∀ p, p ∉ accepted pr.events → (pr.cli p).toClient = .start
  conn : ∀ p, ConnInv (pr.cli p).toConn
  alive : pr.fault = none → ∀ p, (pr.cli p).fault = none
  recv : ∀ p, (pr.cli p).recv = .pushed ↔ pr.inRecv = some p
  receiving : ∀ p, pr.inRecv = some p → pr.Open p

variable {rules : RefRules} {env : Env} {pr pr' : Process} {svr : WsServer} {a : ProcAct} {acts : List ProcAct} {p q : ℕ}
  {x : SvrCli} {cl cl' : Client} {b : ClientAct}

@[simp] theorem withServer_server : (pr.withServer svr).server = svr := rfl

@[simp] theorem withServer_inRecv : (pr.withServer svr).inRecv = pr.inRecv := rfl

@[simp] theorem withServer_fault : (pr.withServer svr).fault = pr.fault := rfl

theorem withServer_client :
    ((pr.withServer svr).cli p).toClient = { (pr.cli p).toClient with mbCloseFlag := (svr.cli p).mbCloseFlag } := rfl

theorem setCli_self : (pr.setCli p x).cli p = x := by simp [Process.setCli]

theorem setCli_of_ne (h : p ≠ q) : (pr.setCli q x).cli p = pr.cli p := by simp [Process.setCli, h]

theorem setCli_server (hflag : x.mbCloseFlag = (pr.cli q).mbCloseFlag) :
    (pr.setCli q x).server = pr.server.active x.miActiveTime q := by
  apply WsServer.ext
  · rfl
  · funext p
    rcases eq_or_ne p q with rfl | hne
    · simp [Process.server, WsServer.active, setCli_self, hflag]
    · simp [Process.server, WsServer.active, setCli_of_ne hne, hne]
  · rfl

theorem active_self : svr.active (svr.cli p).miActiveTime p = svr := by
  apply WsServer.ext
  · rfl
  · exact Function.update_eq_self p svr.cli
  · rfl

theorem Client.step_mbCloseFlag (hs : cl.step env b = some cl') (hb : b ≠ .onClose) : cl'.mbCloseFlag = cl.mbCloseFlag := by
  cases Client.step_cases hs with
  | noData hrecv => rfl
  | pushMsg pMsg c hrecv hne hc => rfl
  | post hrecv => rfl
  | onClose hrecv hopen => exact absurd rfl hb
  | stay htask hopen => rfl
  | leave htask hclosed => rfl
  | wait htask hsem => rfl
  | procMsg s c htask hc => rfl
  | decodeMsg junk s c htask hc => rfl
  | leaveParse htask hidle => rfl

theorem ClientAct.OfWorker.ne_onClose (h : b.OfWorker) : b ≠ .onClose := by
  rintro rfl
  exact h

theorem Process.step_server (hs : pr.step rules env a = some pr') :
    Machine.exec WsServer.step pr.server a.onServer = some pr'.server := by
  have hsame (x : SvrCli) (q : ℕ) (hflag : x.mbCloseFlag = (pr.cli q).mbCloseFlag)
      (htime : x.miActiveTime = (pr.cli q).miActiveTime) : (pr.setCli q x).server = pr.server := by
    rw [setCli_server hflag, htime]
    exact active_self
  have hactive (x : SvrCli) (q : ℕ) (hopen : pr.Open q) (hflag : x.mbCloseFlag = (pr.cli q).mbCloseFlag) :
      Machine.exec WsServer.step pr.server [.active x.miActiveTime q] = some (pr.setCli q x).server := by
    rw [setCli_server hflag]
    exact Machine.exec_one (if_pos hopen.1)
  cases Process.step_cases hs with
  | onAccept now pUvTcp pCli hidle hnew =>
    refine Machine.exec_one ((if_pos (by simpa [Process.server] using hnew)).trans (congrArg some ?_))
    apply WsServer.ext
    · rfl
    · funext q
      rcases eq_or_ne q pCli with rfl | hne
      · simp [Process.server, WsServer.addCli, setCli_self, SvrCli.new, Client.start]
      · simp [Process.server, WsServer.addCli, setCli_of_ne hne, Process.withServer, hne]
    · rfl
  | noData now pCli hidle hopen => rfl
  | onRecv now pCli pMsg cl hidle hopen hne hcl =>
    rw [ProcAct.onServer, if_pos (List.length_pos_iff.mpr hne)]
    exact hactive { pr.cli pCli with toClient := cl, miActiveTime := now } pCli hopen
      (Client.step_mbCloseFlag hcl (by simp))
  | post pCli cl halive hrecv hcl =>
    exact congrArg some (hsame { pr.cli pCli with toClient := cl } pCli (Client.step_mbCloseFlag hcl (by simp)) rfl).symm
  | onSend now pCli hidle hopen => exact hactive { pr.cli pCli with miActiveTime := now } pCli hopen rfl
  | onClose pCli hidle hopen => exact Machine.exec_one (if_pos hopen.1)
  | onBaseTimer clock atOnce svr hidle hsvr => exact Machine.exec_one hsvr
  | broadCast pData halive => rfl
  | work pCli a cl halive hacc ha hcl =>
    exact congrArg some (hsame ((pr.cli pCli).work cl) pCli (Client.step_mbCloseFlag hcl ha.ne_onClose) rfl).symm
  | taskQuit pCli halive hacc hleft hquit =>
    exact congrArg some (hsame ((pr.cli pCli).taskQuit rules) pCli rfl rfl).symm

/-! ## The clients -/

theorem exec_onClose (hfault : cl.fault = none) (hrecv : cl.recv ≠ .pushed) (hopen : cl.mbCloseFlag = false) :
    Machine.exec (Client.step env) cl [.onClose] = some { cl with mbCloseFlag := true } := by
  have hout : cl.recv = .outside := by
    cases h : cl.recv with
    | outside => rfl
    | pushed => exact absurd h hrecv
  exact Machine.exec_one (if_pos ⟨hfault, hout, hopen⟩)

/-- A call of the server that closes a client or leaves it open, when the network
thread is in no other callback. -/
theorem ProcInv.withServer_closes (h : ProcInv pr) (hidle : pr.Idle)
    (hflag : (pr.cli p).mbCloseFlag = true → (svr.cli p).mbCloseFlag = true) :
    ∃ bs, Machine.exec (Client.step env) (pr.cli p).toClient bs = some ((pr.withServer svr).cli p).toClient ∧
      bs.flatMap ClientAct.chunks = [] := by
  cases hopen : (pr.cli p).mbCloseFlag with
  | true =>
    refine ⟨[], ?_, rfl⟩
    rw [withServer_client, hflag hopen, ← hopen]
    rfl
  | false =>
    cases hclosed : (svr.cli p).mbCloseFlag with
    | false =>
      refine ⟨[], ?_, rfl⟩
      rw [withServer_client, hclosed, ← hopen]
      rfl
    | true =>
      refine ⟨[.onClose], ?_, rfl⟩
      rw [withServer_client, hclosed]
      refine exec_onClose (h.alive hidle.1 p) (fun hrecv => ?_) hopen
      exact absurd (hidle.2.symm.trans ((h.recv p).mp hrecv)) (by simp)

theorem withServer_keeps (hflag : (svr.cli p).mbCloseFlag = (pr.cli p).mbCloseFlag) :
    ((pr.withServer svr).cli p).toClient = (pr.cli p).toClient := by
  rw [withServer_client, hflag]

theorem ticked_flag {clock : ℕ → ℤ} {atOnce : ℕ → Bool} (h : (svr.cli p).mbCloseFlag = true) :
    ((svr.ticked clock atOnce).cli p).mbCloseFlag = true := by
  rw [ticked_cli]
  split
  · simp [CliStatus.ticked, h]
  · exact h

theorem RegistryInv.broadCast_cli (h : RegistryInv svr) (pData : List UInt8) : (svr.broadCast pData).cli = svr.cli := by
  rw [broadCast_eq h.nodup]
  funext p
  exact ite_self _

/-- Every step is a run of each client, with the chunks that it was sent. -/
theorem ProcInv.step_client (h : ProcInv pr) (hs : pr.step rules env a = some pr') (p : ℕ) :
    ∃ bs, Machine.exec (Client.step env) (pr.cli p).toClient bs = some (pr'.cli p).toClient ∧
      bs.flatMap ClientAct.chunks = a.chunksTo p := by
  have hkeep {cl : Client} (he : cl = (pr.cli p).toClient) :
      ∃ bs, Machine.exec (Client.step env) (pr.cli p).toClient bs = some cl ∧ bs.flatMap ClientAct.chunks = [] :=
    ⟨[], congrArg some he.symm, rfl⟩
  have hone {b : ClientAct} {cl : Client} (hb : (pr.cli p).toClient.step env b = some cl) :
      ∃ bs, Machine.exec (Client.step env) (pr.cli p).toClient bs = some cl ∧ bs.flatMap ClientAct.chunks = b.chunks :=
    ⟨[b], Machine.exec_one hb, List.append_nil _⟩
  have hself (x : SvrCli) : ((pr.setCli p x).cli p).toClient = x.toClient := by rw [setCli_self]
  have hother {q : ℕ} (x : SvrCli) (hne : p ≠ q) : ((pr.setCli q x).cli p).toClient = (pr.cli p).toClient := by
    rw [setCli_of_ne hne]
  cases Process.step_cases hs with
  | onAccept now pUvTcp pCli hidle hnew =>
    refine hkeep ?_
    rcases eq_or_ne p pCli with rfl | hne
    · rw [setCli_self, h.fresh p hnew]
      rfl
    · rw [setCli_of_ne hne]
      refine withServer_keeps ?_
      simp [WsServer.addCli, Process.server, hne]
  | noData now pCli hidle hopen =>
    rw [ProcAct.chunksTo, if_neg fun hp => absurd hp.2 (by simp)]
    exact hkeep rfl
  | onRecv now pCli pMsg cl hidle hopen hne hcl =>
    have hpos := List.length_pos_iff.mpr hne
    rcases eq_or_ne p pCli with rfl | hne
    · have hrun := hone hcl
      rw [ClientAct.chunks, if_pos hpos] at hrun
      rwa [ProcAct.chunksTo, if_pos ⟨rfl, hpos⟩, hself]
    · rw [ProcAct.chunksTo, if_neg fun hp => hne hp.1.symm, hother _ hne]
      exact hkeep rfl
  | post pCli cl halive hrecv hcl =>
    rcases eq_or_ne p pCli with rfl | hne
    · rw [hself]
      exact hone hcl
    · exact hkeep (hother _ hne)
  | onSend now pCli hidle hopen =>
    rcases eq_or_ne p pCli with rfl | hne
    · exact hkeep (hself _)
    · exact hkeep (hother _ hne)
  | onClose pCli hidle hopen =>
    refine h.withServer_closes hidle fun hclosed => ?_
    rcases eq_or_ne p pCli with rfl | hne
    · simp [WsServer.onClose]
    · simp [WsServer.onClose, Process.server, hne, hclosed]
  | onBaseTimer clock atOnce svr hidle hsvr =>
    cases h.registry.onBaseTimer_eq.symm.trans hsvr
    exact h.withServer_closes hidle fun hclosed => ticked_flag hclosed
  | broadCast pData halive =>
    refine hkeep (withServer_keeps ?_)
    rw [h.registry.broadCast_cli]
    rfl
  | work pCli a cl halive hacc ha hcl =>
    rcases eq_or_ne p pCli with rfl | hne
    · have hrun := hone hcl
      rw [chunks_ofWorker ha] at hrun
      rwa [hself]
    · exact hkeep (hother _ hne)
  | taskQuit pCli halive hacc hleft hquit =>
    rcases eq_or_ne p pCli with rfl | hne
    · exact hkeep (hself _)
    · exact hkeep (hother _ hne)

/-! ## The invariant -/

theorem procInv_start : ProcInv .start where
  registry := registryInv_start
  fresh p _ := rfl
  conn p := connInv_start
  alive _ p := rfl
  recv p := by simp [Process.start, Client.start]
  receiving p h := absurd h (by simp [Process.start])

theorem Client.step_network (hs : cl.step env b = some cl') (hb : ¬b.OfWorker) :
    cl'.toSession = cl.toSession ∧ cl'.task = cl.task := by
  cases Client.step_cases hs with
  | noData hrecv => exact ⟨rfl, rfl⟩
  | pushMsg pMsg c hrecv hne hc =>
    obtain ⟨_, rfl⟩ := step_push.mp hc
    exact ⟨rfl, rfl⟩
  | post hrecv => exact ⟨rfl, rfl⟩
  | onClose hrecv hopen => exact ⟨rfl, rfl⟩
  | stay htask hopen => exact absurd trivial hb
  | leave htask hclosed => exact absurd trivial hb
  | wait htask hsem => exact absurd trivial hb
  | procMsg s c htask hc => exact absurd trivial hb
  | decodeMsg junk s c htask hc => exact absurd trivial hb
  | leaveParse htask hidle => exact absurd trivial hb

theorem accepted_subset (h : RegistryInv pr.server) (hs : pr.step rules env a = some pr') (hp : p ∈ accepted pr.events) :
    p ∈ accepted pr'.events := by
  have hacc : accepted pr'.events = accepted pr.events ++ a.onServer.filterMap SvrAct.accepts :=
    accepted_exec h (Process.step_server hs)
  rw [hacc]
  exact List.mem_append_left _ hp

/-- A step does nothing to a client that is not accepted by then. -/
theorem ProcInv.step_fresh (h : ProcInv pr) (hreg : RegistryInv pr'.server) (hs : pr.step rules env a = some pr')
    (hp : p ∉ accepted pr'.events) : (pr'.cli p).toClient = .start := by
  have hold : (pr.cli p).toClient = .start := h.fresh p (mt (accepted_subset h.registry hs) hp)
  have hunset : (pr'.cli p).mbCloseFlag = false := by
    by_contra hclosed
    exact hp (hreg.closed p ((hreg.flag p).mp (by simpa [Process.server] using hclosed)))
  have hother {q : ℕ} (x : SvrCli) (hq : q ∈ accepted pr.events) :
      ((pr.setCli q x).cli p).toClient = (pr.cli p).toClient := by
    rw [setCli_of_ne]
    rintro rfl
    exact hp (accepted_subset h.registry hs hq)
  have hserver (svr : WsServer) (hflag : ((pr.withServer svr).cli p).mbCloseFlag = false) :
      ((pr.withServer svr).cli p).toClient = .start := by
    have hflag : (svr.cli p).mbCloseFlag = false := hflag
    rw [withServer_client, hold, hflag]
    rfl
  cases Process.step_cases hs with
  | onAccept now pUvTcp pCli hidle hnew =>
    rcases eq_or_ne p pCli with rfl | hne
    · rw [setCli_self]
      rfl
    · rw [setCli_of_ne hne] at hunset ⊢
      exact hserver _ hunset
  | noData now pCli hidle hopen => exact hold
  | onRecv now pCli pMsg cl hidle hopen hne hcl => exact (hother _ hopen.1).trans hold
  | post pCli cl halive hrecv hcl => exact (hother _ (h.receiving pCli hrecv).1).trans hold
  | onSend now pCli hidle hopen => exact (hother _ hopen.1).trans hold
  | onClose pCli hidle _ => exact hserver _ hunset
  | onBaseTimer clock atOnce svr hidle hsvr => exact hserver _ hunset
  | broadCast pData halive => exact hserver _ hunset
  | work pCli a cl halive hacc ha hcl => exact (hother _ hacc).trans hold
  | taskQuit pCli halive hacc hleft hquit => exact (hother _ hacc).trans hold

theorem ProcInv.step_alive (h : ProcInv pr) (hs : pr.step rules env a = some pr') (halive' : pr'.fault = none) (p : ℕ) :
    (pr'.cli p).fault = none := by
  have hset {x : SvrCli} {q : ℕ} (halive : pr.fault = none) (hx : x.fault = none) : ((pr.setCli q x).cli p).fault = none := by
    rcases eq_or_ne p q with rfl | hne
    · rwa [setCli_self]
    · rw [setCli_of_ne hne]
      exact h.alive halive p
  cases Process.step_cases hs with
  | onAccept now pUvTcp pCli hidle hnew =>
    rcases eq_or_ne p pCli with rfl | hne
    · rw [setCli_self]
      rfl
    · rw [setCli_of_ne hne]
      exact h.alive hidle.1 p
  | noData now pCli hidle hopen => exact h.alive hidle.1 p
  | onRecv now pCli pMsg cl hidle hopen hne hcl =>
    exact hset hidle.1 ((congrArg Session.fault (Client.step_network hcl id).1).trans (h.alive hidle.1 pCli))
  | post pCli cl halive hrecv hcl =>
    exact hset halive ((congrArg Session.fault (Client.step_network hcl id).1).trans (h.alive halive pCli))
  | onSend now pCli hidle hopen => exact hset hidle.1 (h.alive hidle.1 pCli)
  | onClose pCli hidle hopen => exact h.alive hidle.1 p
  | onBaseTimer clock atOnce svr hidle hsvr => exact h.alive hidle.1 p
  | broadCast pData halive => exact h.alive halive p
  | work pCli a cl halive hacc ha hcl => exact hset halive halive'
  | taskQuit pCli halive hacc hleft hquit => exact hset halive (h.alive halive pCli)

theorem ProcInv.step_recv (h : ProcInv pr) (hs : pr.step rules env a = some pr') (p : ℕ) :
    (pr'.cli p).recv = .pushed ↔ pr'.inRecv = some p := by
  have hset {x : SvrCli} {q : ℕ} (hx : x.recv = (pr.cli q).recv) :
      ((pr.setCli q x).cli p).recv = .pushed ↔ pr.inRecv = some p := by
    rcases eq_or_ne p q with rfl | hne
    · rw [setCli_self, hx]
      exact h.recv p
    · rw [setCli_of_ne hne]
      exact h.recv p
  cases Process.step_cases hs with
  | onAccept now pUvTcp pCli hidle hnew =>
    rcases eq_or_ne p pCli with rfl | hne
    · rw [setCli_self]
      simp [SvrCli.new, Client.start, Process.setCli, hidle.2]
    · rw [setCli_of_ne hne]
      exact h.recv p
  | noData now pCli hidle hopen => exact h.recv p
  | onRecv now pCli pMsg cl hidle hopen hne hcl =>
    rcases eq_or_ne p pCli with rfl | hother
    · rw [setCli_self]
      refine iff_of_true ?_ rfl
      cases Client.step_cases hcl with
      | noData hrecv => exact absurd rfl hne
      | pushMsg pMsg c hrecv hne hc => rfl
    · rw [setCli_of_ne hother, h.recv p, hidle.2]
      simp [hother.symm]
  | post pCli cl halive hrecv hcl =>
    rcases eq_or_ne p pCli with rfl | hne
    · rw [setCli_self]
      refine iff_of_false ?_ (by simp)
      cases Client.step_cases hcl with
      | post hpushed => simp
    · rw [setCli_of_ne hne, h.recv p, hrecv]
      simp [hne.symm]
  | onSend now pCli hidle hopen => exact hset rfl
  | onClose pCli hidle hopen => exact h.recv p
  | onBaseTimer clock atOnce svr hidle hsvr => exact h.recv p
  | broadCast pData halive => exact h.recv p
  | work pCli a cl halive hacc ha hcl => exact hset (Client.step_ofWorker ha hcl).2
  | taskQuit pCli halive hacc hleft hquit => exact hset rfl

theorem ProcInv.step_receiving (h : ProcInv pr) (hs : pr.step rules env a = some pr') (p : ℕ)
    (hrecv' : pr'.inRecv = some p) : pr'.Open p := by
  have hidle (hidle : pr.Idle) (he : pr.inRecv = some p) : pr'.Open p := absurd (hidle.2.symm.trans he) (by simp)
  have hset {x : SvrCli} {q : ℕ} (hx : x.mbCloseFlag = (pr.cli q).mbCloseFlag) (ho : pr.Open p) :
      ((pr.setCli q x).cli p).mbCloseFlag = false := by
    rcases eq_or_ne p q with rfl | hne
    · rw [setCli_self, hx]
      exact ho.2
    · rw [setCli_of_ne hne]
      exact ho.2
  have hacc (ho : pr.Open p) : p ∈ accepted pr'.events := accepted_subset h.registry hs ho.1
  cases Process.step_cases hs with
  | onAccept now pUvTcp pCli hidle' hnew => exact hidle hidle' hrecv'
  | noData now pCli hidle' hopen => exact hidle hidle' hrecv'
  | onRecv now pCli pMsg cl hidle' hopen hne hcl =>
    obtain rfl := Option.some.inj hrecv'
    exact ⟨hacc hopen, hset (Client.step_mbCloseFlag hcl (by simp)) hopen⟩
  | post pCli cl halive hrecv hcl => cases hrecv'
  | onSend now pCli hidle' hopen => exact hidle hidle' hrecv'
  | onClose pCli hidle' hopen => exact hidle hidle' hrecv'
  | onBaseTimer clock atOnce svr hidle' hsvr => exact hidle hidle' hrecv'
  | broadCast pData halive =>
    have ho := h.receiving p hrecv'
    refine ⟨hacc ho, ?_⟩
    have hflag : ((pr.server.broadCast pData).cli p).mbCloseFlag = (pr.cli p).mbCloseFlag := by
      rw [h.registry.broadCast_cli]
      rfl
    exact hflag.trans ho.2
  | work pCli a cl halive hacc' ha hcl =>
    have ho := h.receiving p hrecv'
    exact ⟨hacc ho, hset (Client.step_mbCloseFlag hcl ha.ne_onClose) ho⟩
  | taskQuit pCli halive hacc' hleft hquit =>
    have ho := h.receiving p hrecv'
    exact ⟨hacc ho, hset rfl ho⟩

theorem ProcInv.step (h : ProcInv pr) (hs : pr.step rules env a = some pr') : ProcInv pr' := by
  have hreg : RegistryInv pr'.server :=
    Machine.exec_invariant RegistryInv (fun _ _ _ hi hs => hi.step hs) h.registry (Process.step_server hs)
  refine ⟨hreg, fun p hp => h.step_fresh hreg hs hp, fun p => ?_, fun ha p => h.step_alive hs ha p,
    fun p => h.step_recv hs p, fun p hp => h.step_receiving hs p hp⟩
  obtain ⟨bs, hbs, _⟩ := h.step_client hs p
  exact Machine.exec_invariant ConnInv (fun _ _ _ hi hs => hi.step hs) (h.conn p) (Client.exec_conn hbs)

theorem procInv_exec (h : Machine.exec (Process.step rules env) .start acts = some pr) : ProcInv pr :=
  Machine.exec_invariant ProcInv (fun _ _ _ hi hs => hi.step hs) procInv_start h

/-! ## Runs -/

theorem ProcInv.exec_client (h : ProcInv pr) (hrun : Machine.exec (Process.step rules env) pr acts = some pr') (p : ℕ) :
    ∃ bs, Machine.exec (Client.step env) (pr.cli p).toClient bs = some (pr'.cli p).toClient ∧
      bs.flatMap ClientAct.chunks = acts.flatMap (ProcAct.chunksTo p) := by
  obtain ⟨bs, cl, hbs, hchunks, rfl, _⟩ := Machine.exec_refines (fun pr cl => (pr.cli p).toClient = cl ∧ ProcInv pr)
    (ProcAct.chunksTo p) ClientAct.chunks (fun pr a pr' cl ⟨he, hi⟩ hs => by
      obtain ⟨bs, hbs, hchunks⟩ := hi.step_client hs p
      exact ⟨bs, _, he ▸ hbs, hchunks, rfl, hi.step hs⟩) ⟨rfl, h⟩ hrun
  exact ⟨bs, hbs, hchunks⟩

/-- However its threads interleave, the registry of a server makes a run of the
registry and each client a run of a client, in which that client is given the chunks
that it was sent and no others; and each answers them by itself. -/
theorem process_components (rules : RefRules) (env : Env) (acts : List ProcAct) (pr : Process)
    (hrun : Machine.exec (Process.step rules env) .start acts = some pr) :
    Machine.exec WsServer.step .start (acts.flatMap ProcAct.onServer) = some pr.server ∧
      ∀ p, (∃ bs, Machine.exec (Client.step env) .start bs = some (pr.cli p).toClient ∧
        bs.flatMap ClientAct.chunks = acts.flatMap (ProcAct.chunksTo p)) ∧ Answered env (pr.cli p).toConn := by
  constructor
  · obtain ⟨svr, hsvr, rfl⟩ := Machine.exec_simulates (fun pr svr => Process.server pr = svr) ProcAct.onServer
      (fun pr a pr' svr he hs => ⟨_, he ▸ Process.step_server hs, rfl⟩) rfl hrun
    exact hsvr
  · intro p
    obtain ⟨bs, hbs, hchunks⟩ := procInv_start.exec_client hrun p
    exact ⟨⟨bs, hbs, hchunks⟩, answered_start.exec connInv_start (Client.exec_conn hbs)⟩

/-- Two clients, of whom one is served while the other one waits. -/
def twoClients : List ProcAct :=
  [.onAccept 0 0 1, .onAccept 0 0 2, .work 2 .testFlag, .onRecv 0 1 [71], .work 1 .testFlag, .post 1, .work 1 .wait,
    .onRecv 0 2 [69], .work 1 (.procMsg zeroScratch), .post 2, .work 1 .leaveParse, .onClose 1]

theorem process_components_two :
    ∃ pr bs, Machine.exec (Process.step ⟨0, 1⟩ sampleEnv) .start twoClients = some pr ∧
      Machine.exec (Client.step sampleEnv) .start bs = some (pr.cli 2).toClient ∧ bs.flatMap ClientAct.chunks = [[69]] ∧
      Machine.exec WsServer.step .start (twoClients.flatMap ProcAct.onServer) = some pr.server := by
  have hrun : (Machine.exec (Process.step ⟨0, 1⟩ sampleEnv) .start twoClients).isSome = true := by decide +kernel
  obtain ⟨pr, hpr⟩ := Option.isSome_iff_exists.mp hrun
  obtain ⟨hserver, hclients⟩ := process_components ⟨0, 1⟩ sampleEnv twoClients pr hpr
  obtain ⟨⟨bs, hbs, hchunks⟩, _⟩ := hclients 2
  exact ⟨pr, bs, hpr, hbs, hchunks, hserver⟩

end SrWebSocket
