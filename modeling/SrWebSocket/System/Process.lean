import SrWebSocket.Client.Progress
import SrWebSocket.General.RefCount
import SrWebSocket.Server.Registry

/-! # The whole server

The registry, the clients with their two threads, and the reference counts. One
thread runs every callback of the clients and of the server, the worker of each
client runs beside it, and a fault in one of them ends the process. A client has a
reference of the registry, those of the task pool and one for each of its messages.
-/
namespace SrWebSocket
open RefCount

/-- What the base library does with reference counts: what the count of a new
`CRcObject` is, and how many references the task pool has on a task until it is
through with it. -/
structure RefRules where
  init : ℕ
  held : ℕ

/-- A `CWsCli` of the server, and whether the task pool is through with it. -/
structure SvrCli extends Client, Counted where
  miActiveTime : ℤ
  quit : Bool

/-- After `AddCli`. -/
def SvrCli.new (rules : RefRules) (now : ℤ) : SvrCli where
  toClient := .start
  toCounted := Counted.take^[rules.held] (Counted.take { count := rules.init, deletes := 0 })
  miActiveTime := now
  quit := false

structure Process where
  mvecClis : List ℕ
  cli : ℕ → SvrCli
  events : List SvrEvent
  /-- the client whose `OnRecv` has pushed and not yet posted -/
  inRecv : Option ℕ
  fault : Option Fault

def Process.start : Process where
  mvecClis := []
  cli _ := { toClient := .start, count := 0, deletes := 0, miActiveTime := 0, quit := false }
  events := []
  inRecv := none
  fault := none

/-- What the registry sees of a process. -/
def Process.server (pr : Process) : WsServer where
  mvecClis := pr.mvecClis
  cli p := { mbCloseFlag := (pr.cli p).mbCloseFlag, miActiveTime := (pr.cli p).miActiveTime }
  events := pr.events

/-- The process after calls of the server, in which each `UNREF` counts. -/
def Process.withServer (pr : Process) (svr : WsServer) : Process :=
  { pr with
    mvecClis := svr.mvecClis
    events := svr.events
    cli := fun p => { pr.cli p with
      mbCloseFlag := (svr.cli p).mbCloseFlag
      miActiveTime := (svr.cli p).miActiveTime
      toCounted := Counted.drop^[(svr.events.drop pr.events.length).count (.call p .unref)] (pr.cli p).toCounted } }

def Process.setCli (pr : Process) (pCli : ℕ) (x : SvrCli) : Process :=
  { pr with cli := Function.update pr.cli pCli x }

/-- The network thread can take a callback. -/
def Process.Idle (pr : Process) : Prop := pr.fault = none ∧ pr.inRecv = none

instance (pr : Process) : Decidable pr.Idle := inferInstanceAs (Decidable (_ ∧ _))

def Process.Open (pr : Process) (pCli : ℕ) : Prop := pCli ∈ accepted pr.events ∧ (pr.cli pCli).mbCloseFlag = false

instance (pr : Process) (pCli : ℕ) : Decidable (pr.Open pCli) := inferInstanceAs (Decidable (_ ∧ _))

/-- A step of the worker; each message takes a reference and drops it when it is deleted. -/
def SvrCli.work (x : SvrCli) (cl : Client) : SvrCli :=
  { x with
    toClient := cl
    toCounted := Counted.drop^[cl.deleted.length - x.deleted.length] (Counted.take^[cl.created - x.created] x.toCounted) }

/-- The task pool drops its references. -/
def SvrCli.taskQuit (rules : RefRules) (x : SvrCli) : SvrCli :=
  { x with toCounted := Counted.drop^[rules.held] x.toCounted, quit := true }

inductive ProcAct where
  | onAccept (now : ℤ) (pUvTcp pCli : ℕ)
  | onRecv (now : ℤ) (pCli : ℕ) (pMsg : List UInt8)
  | post (pCli : ℕ)
  | onSend (now : ℤ) (pCli : ℕ)
  | onClose (pCli : ℕ)
  | onBaseTimer (clock : ℕ → ℤ) (atOnce : ℕ → Bool)
  | broadCast (pData : List UInt8)
  | work (pCli : ℕ) (a : ClientAct)
  | taskQuit (pCli : ℕ)

/-- A client has no callback after its `OnClose`. -/
def Process.step (rules : RefRules) (env : Env) (pr : Process) : ProcAct → Option Process
  | .onAccept now pUvTcp pCli =>
    if pr.Idle ∧ pCli ∉ accepted pr.events then
      some ((pr.withServer (pr.server.addCli now (some pUvTcp) (some pCli)).1).setCli pCli (.new rules now))
    else none
  | .onRecv now pCli pMsg =>
    if pr.Idle ∧ pr.Open pCli then
      if 0 < pMsg.length then
        ((pr.cli pCli).toClient.step env (.pushMsg pMsg)).map fun cl =>
          { pr.setCli pCli { pr.cli pCli with toClient := cl, miActiveTime := now } with inRecv := some pCli }
      else some pr
    else none
  | .post pCli =>
    if pr.fault = none ∧ pr.inRecv = some pCli then
      ((pr.cli pCli).toClient.step env .post).map fun cl =>
        { pr.setCli pCli { pr.cli pCli with toClient := cl } with inRecv := none }
    else none
  | .onSend now pCli =>
    if pr.Idle ∧ pr.Open pCli then some (pr.setCli pCli { pr.cli pCli with miActiveTime := now }) else none
  | .onClose pCli => if pr.Idle ∧ pr.Open pCli then some (pr.withServer (pr.server.onClose pCli)) else none
  | .onBaseTimer clock atOnce => if pr.Idle then (pr.server.onBaseTimer clock atOnce).map pr.withServer else none
  | .broadCast pData => if pr.fault = none then some (pr.withServer (pr.server.broadCast pData)) else none
  | .work pCli a =>
    if pr.fault = none ∧ pCli ∈ accepted pr.events ∧ a.OfWorker then
      ((pr.cli pCli).toClient.step env a).map fun cl =>
        { pr.setCli pCli ((pr.cli pCli).work cl) with fault := cl.fault }
    else none
  | .taskQuit pCli =>
    if pr.fault = none ∧ pCli ∈ accepted pr.events ∧ (pr.cli pCli).task = .left ∧ (pr.cli pCli).quit = false then
      some (pr.setCli pCli ((pr.cli pCli).taskQuit rules))
    else none

/-- What a step can do. -/
inductive ProcStep (rules : RefRules) (env : Env) (pr : Process) : ProcAct → Process → Prop
  | onAccept (now : ℤ) (pUvTcp pCli : ℕ) (hidle : pr.Idle) (hnew : pCli ∉ accepted pr.events) :
      ProcStep rules env pr (.onAccept now pUvTcp pCli)
        ((pr.withServer (pr.server.addCli now (some pUvTcp) (some pCli)).1).setCli pCli (.new rules now))
  | noData (now : ℤ) (pCli : ℕ) (hidle : pr.Idle) (hopen : pr.Open pCli) : ProcStep rules env pr (.onRecv now pCli []) pr
  | onRecv (now : ℤ) (pCli : ℕ) (pMsg : List UInt8) (cl : Client) (hidle : pr.Idle) (hopen : pr.Open pCli)
      (hne : pMsg ≠ []) (hcl : (pr.cli pCli).toClient.step env (.pushMsg pMsg) = some cl) :
      ProcStep rules env pr (.onRecv now pCli pMsg)
        { pr.setCli pCli { pr.cli pCli with toClient := cl, miActiveTime := now } with inRecv := some pCli }
  | post (pCli : ℕ) (cl : Client) (halive : pr.fault = none) (hrecv : pr.inRecv = some pCli)
      (hcl : (pr.cli pCli).toClient.step env .post = some cl) :
      ProcStep rules env pr (.post pCli) { pr.setCli pCli { pr.cli pCli with toClient := cl } with inRecv := none }
  | onSend (now : ℤ) (pCli : ℕ) (hidle : pr.Idle) (hopen : pr.Open pCli) :
      ProcStep rules env pr (.onSend now pCli) (pr.setCli pCli { pr.cli pCli with miActiveTime := now })
  | onClose (pCli : ℕ) (hidle : pr.Idle) (hopen : pr.Open pCli) :
      ProcStep rules env pr (.onClose pCli) (pr.withServer (pr.server.onClose pCli))
  | onBaseTimer (clock : ℕ → ℤ) (atOnce : ℕ → Bool) (svr : WsServer) (hidle : pr.Idle)
      (hsvr : pr.server.onBaseTimer clock atOnce = some svr) :
      ProcStep rules env pr (.onBaseTimer clock atOnce) (pr.withServer svr)
  | broadCast (pData : List UInt8) (halive : pr.fault = none) :
      ProcStep rules env pr (.broadCast pData) (pr.withServer (pr.server.broadCast pData))
  | work (pCli : ℕ) (a : ClientAct) (cl : Client) (halive : pr.fault = none) (hacc : pCli ∈ accepted pr.events)
      (ha : a.OfWorker) (hcl : (pr.cli pCli).toClient.step env a = some cl) :
      ProcStep rules env pr (.work pCli a) { pr.setCli pCli ((pr.cli pCli).work cl) with fault := cl.fault }
  | taskQuit (pCli : ℕ) (halive : pr.fault = none) (hacc : pCli ∈ accepted pr.events)
      (hleft : (pr.cli pCli).task = .left) (hquit : (pr.cli pCli).quit = false) :
      ProcStep rules env pr (.taskQuit pCli) (pr.setCli pCli ((pr.cli pCli).taskQuit rules))

variable {rules : RefRules} {env : Env} {pr pr' : Process} {svr : WsServer} {a : ProcAct} {acts : List ProcAct} {p q : ℕ}

theorem Process.step_cases (h : pr.step rules env a = some pr') : ProcStep rules env pr a pr' := by
  cases a with
  | onAccept now pUvTcp pCli =>
    obtain ⟨⟨hidle, hnew⟩, he⟩ := Option.ite_none_right_eq_some.mp h
    exact Option.some.inj he ▸ .onAccept now pUvTcp pCli hidle hnew
  | onRecv now pCli pMsg =>
    obtain ⟨⟨hidle, hopen⟩, he⟩ := Option.ite_none_right_eq_some.mp h
    by_cases hpos : 0 < pMsg.length
    · rw [if_pos hpos] at he
      obtain ⟨cl, hcl, rfl⟩ := Option.map_eq_some_iff.mp he
      exact .onRecv now pCli pMsg cl hidle hopen (List.length_pos_iff.mp hpos) hcl
    · rw [if_neg hpos] at he
      obtain rfl := List.length_eq_zero_iff.mp (Nat.eq_zero_of_not_pos hpos)
      exact Option.some.inj he ▸ .noData now pCli hidle hopen
  | post pCli =>
    obtain ⟨⟨halive, hrecv⟩, he⟩ := Option.ite_none_right_eq_some.mp h
    obtain ⟨cl, hcl, rfl⟩ := Option.map_eq_some_iff.mp he
    exact .post pCli cl halive hrecv hcl
  | onSend now pCli =>
    obtain ⟨⟨hidle, hopen⟩, he⟩ := Option.ite_none_right_eq_some.mp h
    exact Option.some.inj he ▸ .onSend now pCli hidle hopen
  | onClose pCli =>
    obtain ⟨⟨hidle, hopen⟩, he⟩ := Option.ite_none_right_eq_some.mp h
    exact Option.some.inj he ▸ .onClose pCli hidle hopen
  | onBaseTimer clock atOnce =>
    obtain ⟨hidle, he⟩ := Option.ite_none_right_eq_some.mp h
    obtain ⟨svr, hsvr, rfl⟩ := Option.map_eq_some_iff.mp he
    exact .onBaseTimer clock atOnce svr hidle hsvr
  | broadCast pData =>
    obtain ⟨halive, he⟩ := Option.ite_none_right_eq_some.mp h
    exact Option.some.inj he ▸ .broadCast pData halive
  | work pCli a =>
    obtain ⟨⟨halive, hacc, ha⟩, he⟩ := Option.ite_none_right_eq_some.mp h
    obtain ⟨cl, hcl, rfl⟩ := Option.map_eq_some_iff.mp he
    exact .work pCli a cl halive hacc ha hcl
  | taskQuit pCli =>
    obtain ⟨⟨halive, hacc, hleft, hquit⟩, he⟩ := Option.ite_none_right_eq_some.mp h
    exact Option.some.inj he ▸ .taskQuit pCli halive hacc hleft hquit

end SrWebSocket
