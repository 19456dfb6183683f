import Mathlib.Data.Int.Notation
import Mathlib.Data.List.Count
import Mathlib.Logic.Function.Basic
import SrWebSocket.General.Iteration
import SrWebSocket.General.Machine
import SrWebSocket.General.Trace

/-! # The clients of a server

`AddCli` takes a reference on a new client and puts it at the end of `mvecClis`. A
tick of the base timer walks over the vector, erases the closed clients and drops
their references; `BroadCast` sends to the others. Only that a `Close` may call
`OnClose` of its client before it returns is known of it here.
-/
namespace SrWebSocket

def wsKeepAliveSec : ℤ := 1000

/-- What the server looks at in a `CWsCli`. -/
structure CliStatus where
  mbCloseFlag : Bool
  miActiveTime : ℤ
deriving DecidableEq

/-- What is called on a client. -/
inductive CliCall where
  | ref
  | isClosed
  | onTick
  | send (pData : List UInt8)
  | unref
  | onClose
deriving DecidableEq

inductive SvrEvent where
  | onBaseTimer
  | call (pCli : ℕ) (c : CliCall)
deriving DecidableEq

/-- A `CWsServer`, its clients by their pointers, and what happened so far. -/
@[ext] structure WsServer where
  mvecClis : List ℕ
  cli : ℕ → CliStatus
  events : List SvrEvent

def WsServer.start : WsServer where
  mvecClis := []
  cli _ := { mbCloseFlag := false, miActiveTime := 0 }
  events := []

def WsServer.note (svr : WsServer) (e : SvrEvent) : WsServer := { svr with events := svr.events ++ [e] }

def WsServer.call (svr : WsServer) (pCli : ℕ) (c : CliCall) : WsServer := svr.note (.call pCli c)

@[simp] theorem call_mvecClis (svr : WsServer) (pCli : ℕ) (c : CliCall) : (svr.call pCli c).mvecClis = svr.mvecClis := rfl

@[simp] theorem call_cli (svr : WsServer) (pCli : ℕ) (c : CliCall) : (svr.call pCli c).cli = svr.cli := rfl

@[simp] theorem call_events (svr : WsServer) (pCli : ℕ) (c : CliCall) :
    (svr.call pCli c).events = svr.events ++ [.call pCli c] := rfl

/-- `AddCli`, with what `new CWsCli()` gives and what is returned. -/
def WsServer.addCli (now : ℤ) (pUvTcp pCli : Option ℕ) (svr : WsServer) : WsServer × ℤ :=
  match pUvTcp, pCli with
  | none, _ => (svr, 1)
  | some _, none => (svr, 0)
  | some _, some pCli =>
    ({ svr.call pCli .ref with
      mvecClis := svr.mvecClis ++ [pCli]
      cli := Function.update svr.cli pCli { mbCloseFlag := false, miActiveTime := now } }, 0)

def WsServer.onClose (pCli : ℕ) (svr : WsServer) : WsServer :=
  { svr.call pCli .onClose with
    cli := Function.update svr.cli pCli { svr.cli pCli with mbCloseFlag := true } }

/-- `OnRecv` with data and `OnSend` without an error. -/
def WsServer.active (now : ℤ) (pCli : ℕ) (svr : WsServer) : WsServer :=
  { svr with cli := Function.update svr.cli pCli { svr.cli pCli with miActiveTime := now } }

def CliStatus.TimedOut (now : ℤ) (c : CliStatus) : Prop := c.miActiveTime + wsKeepAliveSec < now

instance (now : ℤ) (c : CliStatus) : Decidable (c.TimedOut now) := inferInstanceAs (Decidable (_ < _))

/-- `OnTick`; `atOnce` says that `Close` calls `OnClose` before it returns. -/
def WsServer.onTick (now : ℤ) (atOnce : Bool) (pCli : ℕ) (svr : WsServer) : WsServer :=
  if (svr.cli pCli).TimedOut now then
    if atOnce then (svr.call pCli .onTick).onClose pCli else svr.call pCli .onTick
  else svr.call pCli .onTick

/-- The body of the loop of `OnBaseTimer`, with the position of its iterator. Each
`OnTick` reads the clock for itself. -/
def tickStep (clock : ℕ → ℤ) (atOnce : ℕ → Bool) (p : WsServer × ℕ) : (WsServer × ℕ) ⊕ WsServer :=
  match p.1.mvecClis[p.2]? with
  | none => .inr p.1
  | some pCli =>
    -- never null: `AddCli` is the only one to add to the vector, behind its own test
    let svr := p.1.call pCli .isClosed
    if (svr.cli pCli).mbCloseFlag then
      .inl ({ svr.call pCli .unref with mvecClis := svr.mvecClis.eraseIdx p.2 }, p.2)
    else .inl (svr.onTick (clock pCli) (atOnce pCli) pCli, p.2 + 1)

def WsServer.onBaseTimer (clock : ℕ → ℤ) (atOnce : ℕ → Bool) (svr : WsServer) : Option WsServer :=
  Iteration.run (tickStep clock atOnce) (svr.mvecClis.length + 1) (svr.note .onBaseTimer, 0)

/-- The body of the loop of `BroadCast`. -/
def WsServer.sendOpen (pData : List UInt8) (svr : WsServer) (pCli : ℕ) : WsServer :=
  let svr := svr.call pCli .isClosed
  if (svr.cli pCli).mbCloseFlag then svr else svr.call pCli (.send pData)

def WsServer.broadCast (pData : List UInt8) (svr : WsServer) : WsServer := svr.mvecClis.foldl (WsServer.sendOpen pData) svr

/-- The clients that were accepted, in the order of their acceptance. -/
def accepted (events : List SvrEvent) : List ℕ :=
  events.filterMap fun e => match e with
    | .call pCli .ref => some pCli
    | _ => none

inductive SvrAct where
  | addCli (now : ℤ) (pUvTcp pCli : Option ℕ)
  | onClose (pCli : ℕ)
  | active (now : ℤ) (pCli : ℕ)
  | onBaseTimer (clock : ℕ → ℤ) (atOnce : ℕ → Bool)
  | broadCast (pData : List UInt8)

/-- A client that is added is a new one, and only such clients are active or close. -/
def WsServer.step (svr : WsServer) : SvrAct → Option WsServer
  | .addCli now pUvTcp pCli =>
    if ∀ p ∈ pCli, p ∉ accepted svr.events then some (svr.addCli now pUvTcp pCli).1 else none
  | .onClose pCli => if pCli ∈ accepted svr.events then some (svr.onClose pCli) else none
  | .active now pCli => if pCli ∈ accepted svr.events then some (svr.active now pCli) else none
  | .onBaseTimer clock atOnce => svr.onBaseTimer clock atOnce
  | .broadCast pData => some (svr.broadCast pData)

variable {now : ℤ} {clock : ℕ → ℤ} {atOnce : ℕ → Bool} {pData : List UInt8} {p : ℕ} {svr : WsServer}

/-! ## A visit to each client -/

def visitCalls (calls : ℕ → List CliCall) (ps : List ℕ) : List SvrEvent := ps.flatMap fun p => (calls p).map (.call p)

/-- The server after a visit to the clients of `ps`, where what a visit changes and
what it calls depends on that client alone. -/
def WsServer.visit (change : ℕ → CliStatus → CliStatus) (calls : ℕ → CliStatus → List CliCall) (svr : WsServer)
    (ps : List ℕ) : WsServer where
  mvecClis := svr.mvecClis
  cli p := if p ∈ ps then change p (svr.cli p) else svr.cli p
  events := svr.events ++ visitCalls (fun p => calls p (svr.cli p)) ps

section
variable {calls : ℕ → List CliCall} {ps : List ℕ} {c c' : CliCall}

theorem call_injective : Function.Injective (SvrEvent.call p) := fun _ _ h => (SvrEvent.call.inj h).2

theorem mem_visitCalls : .call p c ∈ visitCalls calls ps ↔ p ∈ ps ∧ c ∈ calls p := by
  simp only [visitCalls, List.mem_flatMap, List.mem_map]
  constructor
  · rintro ⟨q, hq, d, hd, he⟩
    obtain ⟨rfl, rfl⟩ := SvrEvent.call.inj he
    exact ⟨hq, hd⟩
  · rintro ⟨hp, hc⟩
    exact ⟨p, hp, c, hc, rfl⟩

theorem onBaseTimer_notMem_visitCalls : .onBaseTimer ∉ visitCalls calls ps := by simp [visitCalls]

theorem key_call {q : ℕ} (h : SvrEvent.call p c ∈ (calls q).map (.call q)) : q = p := by
  obtain ⟨d, _, he⟩ := List.mem_map.mp h
  exact (SvrEvent.call.inj he).1

theorem count_visitCalls (hps : ps.Nodup) :
    (visitCalls calls ps).count (.call p c) = if p ∈ ps then (calls p).count c else 0 := by
  rw [visitCalls, Trace.count_flatMap_key (fun q => key_call) hps, List.count_map_of_injective _ _ call_injective]

theorem before_visitCalls (hps : ps.Nodup) :
    Trace.Before (.call p c) (.call p c') (visitCalls calls ps) ↔ p ∈ ps ∧ Trace.Before c c' (calls p) := by
  rw [visitCalls, Trace.before_flatMap_key (fun q => key_call) (fun q => key_call) hps, Trace.before_map call_injective]

theorem accepted_append (events events' : List SvrEvent) :
    accepted (events ++ events') = accepted events ++ accepted events' := List.filterMap_append

theorem accepted_visitCalls (h : ∀ p, .ref ∉ calls p) : accepted (visitCalls calls ps) = [] := by
  apply List.filterMap_eq_nil_iff.mpr
  intro e he
  cases e with
  | onBaseTimer => rfl
  | call p c =>
    cases c with
    | ref => exact absurd (mem_visitCalls.mp he).2 (h p)
    | isClosed => rfl
    | onTick => rfl
    | send pData => rfl
    | unref => rfl
    | onClose => rfl

end

section
variable {change : ℕ → CliStatus → CliStatus} {calls : ℕ → CliStatus → List CliCall}

theorem visit_nil : svr.visit change calls [] = svr := by simp [WsServer.visit, visitCalls]

theorem visit_concat {ps : List ℕ} (hp : p ∉ ps) :
    svr.visit change calls (ps ++ [p]) =
      { svr.visit change calls ps with
        cli := Function.update (svr.visit change calls ps).cli p (change p (svr.cli p))
        events := (svr.visit change calls ps).events ++ (calls p (svr.cli p)).map (.call p) } := by
  have hcli : (svr.visit change calls (ps ++ [p])).cli =
      Function.update (svr.visit change calls ps).cli p (change p (svr.cli p)) := by
    funext q
    rcases eq_or_ne q p with rfl | hq
    · simp [WsServer.visit]
    · simp [WsServer.visit, hq]
  rw [← hcli]
  simp [WsServer.visit, visitCalls, List.append_assoc]

theorem cli_visit {ps : List ℕ} (hp : p ∉ ps) : (svr.visit change calls ps).cli p = svr.cli p := if_neg hp

end

/-! ## The loops -/

def sendCalls (pData : List UInt8) (c : CliStatus) : List CliCall :=
  if c.mbCloseFlag then [.isClosed] else [.isClosed, .send pData]

theorem notMem_of_nodup_concat {ps rest : List ℕ} (h : (ps ++ [p] ++ rest).Nodup) : p ∉ ps :=
  fun hm => (List.nodup_append.mp h.of_append_left).2.2 p hm p (by simp) rfl

theorem sendOpen_visit {ps : List ℕ} (hp : p ∉ ps) :
    (svr.visit (fun _ c => c) (fun _ => sendCalls pData) ps).sendOpen pData p =
      svr.visit (fun _ c => c) (fun _ => sendCalls pData) (ps ++ [p]) := by
  rw [visit_concat hp, ← cli_visit hp, Function.update_eq_self]
  cases hflag : (svr.cli p).mbCloseFlag with
  | false => ext1 <;> simp [WsServer.sendOpen, sendCalls, cli_visit hp, hflag]
  | true => ext1 <;> simp [WsServer.sendOpen, sendCalls, cli_visit hp, hflag]

theorem foldl_sendOpen (rest ps : List ℕ) (h : (ps ++ rest).Nodup) :
    rest.foldl (WsServer.sendOpen pData) (svr.visit (fun _ c => c) (fun _ => sendCalls pData) ps) =
      svr.visit (fun _ c => c) (fun _ => sendCalls pData) (ps ++ rest) := by
  induction rest generalizing ps with
  | nil => rw [List.append_nil, List.foldl_nil]
  | cons p rest ih =>
    rw [List.append_cons] at h ⊢
    rw [List.foldl_cons, sendOpen_visit (notMem_of_nodup_concat h), ih _ h]

theorem broadCast_eq (h : svr.mvecClis.Nodup) :
    svr.broadCast pData = svr.visit (fun _ c => c) (fun _ => sendCalls pData) svr.mvecClis := by
  rw [WsServer.broadCast, ← List.nil_append svr.mvecClis, ← foldl_sendOpen svr.mvecClis [] h, visit_nil, List.nil_append]

def CliStatus.ticked (now : ℤ) (atOnce : Bool) (c : CliStatus) : CliStatus :=
  if c.mbCloseFlag = false ∧ c.TimedOut now ∧ atOnce then { c with mbCloseFlag := true } else c

def tickCalls (now : ℤ) (atOnce : Bool) (c : CliStatus) : List CliCall :=
  if c.mbCloseFlag then [.isClosed, .unref]
  else if c.TimedOut now ∧ atOnce then [.isClosed, .onTick, .onClose]
  else [.isClosed, .onTick]

@[simp] theorem onTick_mvecClis (b : Bool) : (svr.onTick now b p).mvecClis = svr.mvecClis := by
  unfold WsServer.onTick
  split
  · cases b <;> rfl
  · rfl

theorem onTick_cli {b : Bool} (hopen : (svr.cli p).mbCloseFlag = false) :
    ((svr.call p .isClosed).onTick now b p).cli = Function.update svr.cli p ((svr.cli p).ticked now b) := by
  by_cases ht : (svr.cli p).TimedOut now
  · cases b with
    | false => simp [WsServer.onTick, ht, CliStatus.ticked]
    | true => simp [WsServer.onTick, WsServer.onClose, ht, CliStatus.ticked, hopen]
  · simp [WsServer.onTick, ht, CliStatus.ticked]

theorem onTick_events {b : Bool} (hopen : (svr.cli p).mbCloseFlag = false) :
    ((svr.call p .isClosed).onTick now b p).events = svr.events ++ (tickCalls now b (svr.cli p)).map (.call p) := by
  by_cases ht : (svr.cli p).TimedOut now
  · cases b with
    | false => simp [WsServer.onTick, ht, tickCalls, hopen]
    | true => simp [WsServer.onTick, WsServer.onClose, ht, tickCalls, hopen]
  · simp [WsServer.onTick, ht, tickCalls, hopen]

/-- The server when the walk of a tick has passed `ps` and has `rest` in front of it. -/
def WsServer.walked (clock : ℕ → ℤ) (atOnce : ℕ → Bool) (svr : WsServer) (ps rest : List ℕ) : WsServer :=
  { svr.visit (fun p => CliStatus.ticked (clock p) (atOnce p)) (fun p => tickCalls (clock p) (atOnce p)) ps with
    mvecClis := ps.filter (fun p => !(svr.cli p).mbCloseFlag) ++ rest }

/-- The position of the iterator then. -/
def WsServer.openCount (svr : WsServer) (ps : List ℕ) : ℕ := (ps.filter fun p => !(svr.cli p).mbCloseFlag).length

theorem walked_concat {ps rest : List ℕ} (hp : p ∉ ps) :
    svr.walked clock atOnce (ps ++ [p]) rest =
      { mvecClis := (ps ++ [p]).filter (fun p => !(svr.cli p).mbCloseFlag) ++ rest
        cli := Function.update (svr.walked clock atOnce ps (p :: rest)).cli p ((svr.cli p).ticked (clock p) (atOnce p))
        events := (svr.walked clock atOnce ps (p :: rest)).events ++
          (tickCalls (clock p) (atOnce p) (svr.cli p)).map (.call p) } := by
  rw [WsServer.walked, visit_concat hp]
  rfl

theorem tickStep_walked {ps rest : List ℕ} (hp : p ∉ ps) :
    tickStep clock atOnce (svr.walked clock atOnce ps (p :: rest), svr.openCount ps) =
      .inl (svr.walked clock atOnce (ps ++ [p]) rest, svr.openCount (ps ++ [p])) := by
  have hget : (svr.walked clock atOnce ps (p :: rest)).mvecClis[svr.openCount ps]? = some p := by
    simp [WsServer.walked, WsServer.openCount]
  have hcli : (svr.walked clock atOnce ps (p :: rest)).cli p = svr.cli p := by
    simp [WsServer.walked, cli_visit hp]
  have herase : (svr.walked clock atOnce ps (p :: rest)).mvecClis.eraseIdx (svr.openCount ps) =
      ps.filter (fun p => !(svr.cli p).mbCloseFlag) ++ rest := by
    simp [WsServer.walked, WsServer.openCount, List.eraseIdx_append_of_length_le]
  simp only [tickStep, hget, call_cli, call_mvecClis, hcli, herase]
  cases hflag : (svr.cli p).mbCloseFlag with
  | true =>
    rw [if_pos rfl]
    refine congrArg Sum.inl (Prod.ext (WsServer.ext ?_ ?_ ?_) ?_)
    · simp [WsServer.walked, hflag]
    · have hsame : (svr.cli p).ticked (clock p) (atOnce p) = (svr.walked clock atOnce ps (p :: rest)).cli p := by
        simp [CliStatus.ticked, hflag, hcli]
      rw [walked_concat hp, hsame, Function.update_eq_self]
    · simp [walked_concat hp, tickCalls, hflag]
    · simp [WsServer.openCount, hflag]
  | false =>
    rw [if_neg Bool.false_ne_true]
    have hopen : ((svr.walked clock atOnce ps (p :: rest)).cli p).mbCloseFlag = false := by rw [hcli, hflag]
    refine congrArg Sum.inl (Prod.ext (WsServer.ext ?_ ?_ ?_) ?_)
    · simp [WsServer.walked, hflag]
    · rw [walked_concat hp, onTick_cli hopen, hcli]
    · rw [walked_concat hp, onTick_events hopen, hcli]
    · simp [WsServer.openCount, hflag]

theorem tickStep_end {ps : List ℕ} :
    tickStep clock atOnce (svr.walked clock atOnce ps [], svr.openCount ps) = .inr (svr.walked clock atOnce ps []) := by
  simp [tickStep, WsServer.walked, WsServer.openCount]

theorem run_tickStep (rest ps : List ℕ) (h : (ps ++ rest).Nodup) :
    Iteration.run (tickStep clock atOnce) (rest.length + 1) (svr.walked clock atOnce ps rest, svr.openCount ps) =
      some (svr.walked clock atOnce (ps ++ rest) []) := by
  induction rest generalizing ps with
  | nil => rw [Iteration.run_exit tickStep_end, List.append_nil]
  | cons p rest ih =>
    rw [List.append_cons] at h ⊢
    rw [List.length_cons, Iteration.run_continue (tickStep_walked (notMem_of_nodup_concat h)), ih _ h]

/-- The walk of a tick ends, and it leaves the clients that were open at its start. -/
theorem onBaseTimer_eq (h : svr.mvecClis.Nodup) :
    svr.onBaseTimer clock atOnce = some ((svr.note .onBaseTimer).walked clock atOnce svr.mvecClis []) := by
  rw [WsServer.onBaseTimer, ← List.nil_append svr.mvecClis, ← run_tickStep svr.mvecClis [] h]
  simp [WsServer.walked, visit_nil, WsServer.openCount, WsServer.note]

end SrWebSocket
