import SrWebSocket.Stream.EndlessLoop
import SrWebSocket.System.Lifetime
import SrWebSocket.System.Service

/-! # A worker that never leaves its loop

A peer can bring the worker of its client into a loop of `ParseMsg` that is never left.
From then on nothing that any thread does ends the loop: what arrives stays in
`mpRecvBuffer`, the close flag is not looked at again and the client is not deleted.
-/
namespace SrWebSocket

/-- The worker is in a loop of `ParseMsg` that is never left. -/
structure Spins (cl : Client) : Prop where
  task : cl.task = .parse
  parsing : cl.parsing = true
  endless : Endless cl.mstMsgCache

def ClientAct.calls : ClientAct → ℕ
  | .decodeMsg _ _ => 1
  | .pushMsg _ | .post | .onClose | .testFlag | .wait | .procMsg _ | .leaveParse => 0

variable {env : Env} {c c' : Conn} {cl cl' : Client} {a : ClientAct} {acts later : List ClientAct}

theorem LoopInv.conn_step {a : ConnAct} (h : LoopInv c.toReceiver) (hinv : ConnInv c) (hs : c.step env a = some c') :
    LoopInv c'.toReceiver := by
  cases a with
  | push chunk =>
    obtain ⟨_, rfl⟩ := step_push.mp hs
    exact h
  | proc s =>
    obtain ⟨⟨_, hidle, hlen⟩, rfl⟩ := step_proc.mp hs
    by_cases hstate : c.miState = .none
    · rw [Conn.procMsg_none hinv hstate]
      exact h
    · rw [Conn.arrived, List.length_append] at hlen
      rw [Conn.procMsg_connect (WsState.eq_connect hstate) hidle]
      exact h.append hlen _
  | decode junk s =>
    exact h.step ((step_decode_receiver (Conn.step_fault hs)).symm.trans (congrArg (Option.map _) hs))

theorem Client.loopInv (hrun : Machine.exec (Client.step env) .start acts = some cl) : LoopInv cl.toReceiver :=
  (Machine.exec_invariant (fun c : Conn => ConnInv c ∧ LoopInv c.toReceiver)
    (fun _ _ _ ⟨hinv, hloop⟩ hs => ⟨hinv.step hs, hloop.conn_step hinv hs⟩) ⟨connInv_start, loopInv_start⟩
    (Client.exec_conn hrun)).2

/-- No step ends the loop; only a call of `DecodeMsg` hands out a message, and each one does. -/
theorem Spins.step (h : Spins cl) (hloop : LoopInv cl.toReceiver) (hs : cl.step env a = some cl') :
    Spins cl' ∧ cl'.mpRecvBuffer = cl.mpRecvBuffer ++ a.chunks.flatten ∧
      cl'.delivered.length = cl.delivered.length + a.calls := by
  obtain ⟨htask, hparse, hendless⟩ := h
  cases Client.step_cases hs with
  | noData hrecv => exact ⟨⟨htask, hparse, hendless⟩, (List.append_nil _).symm, rfl⟩
  | pushMsg pMsg c hrecv hne hc =>
    obtain ⟨_, rfl⟩ := step_push.mp hc
    refine ⟨⟨htask, hparse, hendless⟩, ?_, rfl⟩
    rw [ClientAct.chunks, if_pos (List.length_pos_iff.mpr hne)]
    simp
  | post hrecv => exact ⟨⟨htask, hparse, hendless⟩, (List.append_nil _).symm, rfl⟩
  | onClose hrecv hopen => exact ⟨⟨htask, hparse, hendless⟩, (List.append_nil _).symm, rfl⟩
  | stay htest hopen => exact absurd (htask.symm.trans htest) (by decide)
  | leave htest hclosed => exact absurd (htask.symm.trans htest) (by decide)
  | wait hwait hsem => exact absurd (htask.symm.trans hwait) (by decide)
  | procMsg s c hmove hc => exact absurd (htask.symm.trans hmove) (by decide)
  | decodeMsg junk s c _ hc =>
    have hstep : cl.toReceiver.step (.decode junk) = some c.toReceiver :=
      (step_decode_receiver (Conn.step_fault hc)).symm.trans (congrArg (Option.map _) hc)
    obtain ⟨r, hr, _, hp, he, hdel⟩ := hloop.decode_endless hparse hendless junk
    obtain rfl := Option.some.inj (hstep.symm.trans hr)
    exact ⟨⟨htask, hp, he⟩, (step_decode_mpRecvBuffer hc).trans (List.append_nil _).symm, hdel⟩
  | leaveParse _ hidle => exact absurd (hparse.symm.trans hidle) (by decide)

/-- As long as the process lives the worker has another call to make. -/
theorem Spins.enabled (h : Spins cl) (hloop : LoopInv cl.toReceiver) (hfault : cl.fault = none) (junk : ℕ → UInt8)
    (s : Scratch) : (cl.step env (.decodeMsg junk s)).isSome := by
  obtain ⟨r, hr, _⟩ := hloop.decode_endless h.parsing h.endless junk
  have hstep : (cl.toConn.step env (.decode junk s)).map (fun c => c.toReceiver) = some r :=
    (step_decode_receiver hfault).trans hr
  obtain ⟨c, hc, _⟩ := Option.map_eq_some_iff.mp hstep
  rw [Client.step, if_pos h.task, hc]
  rfl

theorem Spins.exec (h : Spins cl) (hrun : Machine.exec (Client.step env) .start acts = some cl)
    (hlater : Machine.exec (Client.step env) cl later = some cl') :
    Spins cl' ∧ cl'.mpRecvBuffer = cl.mpRecvBuffer ++ (later.flatMap ClientAct.chunks).flatten ∧
      cl'.delivered.length = cl.delivered.length + (later.map ClientAct.calls).sum := by
  induction later generalizing acts cl with
  | nil =>
    cases hlater
    exact ⟨h, by simp, rfl⟩
  | cons a later ih =>
    obtain ⟨u, hu, hlater⟩ := Machine.exec_cons_eq_some.mp hlater
    obtain ⟨hspin, hbuf, hdel⟩ := h.step (Client.loopInv hrun) hu
    obtain ⟨hspin', hbuf', hdel'⟩ := ih hspin (Machine.exec_append.mpr ⟨cl, hrun, Machine.exec_one hu⟩) hlater
    refine ⟨hspin', ?_, ?_⟩
    · rw [hbuf', hbuf, List.append_assoc, ← List.flatten_append, ← List.flatMap_cons]
    · rw [hdel', hdel, List.map_cons, List.sum_cons, Nat.add_assoc]

/-! ## Loops that are left -/

/-- No more calls than this are made before the worker leaves its loop. -/
def Client.callsLeft (cl : Client) : ℕ := if cl.parsing then cl.mstMsgCache.unread + 1 else 0

/-- The worker is in `ParseMsg` and will leave it. -/
structure Leaves (cl : Client) : Prop where
  task : cl.task = .parse
  loop : LoopInv cl.toReceiver
  ends : cl.parsing = true → ¬Endless cl.mstMsgCache

theorem Leaves.step (h : Leaves cl) (ha : a ≠ .leaveParse) (hs : cl.step env a = some cl') :
    Leaves cl' ∧ a.calls + cl'.callsLeft ≤ cl.callsLeft := by
  obtain ⟨htask, hloop, hends⟩ := h
  cases Client.step_cases hs with
  | noData hrecv => exact ⟨⟨htask, hloop, hends⟩, (Nat.zero_add _).le⟩
  | pushMsg pMsg c hrecv hne hc =>
    obtain ⟨_, rfl⟩ := step_push.mp hc
    exact ⟨⟨htask, hloop, hends⟩, (Nat.zero_add _).le⟩
  | post hrecv => exact ⟨⟨htask, hloop, hends⟩, (Nat.zero_add _).le⟩
  | onClose hrecv hopen => exact ⟨⟨htask, hloop, hends⟩, (Nat.zero_add _).le⟩
  | stay htest hopen => exact absurd (htask.symm.trans htest) (by decide)
  | leave htest hclosed => exact absurd (htask.symm.trans htest) (by decide)
  | wait hwait hsem => exact absurd (htask.symm.trans hwait) (by decide)
  | procMsg s c hmove hc => exact absurd (htask.symm.trans hmove) (by decide)
  | decodeMsg junk s c _ hc =>
    have hstep : cl.toReceiver.step (.decode junk) = some c.toReceiver :=
      (step_decode_receiver (Conn.step_fault hc)).symm.trans (congrArg (Option.map _) hc)
    have hp : cl.parsing = true := (Option.ite_none_right_eq_some.mp hstep).1
    obtain ⟨ret, hret, hcall, hnext, hout⟩ := hloop.decode hp junk
    have hr : c.toReceiver = cl.toReceiver.afterCall ret := Option.some.inj (hstep.symm.trans hret)
    have hleft : cl.callsLeft = cl.mstMsgCache.unread + 1 := if_pos hp
    change Leaves { cl with toConn := c } ∧ 1 + (if c.parsing then c.mstMsgCache.unread + 1 else 0) ≤ cl.callsLeft
    rcases hout with h0 | ⟨hne, _⟩
    · have hidle : c.parsing = false := by
        rw [hr, Receiver.afterCall, if_pos h0]
      refine ⟨⟨htask, hr ▸ hnext, fun hparse => absurd (hidle.symm.trans hparse) (by decide)⟩, ?_⟩
      rw [hidle, if_neg Bool.false_ne_true]
      omega
    · have hcache : c.mstMsgCache = ret.pMsgCache := by
        rw [hr, Receiver.afterCall, if_neg hne]
      have hless := hcall.less (hends hp) hne
      refine ⟨⟨htask, hr ▸ hnext, fun _ hyes => ?_⟩, ?_⟩
      · exact hends hp ((hcall.keeps hne).mp (hcache ▸ hyes))
      · rw [hcache]
        split <;> omega
  | leaveParse _ hidle => exact absurd rfl ha

theorem Leaves.calls_le (h : Leaves cl) (hstays : .leaveParse ∉ later)
    (hlater : Machine.exec (Client.step env) cl later = some cl') : (later.map ClientAct.calls).sum ≤ cl.callsLeft := by
  induction later generalizing cl with
  | nil => exact Nat.zero_le _
  | cons a later ih =>
    obtain ⟨u, hu, hlater⟩ := Machine.exec_cons_eq_some.mp hlater
    obtain ⟨hleaves, hle⟩ := h.step (fun he => hstays (he ▸ List.mem_cons_self)) hu
    have hrest := ih hleaves (fun hmem => hstays (List.mem_cons_of_mem _ hmem)) hlater
    rw [List.map_cons, List.sum_cons]
    omega

/-- Whether the worker ever leaves a loop of `ParseMsg` depends on the cache alone, not on
what the network thread does: from an endless one it never comes back, and what arrives
stays where it is while every call hands out another message; in any other one it makes
at most one call for each byte behind the cursor and two more. -/
theorem worker_endless_or_left (env : Env) (acts later : List ClientAct) (cl cl' : Client)
    (hrun : Machine.exec (Client.step env) .start acts = some cl) (htask : cl.task = .parse) (hp : cl.parsing = true)
    (hlater : Machine.exec (Client.step env) cl later = some cl') :
    (Endless cl.mstMsgCache →
      cl'.task = .parse ∧ (cl'.fault = none → ∀ junk s, (cl'.step env (.decodeMsg junk s)).isSome) ∧
        cl'.mpRecvBuffer = cl.mpRecvBuffer ++ (later.flatMap ClientAct.chunks).flatten ∧
        cl'.delivered.length = cl.delivered.length + (later.map ClientAct.calls).sum) ∧
    (¬Endless cl.mstMsgCache → .leaveParse ∉ later →
      (later.map ClientAct.calls).sum ≤ cl.mstMsgCache.pBuffer.length - cl.mstMsgCache.iCurFrameIndex + 2) := by
  constructor
  · intro hendless
    obtain ⟨hspin, hbuf, hdel⟩ := Spins.exec ⟨htask, hp, hendless⟩ hrun hlater
    have hreach : Machine.exec (Client.step env) .start (acts ++ later) = some cl' :=
      Machine.exec_append.mpr ⟨cl, hrun, hlater⟩
    exact ⟨hspin.task, fun hfault => hspin.enabled (Client.loopInv hreach) hfault, hbuf, hdel⟩
  · intro hends hstays
    have hleaves : Leaves cl := ⟨htask, Client.loopInv hrun, fun _ => hends⟩
    refine (hleaves.calls_le hstays hlater).trans ?_
    rw [Client.callsLeft, if_pos hp, WsMsgCache.unread]
    split <;> omega

/-- The worker of a client with the protocol echo has got the PING between two fragments. -/
def pingActs : List ClientAct :=
  requestActs ++ [.procMsg zeroScratch, .leaveParse, .pushMsg pingInText, .post, .testFlag, .wait, .procMsg zeroScratch]

theorem worker_endless_or_left_ping :
    ∃ cl cl', Machine.exec (Client.step sampleEnv) .start pingActs = some cl ∧
      Machine.exec (Client.step sampleEnv) cl
        [.onClose, .decodeMsg zeros zeroScratch, .pushMsg [71], .post, .decodeMsg zeros zeroScratch] = some cl' ∧
      cl'.task = .parse ∧ cl'.mpRecvBuffer = [71] ∧ cl'.delivered.length = 2 := by
  have hstates : (Machine.exec (Client.step sampleEnv) .start pingActs).bind (fun cl =>
      (Machine.exec (Client.step sampleEnv) cl
        [.onClose, .decodeMsg zeros zeroScratch, .pushMsg [71], .post, .decodeMsg zeros zeroScratch]).map fun _ =>
        (cl.task, cl.parsing, cl.mstMsgCache, cl.mpRecvBuffer, cl.delivered.length)) =
      some (.parse, true, .fresh pingInText, [], 0) := by decide +kernel
  obtain ⟨cl, hrun, hstates⟩ := Option.bind_eq_some_iff.mp hstates
  obtain ⟨cl', hlater, hstates⟩ := Option.map_eq_some_iff.mp hstates
  simp only [Prod.mk.injEq] at hstates
  obtain ⟨htask, hp, hcache, hbuf, hdel⟩ := hstates
  obtain ⟨htask', _, hbuf', hdel'⟩ := (worker_endless_or_left sampleEnv pingActs _ cl cl' hrun htask hp hlater).1
    (hcache ▸ endless_pingInText)
  rw [hbuf] at hbuf'
  rw [hdel] at hdel'
  exact ⟨cl, cl', hrun, hlater, htask', hbuf', hdel'⟩

/-! ## The server around it -/

/-- A client whose worker is in an endless loop is never deleted, in no run of the server
from there, and its worker takes a thread for good; nothing that is sent to the client
is looked at any more. -/
theorem endless_never_deleted (rules : RefRules) (env : Env) (hpos : 0 < rules.init + rules.held)
    (acts later : List ProcAct) (pr pr' : Process) (hrun : Machine.exec (Process.step rules env) .start acts = some pr)
    (p : ℕ) (hspin : Spins (pr.cli p).toClient) (hlater : Machine.exec (Process.step rules env) pr later = some pr') :
    Spins (pr'.cli p).toClient ∧ (pr'.cli p).quit = false ∧ (pr'.cli p).deletes = 0 ∧
      (pr'.cli p).mpRecvBuffer = (pr.cli p).mpRecvBuffer ++ (later.flatMap (ProcAct.chunksTo p)).flatten ∧
      (pr'.fault = none → ∀ junk s, (pr'.step rules env (.work p (.decodeMsg junk s))).isSome) := by
  have h := lifeInv_exec hpos (Machine.exec_append.mpr ⟨pr, hrun, hlater⟩)
  obtain ⟨bs, hbs, _⟩ := procInv_start.exec_client hrun p
  obtain ⟨cs, hcs, hchunks⟩ := (procInv_exec hrun).exec_client hlater p
  obtain ⟨hspin', hbuf, _⟩ := hspin.exec hbs hcs
  rw [hchunks] at hbuf
  have hacc : p ∈ accepted pr'.events := by
    by_contra hnew
    have hstart := h.inv.fresh p hnew
    exact absurd (hspin'.task.symm.trans (congrArg Client.task hstart)) (by decide)
  have hleft : (pr'.cli p).task ≠ .left := by
    rw [hspin'.task]
    decide
  obtain ⟨hquit, hdeletes⟩ := h.undeleted hpos hacc hleft
  refine ⟨hspin', hquit, hdeletes, hbuf, fun halive junk s => ?_⟩
  have hreach := Machine.exec_append.mpr ⟨_, hbs, hcs⟩
  have henabled : ((pr'.cli p).toClient.step env (.decodeMsg junk s)).isSome :=
    hspin'.enabled (Client.loopInv hreach) (h.inv.alive halive p) junk s
  obtain ⟨cl, hcl⟩ := Option.isSome_iff_exists.mp henabled
  obtain ⟨pr'', hpr'', _⟩ := Process.step_work (b := .decodeMsg junk s) rules halive hacc trivial hcl
  rw [hpr'']
  rfl

/-- The client of `upgradeActs` sends the PING between two fragments. -/
def pingsActs : List ProcAct :=
  upgradeActs ++ [.work 1 (.procMsg zeroScratch), .onRecv 0 1 pingInText, .work 1 .leaveParse, .post 1,
    .work 1 .testFlag, .work 1 .wait, .work 1 (.procMsg zeroScratch)]

theorem endless_never_deleted_ping :
    ∃ pr pr', Machine.exec (Process.step ⟨0, 1⟩ sampleEnv) .start pingsActs = some pr ∧
      Machine.exec (Process.step ⟨0, 1⟩ sampleEnv) pr
        [.work 1 (.decodeMsg zeros zeroScratch), .onRecv 1 1 [71], .post 1, .onClose 1,
          .onBaseTimer (fun _ => 2) fun _ => true, .work 1 (.decodeMsg zeros zeroScratch)] = some pr' ∧
      (pr'.cli 1).deletes = 0 ∧ (pr'.cli 1).mpRecvBuffer = [71] := by
  have hstates : (Machine.exec (Process.step ⟨0, 1⟩ sampleEnv) .start pingsActs).bind (fun pr =>
      (Machine.exec (Process.step ⟨0, 1⟩ sampleEnv) pr
        [.work 1 (.decodeMsg zeros zeroScratch), .onRecv 1 1 [71], .post 1, .onClose 1,
          .onBaseTimer (fun _ => 2) fun _ => true, .work 1 (.decodeMsg zeros zeroScratch)]).map fun _ =>
        ((pr.cli 1).task, (pr.cli 1).parsing, (pr.cli 1).mstMsgCache, (pr.cli 1).mpRecvBuffer)) =
      some (.parse, true, .fresh pingInText, []) := by decide +kernel
  obtain ⟨pr, hrun, hstates⟩ := Option.bind_eq_some_iff.mp hstates
  obtain ⟨pr', hlater, hstates⟩ := Option.map_eq_some_iff.mp hstates
  simp only [Prod.mk.injEq] at hstates
  obtain ⟨htask, hp, hcache, hbuf⟩ := hstates
  obtain ⟨_, _, hdeletes, hbuf', _⟩ := endless_never_deleted ⟨0, 1⟩ sampleEnv (by decide) pingsActs _ pr pr' hrun 1
    ⟨htask, hp, hcache ▸ endless_pingInText⟩ hlater
  rw [hbuf] at hbuf'
  exact ⟨pr, pr', hrun, hlater, hdeletes, hbuf'⟩

end SrWebSocket
