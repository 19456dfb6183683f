import SrWebSocket.Server.Broadcast
import SrWebSocket.Server.Release
import SrWebSocket.System.Components

/-! # How long a client lives

The count of a client is the number of its references: the one of the registry until
a tick finds it closed, those of the task pool until its task has quit, and one for
each of its messages. So the client outlives its worker exactly when the pool has a
reference of its own, and a worker that is blocked when its client closes keeps the
client for good.
-/
namespace SrWebSocket
open RefCount

/-- The references on a client. -/
def Process.refs (rules : RefRules) (pr : Process) (p : ℕ) : ℕ :=
  rules.init + (if FoundClosed p pr.events then 0 else 1) + (if (pr.cli p).quit then 0 else rules.held) +
    (pr.cli p).live.length

/-- The clients that an action looks at. -/
def ProcAct.Touches (pr : Process) (p : ℕ) : ProcAct → Prop
  | .onAccept _ _ _ => False
  | .onRecv _ pCli _ | .post pCli | .onSend _ pCli | .onClose pCli | .work pCli _ | .taskQuit pCli => pCli = p
  | .onBaseTimer _ _ | .broadCast _ => p ∈ pr.mvecClis

/-- No step looks at a client that has been deleted. -/
def KeepsAlive (rules : RefRules) (env : Env) (pr : Process) (a : ProcAct) : Prop :=
  (pr.step rules env a).isSome → ∀ p, a.Touches pr p → (pr.cli p).deletes = 0

structure LifeInv (rules : RefRules) (pr : Process) : Prop where
  inv : ProcInv pr
  deletes : ∀ p, DeletesCreated (pr.cli p).toSession
  left : ∀ p, (pr.cli p).quit = true → (pr.cli p).task = .left
  holds : ∀ p ∈ accepted pr.events, Holds (pr.refs rules p) (pr.cli p).toCounted

variable {rules : RefRules} {env : Env} {pr pr' : Process} {svr : WsServer} {a : ProcAct} {acts later : List ProcAct}
  {p q : ℕ} {x : SvrCli} {cl cl' : Client} {b : ClientAct} {σ τ : Session} {s : Scratch} {pMsg : CWsMsg}
  {now : ℤ}

/-! ## Messages -/

theorem live_delete (hc : τ.created = σ.created + 1) (hd : τ.deleted = σ.deleted ++ [σ.created]) :
    τ.live = σ.live := by
  rw [Session.live, Session.live, hc, hd, List.range_succ, List.filter_append]
  have hlast : [σ.created].filter (fun i => i ∉ σ.deleted ++ [σ.created]) = [] := by simp
  rw [hlast, List.append_nil]
  apply List.filter_congr
  intro i hi
  have hne : i ≠ σ.created := (List.mem_range.mp hi).ne
  simp [hne]

theorem live_keep (h : DeletesCreated σ) (hc : τ.created = σ.created + 1) (hd : τ.deleted = σ.deleted) :
    τ.live = σ.live ++ [σ.created] := by
  have hnew : σ.created ∉ σ.deleted := fun hm => lt_irrefl _ (h _ hm)
  rw [Session.live, Session.live, hc, hd, List.range_succ, List.filter_append]
  simp [hnew]

/-- The references that a session takes and drops again while it goes from `σ` to `τ`. -/
def TakesDrops (σ τ : Session) : Prop :=
  ∃ m k, k ≤ m ∧ τ.created = σ.created + m ∧ τ.deleted.length = σ.deleted.length + k ∧
    τ.live.length = σ.live.length + (m - k)

theorem takesDrops_same : TakesDrops σ σ := ⟨0, 0, le_rfl, rfl, rfl, rfl⟩

theorem takesDrops_procMsg (h : DeletesCreated σ) : TakesDrops σ (σ.procMsg env s pMsg) := by
  have hc : (σ.procMsg env s pMsg).created = σ.created + 1 := created_procMsg σ
  have hkeep (hd : (σ.procMsg env s pMsg).deleted = σ.deleted) : TakesDrops σ (σ.procMsg env s pMsg) :=
    ⟨1, 0, Nat.zero_le _, hc, congrArg List.length hd, by rw [live_keep h hc hd, List.length_append]; rfl⟩
  have hdelete (hd : (σ.procMsg env s pMsg).deleted = σ.deleted ++ [σ.created]) : TakesDrops σ (σ.procMsg env s pMsg) :=
    ⟨1, 1, le_rfl, hc, by rw [hd, List.length_append]; rfl, by rw [live_delete hc hd]; rfl⟩
  have hd : (σ.procMsg env s pMsg).deleted = _ := deleted_procMsg σ
  cases hexit : handlerMgrProcMsg env s pMsg with
  | dropped =>
    rw [hexit] at hd
    exact hdelete hd
  | noHandler =>
    rw [hexit] at hd
    exact hkeep hd
  | handled h pResult setProtocol =>
    rw [hexit] at hd
    exact hdelete hd
  | nullResult h =>
    rw [hexit] at hd
    exact hkeep hd
  | undefined h =>
    rw [hexit] at hd
    exact hkeep hd

theorem ConnInv.takesDrops {c c' : Conn} {a : ConnAct} (h : ConnInv c) (hd : DeletesCreated c.toSession)
    (hs : c.step env a = some c') : TakesDrops c.toSession c'.toSession ∧ DeletesCreated c'.toSession := by
  rcases h.session hs with ⟨_, hsame⟩ | ⟨pMsg, s, _, _, hreply⟩
  · rw [hsame]
    exact ⟨takesDrops_same, hd⟩
  · rw [hreply]
    exact ⟨takesDrops_procMsg (σ := { c.toSession with mstrProtocol := pMsg.mstrProtocol }) hd,
      deletesCreated_procMsg (σ := { c.toSession with mstrProtocol := pMsg.mstrProtocol }) hd⟩

theorem Client.step_takesDrops (h : ConnInv cl.toConn) (hd : DeletesCreated cl.toSession)
    (hs : cl.step env b = some cl') : TakesDrops cl.toSession cl'.toSession ∧ DeletesCreated cl'.toSession := by
  cases Client.step_cases hs with
  | noData hrecv => exact ⟨takesDrops_same, hd⟩
  | pushMsg pMsg c hrecv hne hc => exact h.takesDrops hd hc
  | post hrecv => exact ⟨takesDrops_same, hd⟩
  | onClose hrecv hopen => exact ⟨takesDrops_same, hd⟩
  | stay htask hopen => exact ⟨takesDrops_same, hd⟩
  | leave htask hclosed => exact ⟨takesDrops_same, hd⟩
  | wait htask hsem => exact ⟨takesDrops_same, hd⟩
  | procMsg s c htask hc => exact h.takesDrops hd hc
  | decodeMsg junk s c htask hc => exact h.takesDrops hd hc
  | leaveParse htask hidle => exact ⟨takesDrops_same, hd⟩

/-! ## The count -/

theorem holds_withServer (h : LifeInv rules pr) (hreg : RegistryInv svr) (hpre : pr.events <+: svr.events)
    (hp : p ∈ accepted pr.events) :
    Holds ((pr.withServer svr).refs rules p) ((pr.withServer svr).cli p).toCounted := by
  obtain ⟨evs, hevs⟩ := hpre
  have hdrop : svr.events.drop pr.events.length = evs := by rw [← hevs, List.drop_left]
  have hold : pr.events.count (.call p .unref) = if FoundClosed p pr.events then 1 else 0 := h.inv.registry.released p
  have hnew := hreg.released p
  rw [← hevs, List.count_append, hold, hevs] at hnew
  have hrefs : pr.refs rules p = (pr.withServer svr).refs rules p + evs.count (.call p .unref) := by
    have hsame : (pr.withServer svr).refs rules p = rules.init + (if FoundClosed p svr.events then 0 else 1) +
        (if (pr.cli p).quit then 0 else rules.held) + (pr.cli p).live.length := rfl
    rw [hsame, Process.refs]
    split_ifs at hnew ⊢ <;> omega
  have hholds := h.holds p hp
  rw [hrefs, ← hdrop] at hholds
  exact hholds.drops

theorem holds_new_client (hfound : ¬FoundClosed p pr'.events) (hcli : pr'.cli p = .new rules now) :
    Holds (pr'.refs rules p) (pr'.cli p).toCounted := by
  have hrefs : pr'.refs rules p = rules.init + 1 + rules.held := by
    rw [Process.refs, hcli, if_neg hfound]
    rfl
  rw [hrefs, hcli]
  exact (holds_new rules.init).takes (Nat.succ_pos _) rules.held

theorem refs_setCli_of_ne (hne : p ≠ q) : (pr.setCli q x).refs rules p = pr.refs rules p := by
  rw [Process.refs, setCli_of_ne hne]
  rfl

theorem holds_setCli (h : LifeInv rules pr) (hp : p ∈ accepted pr.events) (hcount : x.toCounted = (pr.cli q).toCounted)
    (hquit : x.quit = (pr.cli q).quit) (hlive : x.live = (pr.cli q).live) :
    Holds ((pr.setCli q x).refs rules p) ((pr.setCli q x).cli p).toCounted := by
  rcases eq_or_ne p q with rfl | hne
  · have hrefs : (pr.setCli p x).refs rules p = pr.refs rules p := by
      rw [Process.refs, setCli_self, hquit, hlive]
      rfl
    rw [hrefs, setCli_self, hcount]
    exact h.holds p hp
  · rw [refs_setCli_of_ne hne, setCli_of_ne hne]
    exact h.holds p hp

theorem LifeInv.quit (h : LifeInv rules pr) (htask : (pr.cli p).task ≠ .left) : (pr.cli p).quit = false := by
  by_contra hq
  exact htask (h.left p (by simpa using hq))

theorem LifeInv.refs_pos (h : LifeInv rules pr) (hpos : 0 < rules.init + rules.held) (htask : (pr.cli p).task ≠ .left) :
    0 < pr.refs rules p := by
  rw [Process.refs, h.quit htask, if_neg Bool.false_ne_true]
  omega

/-- The task pool does not let go of a client whose task has not ended. -/
theorem LifeInv.undeleted (h : LifeInv rules pr) (hpos : 0 < rules.init + rules.held) (hacc : p ∈ accepted pr.events)
    (htask : (pr.cli p).task ≠ .left) : (pr.cli p).quit = false ∧ (pr.cli p).deletes = 0 :=
  ⟨h.quit htask, (h.holds p hacc).undeleted (h.refs_pos hpos htask)⟩

theorem Client.task_ne_left (hs : cl.step env b = some cl') (hb : b.OfWorker) : cl.task ≠ .left := by
  intro hleft
  cases Client.step_cases hs with
  | noData hrecv => exact hb
  | pushMsg pMsg c hrecv hne hc => exact hb
  | post hrecv => exact hb
  | onClose hrecv hopen => exact hb
  | stay htask hopen => exact absurd (hleft.symm.trans htask) (by decide)
  | leave htask hclosed => exact absurd (hleft.symm.trans htask) (by decide)
  | wait htask hsem => exact absurd (hleft.symm.trans htask) (by decide)
  | procMsg s c htask hc => exact absurd (hleft.symm.trans htask) (by decide)
  | decodeMsg junk s c htask hc => exact absurd (hleft.symm.trans htask) (by decide)
  | leaveParse htask hidle => exact absurd (hleft.symm.trans htask) (by decide)

/-- The messages that a worker's step creates and deletes. -/
theorem holds_work (h : LifeInv rules pr) (hpos : 0 < rules.init + rules.held) (hp : p ∈ accepted pr.events)
    (hb : b.OfWorker) (hcl : (pr.cli q).toClient.step env b = some cl) :
    Holds ((pr.setCli q ((pr.cli q).work cl)).refs rules p) ((pr.setCli q ((pr.cli q).work cl)).cli p).toCounted := by
  rcases eq_or_ne p q with rfl | hne
  · obtain ⟨⟨m, k, hk, hcreated, hdeleted, hlive⟩, _⟩ :=
      Client.step_takesDrops (h.inv.conn p) (h.deletes p) hcl
    have hrefs : (pr.setCli p ((pr.cli p).work cl)).refs rules p = pr.refs rules p + (m - k) := by
      have hwork : ((pr.cli p).work cl).live.length = (pr.cli p).live.length + (m - k) := hlive
      rw [Process.refs, setCli_self, hwork, ← Nat.add_assoc]
      rfl
    have hcount : ((pr.cli p).work cl).toCounted = Counted.drop^[k] (Counted.take^[m] (pr.cli p).toCounted) := by
      rw [SvrCli.work, hcreated, hdeleted, Nat.add_sub_cancel_left, Nat.add_sub_cancel_left]
    rw [hrefs, setCli_self, hcount]
    exact (h.holds p hp).takes_drops (h.refs_pos hpos (Client.task_ne_left hcl hb)) hk
  · rw [refs_setCli_of_ne hne, setCli_of_ne hne]
    exact h.holds p hp

theorem holds_taskQuit (h : LifeInv rules pr) (hp : p ∈ accepted pr.events) (hquit : (pr.cli q).quit = false) :
    Holds ((pr.setCli q ((pr.cli q).taskQuit rules)).refs rules p)
      ((pr.setCli q ((pr.cli q).taskQuit rules)).cli p).toCounted := by
  rcases eq_or_ne p q with rfl | hne
  · have hrefs : pr.refs rules p = (pr.setCli p ((pr.cli p).taskQuit rules)).refs rules p + rules.held := by
      have hnew : (pr.setCli p ((pr.cli p).taskQuit rules)).refs rules p =
          rules.init + (if FoundClosed p pr.events then 0 else 1) + 0 + (pr.cli p).live.length := by
        rw [Process.refs, setCli_self]
        rfl
      rw [hnew, Process.refs, hquit, if_neg Bool.false_ne_true]
      omega
    have hholds := h.holds p hp
    rw [hrefs] at hholds
    rw [setCli_self]
    exact hholds.drops
  · rw [refs_setCli_of_ne hne, setCli_of_ne hne]
    exact h.holds p hp

theorem LifeInv.step_holds (h : LifeInv rules pr) (hpos : 0 < rules.init + rules.held)
    (hs : pr.step rules env a = some pr') (hp : p ∈ accepted pr'.events) :
    Holds (pr'.refs rules p) (pr'.cli p).toCounted := by
  have hinv' := h.inv.step hs
  have hreg' := hinv'.registry
  cases Process.step_cases hs with
  | onAccept now pUvTcp pCli hidle hnew =>
    rcases eq_or_ne p pCli with rfl | hne
    · refine holds_new_client (fun hfound => hnew ?_) setCli_self
      have hclosed : Closed p (pr.events ++ [.call p .ref]) := hfound.mem_left
      apply h.inv.registry.closed p
      simpa [Closed, Process.server] using hclosed
    · have hp' : p ∈ accepted pr.events := by
        have hp : p ∈ accepted (pr.events ++ [.call pCli .ref]) := hp
        simpa [accepted, hne] using hp
      have haddCli : RegistryInv (pr.server.addCli now (some pUvTcp) (some pCli)).1 :=
        h.inv.registry.addCli (by simpa [Process.server] using hnew)
      rw [refs_setCli_of_ne hne, setCli_of_ne hne]
      exact holds_withServer h haddCli (List.prefix_append _ _) hp'
  | noData now pCli hidle hopen => exact h.holds p hp
  | onRecv now pCli pMsg cl hidle hopen hne hcl =>
    exact holds_setCli h hp rfl rfl (congrArg Session.live (Client.step_network hcl id).1)
  | post pCli cl halive hrecv hcl => exact holds_setCli h hp rfl rfl (congrArg Session.live (Client.step_network hcl id).1)
  | onSend now pCli hidle hopen => exact holds_setCli h hp rfl rfl rfl
  | onClose pCli hidle hopen =>
    have hp' : p ∈ accepted pr.events := by
      have hp : p ∈ accepted (pr.events ++ [.call pCli .onClose]) := hp
      simpa [accepted] using hp
    exact holds_withServer h hreg' (List.prefix_append _ _) hp'
  | onBaseTimer clock atOnce svr hidle hsvr =>
    cases h.inv.registry.onBaseTimer_eq.symm.trans hsvr
    have hp' : p ∈ accepted pr.events := by
      have hp : p ∈ accepted (pr.server.ticked clock atOnce).events := hp
      rwa [ticked_accepted] at hp
    refine holds_withServer h hreg' ?_ hp'
    rw [ticked_events]
    exact List.prefix_append _ _
  | broadCast pData halive =>
    have hacc : accepted (pr.server.broadCast pData).events = accepted pr.events :=
      h.inv.registry.adds_sends.accepted_eq.trans ((congrArg _ (accepted_visitCalls sendCalls_noRef)).trans (List.append_nil _))
    exact holds_withServer h hreg' (h.inv.registry.prefix_broadCast pData) (hacc ▸ hp)
  | work pCli a cl halive hacc ha hcl => exact holds_work h hpos hp ha hcl
  | taskQuit pCli halive hacc hleft hquit => exact holds_taskQuit h hp hquit

/-! ## Runs -/

theorem lifeInv_start : LifeInv rules .start where
  inv := procInv_start
  deletes p i hi := absurd hi List.not_mem_nil
  left p hq := absurd hq (by simp [Process.start])
  holds p hp := absurd hp List.not_mem_nil

theorem LifeInv.step (h : LifeInv rules pr) (hpos : 0 < rules.init + rules.held) (hs : pr.step rules env a = some pr') :
    LifeInv rules pr' := by
  refine ⟨h.inv.step hs, fun p => ?_, fun p => ?_, fun p hp => h.step_holds hpos hs hp⟩
  · obtain ⟨bs, hbs, _⟩ := h.inv.step_client hs p
    have hboth := Machine.exec_invariant (fun cl => ConnInv (Client.toConn cl) ∧ DeletesCreated cl.toSession)
      (fun cl b cl' ⟨hc, hd⟩ hs => ⟨Machine.exec_invariant ConnInv (fun _ _ _ hi hs => hi.step hs) hc (Client.step_conn hs),
        (Client.step_takesDrops hc hd hs).2⟩) ⟨h.inv.conn p, h.deletes p⟩ hbs
    exact hboth.2
  · have hset {x : SvrCli} {q : ℕ} (hx : x.quit = true → x.task = .left) (hq : ((pr.setCli q x).cli p).quit = true) :
        ((pr.setCli q x).cli p).task = .left := by
      rcases eq_or_ne p q with rfl | hne
      · rw [setCli_self] at hq ⊢
        exact hx hq
      · rw [setCli_of_ne hne] at hq ⊢
        exact h.left p hq
    cases Process.step_cases hs with
    | onAccept now pUvTcp pCli hidle hnew =>
      intro hq
      rcases eq_or_ne p pCli with rfl | hne
      · rw [setCli_self] at hq
        cases hq
      · rw [setCli_of_ne hne] at hq ⊢
        exact h.left p hq
    | noData now pCli hidle hopen => exact h.left p
    | onRecv now pCli pMsg cl hidle hopen hne hcl =>
      exact hset fun hq => (Client.step_network hcl id).2.trans (h.left pCli hq)
    | post pCli cl halive hrecv hcl => exact hset fun hq => (Client.step_network hcl id).2.trans (h.left pCli hq)
    | onSend now pCli hidle hopen => exact hset fun hq => h.left pCli hq
    | onClose pCli hidle hopen => exact h.left p
    | onBaseTimer clock atOnce svr hidle hsvr => exact h.left p
    | broadCast pData halive => exact h.left p
    | work pCli a cl halive hacc ha hcl => exact hset fun hq => absurd (h.left pCli hq) (Client.task_ne_left hcl ha)
    | taskQuit pCli halive hacc hleft hquit => exact hset fun _ => hleft

theorem lifeInv_exec (hpos : 0 < rules.init + rules.held)
    (hrun : Machine.exec (Process.step rules env) .start acts = some pr) : LifeInv rules pr :=
  Machine.exec_invariant (LifeInv rules) (fun _ _ _ hi hs => hi.step hpos hs) lifeInv_start hrun

theorem LifeInv.keepsAlive (h : LifeInv rules pr) (hpos : 0 < rules.init + rules.held) : KeepsAlive rules env pr a := by
  intro hsome p htouch
  obtain ⟨pr', hs⟩ := Option.isSome_iff_exists.mp hsome
  have hrefs (hp : p ∈ accepted pr.events) (hn : 0 < pr.refs rules p) : (pr.cli p).deletes = 0 :=
    (h.holds p hp).undeleted hn
  have hmember (hp : p ∈ pr.mvecClis) : (pr.cli p).deletes = 0 := by
    obtain ⟨hacc, hfound⟩ := h.inv.registry.mem_mvecClis.mp hp
    refine hrefs hacc ?_
    have hfound : ¬FoundClosed p pr.events := hfound
    rw [Process.refs, if_neg hfound]
    omega
  have hopen (ho : pr.Open p) : (pr.cli p).deletes = 0 := by
    refine hmember (h.inv.registry.mem_mvecClis.mpr ⟨ho.1, fun hfound => ?_⟩)
    exact absurd ((h.inv.registry.flag p).mpr hfound.mem_left) (by simp [Process.server, ho.2])
  cases Process.step_cases hs with
  | onAccept now pUvTcp pCli hidle hnew => exact htouch.elim
  | noData now pCli hidle ho => exact hopen (htouch ▸ ho)
  | onRecv now pCli pMsg cl hidle ho hne hcl => exact hopen (htouch ▸ ho)
  | post pCli cl halive hrecv hcl => exact hopen (htouch ▸ h.inv.receiving pCli hrecv)
  | onSend now pCli hidle ho => exact hopen (htouch ▸ ho)
  | onClose pCli hidle ho => exact hopen (htouch ▸ ho)
  | onBaseTimer clock atOnce svr hidle hsvr => exact hmember htouch
  | broadCast pData halive => exact hmember htouch
  | work pCli a cl halive hacc ha hcl =>
    obtain rfl : pCli = p := htouch
    exact hrefs hacc (h.refs_pos hpos (Client.task_ne_left hcl ha))
  | taskQuit pCli halive hacc hleft hquit =>
    obtain rfl : pCli = p := htouch
    refine hrefs hacc ?_
    rw [Process.refs, hquit, if_neg Bool.false_ne_true]
    omega

/-- A client closes and a tick drops the one reference on it while its worker is in `TaskExcute`. -/
def unheldActs : List ProcAct := [.onAccept 0 0 1, .onClose 1, .onBaseTimer (fun _ => 0) fun _ => false]

theorem not_keepsAlive (env : Env) :
    ∃ pr, Machine.exec (Process.step ⟨0, 0⟩ env) .start unheldActs = some pr ∧
      ¬KeepsAlive ⟨0, 0⟩ env pr (.work 1 .testFlag) := by
  have hrun : (Machine.exec (Process.step ⟨0, 0⟩ env) .start unheldActs).map
      (fun pr => ((pr.cli 1).deletes, (pr.step ⟨0, 0⟩ env (.work 1 .testFlag)).isSome)) = some (1, true) := rfl
  obtain ⟨pr, hpr, hboth⟩ := Option.map_eq_some_iff.mp hrun
  obtain ⟨hdeletes, hsome⟩ := Prod.mk.inj hboth
  refine ⟨pr, hpr, fun hkeep => ?_⟩
  exact absurd (hdeletes.symm.trans (hkeep hsome 1 rfl)) (by decide)

/-- No thread of the server ever looks at a client that was deleted exactly when the
task pool has a reference on its tasks (or a count starts above zero). -/
theorem keepsAlive_iff (rules : RefRules) (env : Env) :
    (∀ acts, Machine.EachStep (Process.step rules env) (KeepsAlive rules env) .start acts) ↔
      0 < rules.init + rules.held := by
  constructor
  · intro hall
    by_contra hpos
    obtain ⟨init, held⟩ := rules
    obtain rfl : init = 0 := by
      dsimp only at hpos
      omega
    obtain rfl : held = 0 := by
      dsimp only at hpos
      omega
    obtain ⟨pr, hpr, hnot⟩ := not_keepsAlive env
    exact hnot (hall (unheldActs ++ [.work 1 .testFlag]) unheldActs (.work 1 .testFlag) [] pr rfl hpr)
  · intro hpos acts as₁ a as₂ pr _ hpr
    exact (lifeInv_exec hpos hpr).keepsAlive hpos

theorem LifeInv.deletes_eq (h : LifeInv rules pr) (hpos : 0 < rules.init + rules.held) (hp : p ∈ accepted pr.events) :
    (pr.cli p).deletes =
      if rules.init = 0 ∧ FoundClosed p pr.events ∧ (pr.cli p).quit = true ∧ (pr.cli p).live = [] then 1 else 0 := by
  rw [(h.holds p hp).deletes]
  apply if_congr _ rfl rfl
  rw [← List.length_eq_zero_iff, Process.refs]
  constructor
  · intro hzero
    split_ifs at hzero with hfound hquit
    · exact ⟨by omega, hfound, hquit, by omega⟩
    · omega
    · omega
    · omega
  · rintro ⟨hinit, hfound, hquit, hlive⟩
    rw [hinit, if_pos hfound, if_pos hquit, hlive]

/-- Where no deleted client is looked at, a client's count is the number of its
references, and it is deleted once, when a tick has found it closed, its task has
quit and no message of it is left, and not before. -/
theorem deleted_once (rules : RefRules) (env : Env) (hpos : 0 < rules.init + rules.held) (acts : List ProcAct)
    (pr : Process) (hrun : Machine.exec (Process.step rules env) .start acts = some pr) (p : ℕ)
    (hp : p ∈ accepted pr.events) :
    (pr.cli p).count = pr.refs rules p ∧
      (pr.cli p).deletes =
        if rules.init = 0 ∧ FoundClosed p pr.events ∧ (pr.cli p).quit = true ∧ (pr.cli p).live = [] then 1 else 0 := by
  have h := lifeInv_exec hpos hrun
  exact ⟨(h.holds p hp).count, h.deletes_eq hpos hp⟩

/-- A client that closes before its worker has looked at the flag. -/
def quitActs : List ProcAct :=
  [.onAccept 0 0 1, .onClose 1, .onBaseTimer (fun _ => 0) fun _ => false, .work 1 .testFlag, .taskQuit 1]

theorem deleted_once_quit :
    ∃ pr, Machine.exec (Process.step ⟨0, 1⟩ sampleEnv) .start quitActs = some pr ∧ (pr.cli 1).deletes = 1 ∧
      (pr.cli 1).count = pr.refs ⟨0, 1⟩ 1 ∧ FoundClosed 1 pr.events := by
  have hrun : (Machine.exec (Process.step ⟨0, 1⟩ sampleEnv) .start quitActs).map
      (fun pr => (accepted pr.events, (pr.cli 1).deletes)) = some ([1], 1) := by decide +kernel
  obtain ⟨pr, hpr, hboth⟩ := Option.map_eq_some_iff.mp hrun
  obtain ⟨hacc, hdeletes⟩ := Prod.mk.inj hboth
  obtain ⟨hcount, hexact⟩ := deleted_once ⟨0, 1⟩ sampleEnv (by decide) quitActs pr hpr 1 (by simp [hacc])
  refine ⟨pr, hpr, hdeletes, hcount, ?_⟩
  by_contra hfound
  rw [hdeletes, if_neg fun hall => hfound hall.2.1] at hexact
  cases hexact

/-! ## The blocked worker -/

/-- The client is closed and its worker waits without a permit. -/
structure Stuck (cl : Client) : Prop where
  mbCloseFlag : cl.mbCloseFlag = true
  task : cl.task = .wait
  mcUvSem : cl.mcUvSem = 0

/-- Nobody posts for a closed client, and its worker has no other step to take. -/
theorem Stuck.step (h : Stuck (pr.cli p).toClient) (hinv : ProcInv pr) (hs : pr.step rules env a = some pr') :
    Stuck (pr'.cli p).toClient := by
  have hreg' := (hinv.step hs).registry
  have hclosed : Closed p pr.events := (hinv.registry.flag p).mp h.mbCloseFlag
  have hnot {q : ℕ} (ho : pr.Open q) : p ≠ q := by
    rintro rfl
    exact absurd (h.mbCloseFlag.symm.trans ho.2) (by decide)
  have hserver {svr : WsServer} (hreg : RegistryInv svr) (hpre : pr.events <+: svr.events) :
      Stuck ((pr.withServer svr).cli p).toClient :=
    ⟨(hreg.flag p).mpr (hpre.subset hclosed), h.task, h.mcUvSem⟩
  have hother {pr : Process} {q : ℕ} {x : SvrCli} (h : Stuck (pr.cli p).toClient) (hne : p ≠ q) :
      Stuck ((pr.setCli q x).cli p).toClient := by
    rwa [setCli_of_ne hne]
  cases Process.step_cases hs with
  | onAccept now pUvTcp pCli hidle hnew =>
    have haddCli : RegistryInv (pr.server.addCli now (some pUvTcp) (some pCli)).1 :=
      hinv.registry.addCli (by simpa [Process.server] using hnew)
    refine hother (hserver haddCli (List.prefix_append _ _)) ?_
    rintro rfl
    exact hnew (hinv.registry.closed p hclosed)
  | noData now pCli hidle hopen => exact h
  | onRecv now pCli pMsg cl hidle hopen hne hcl => exact hother h (hnot hopen)
  | post pCli cl halive hrecv hcl => exact hother h (hnot (hinv.receiving pCli hrecv))
  | onSend now pCli hidle hopen => exact hother h (hnot hopen)
  | onClose pCli hidle hopen => exact hserver hreg' (List.prefix_append _ _)
  | onBaseTimer clock atOnce svr hidle hsvr =>
    cases hinv.registry.onBaseTimer_eq.symm.trans hsvr
    refine hserver hreg' ?_
    rw [ticked_events]
    exact List.prefix_append _ _
  | broadCast pData halive => exact hserver hreg' (hinv.registry.prefix_broadCast pData)
  | work pCli a cl halive hacc ha hcl =>
    refine hother h ?_
    rintro rfl
    cases Client.step_cases hcl with
    | noData hrecv => exact ha
    | pushMsg pMsg c hrecv hne hc => exact ha
    | post hrecv => exact ha
    | onClose hrecv hopen => exact ha
    | stay htask hopen => exact absurd (h.task.symm.trans htask) (by decide)
    | leave htask hclosed => exact absurd (h.task.symm.trans htask) (by decide)
    | wait htask hsem => exact absurd h.mcUvSem hsem.ne'
    | procMsg s c htask hc => exact absurd (h.task.symm.trans htask) (by decide)
    | decodeMsg junk s c htask hc => exact absurd (h.task.symm.trans htask) (by decide)
    | leaveParse htask hidle => exact absurd (h.task.symm.trans htask) (by decide)
  | taskQuit pCli halive hacc hleft hquit =>
    refine hother h ?_
    rintro rfl
    exact absurd (h.task.symm.trans hleft) (by decide)

theorem Stuck.exec (h : Stuck (pr.cli p).toClient) (hinv : ProcInv pr)
    (hlater : Machine.exec (Process.step rules env) pr later = some pr') : Stuck (pr'.cli p).toClient :=
  (Machine.exec_invariant (fun pr => ProcInv pr ∧ Stuck (pr.cli p).toClient)
    (fun _ _ _ ⟨hi, hst⟩ hs => ⟨hi.step hs, hst.step hi hs⟩) ⟨hinv, h⟩ hlater).2

theorem Stuck.undeleted (h : Stuck (pr.cli p).toClient) (hlife : LifeInv rules pr) (hpos : 0 < rules.init + rules.held) :
    (pr.cli p).quit = false ∧ (pr.cli p).deletes = 0 := by
  have hacc : p ∈ accepted pr.events := hlife.inv.registry.closed p ((hlife.inv.registry.flag p).mp h.mbCloseFlag)
  refine hlife.undeleted hpos hacc ?_
  rw [h.task]
  decide

/-- A client that closes while its worker waits without a permit is never deleted:
its task does not end in any run of the server from there. -/
theorem stuck_never_deleted (rules : RefRules) (env : Env) (hpos : 0 < rules.init + rules.held)
    (acts later : List ProcAct) (pr pr' : Process) (hrun : Machine.exec (Process.step rules env) .start acts = some pr)
    (p : ℕ) (hstuck : Stuck (pr.cli p).toClient) (hlater : Machine.exec (Process.step rules env) pr later = some pr') :
    Stuck (pr'.cli p).toClient ∧ (pr'.cli p).quit = false ∧ (pr'.cli p).deletes = 0 := by
  have hstuck' := hstuck.exec (procInv_exec hrun) hlater
  exact ⟨hstuck', hstuck'.undeleted (lifeInv_exec hpos (Machine.exec_append.mpr ⟨pr, hrun, hlater⟩)) hpos⟩

theorem stuck_never_deleted_idle :
    ∃ pr pr', Machine.exec (Process.step ⟨0, 1⟩ sampleEnv) .start [.onAccept 0 0 1, .work 1 .testFlag, .onClose 1] = some pr ∧
      Machine.exec (Process.step ⟨0, 1⟩ sampleEnv) pr
        [.onBaseTimer (fun _ => 0) fun _ => false, .onAccept 1 0 2, .onRecv 1 2 [71], .post 2] = some pr' ∧
      (pr'.cli 1).deletes = 0 := by
  have hrun : (Machine.exec (Process.step ⟨0, 1⟩ sampleEnv) .start
      [.onAccept 0 0 1, .work 1 .testFlag, .onClose 1]).bind (fun pr =>
        (Machine.exec (Process.step ⟨0, 1⟩ sampleEnv) pr
          [.onBaseTimer (fun _ => 0) fun _ => false, .onAccept 1 0 2, .onRecv 1 2 [71], .post 2]).map fun _ =>
          ((pr.cli 1).mbCloseFlag, (pr.cli 1).task, (pr.cli 1).mcUvSem)) = some (true, .wait, 0) := by decide +kernel
  obtain ⟨pr, hpr, hstuck⟩ := Option.bind_eq_some_iff.mp hrun
  obtain ⟨pr', hlater, hstuck⟩ := Option.map_eq_some_iff.mp hstuck
  simp only [Prod.mk.injEq] at hstuck
  obtain ⟨hflag, htask, hsem⟩ := hstuck
  exact ⟨pr, pr', hpr, hlater, (stuck_never_deleted ⟨0, 1⟩ sampleEnv (by decide) _ _ pr pr' hpr 1
    ⟨hflag, htask, hsem⟩ hlater).2.2⟩

end SrWebSocket
