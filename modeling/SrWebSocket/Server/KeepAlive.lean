import Mathlib.Data.List.Induction
import SrWebSocket.Server.Broadcast

/-! # Idle clients

A client is active when it is accepted, when bytes of it arrive and when something was
sent to it. A tick closes the clients that have not been active for more than
`wsKeepAliveSec`, no others, and the next tick takes them out of the vector.
-/
namespace SrWebSocket

/-- When an action is an activity of the client. -/
def SvrAct.activity (p : ℕ) : SvrAct → Option ℤ
  | .addCli now (some _) (some pCli) => if pCli = p then some now else none
  | .active now pCli => if pCli = p then some now else none
  | .addCli _ none _ | .addCli _ (some _) none | .onClose _ | .onBaseTimer _ _ | .broadCast _ => none

def lastActive (p : ℕ) (acts : List SvrAct) : Option ℤ := (acts.filterMap (SvrAct.activity p)).getLast?

/-- The client has been active, but not in the last `wsKeepAliveSec`. -/
def IdleAt (p : ℕ) (acts : List SvrAct) (now : ℤ) : Prop := ∃ t, lastActive p acts = some t ∧ t + wsKeepAliveSec < now

/-- What ends a client, after these actions. -/
def SvrAct.Ends (p : ℕ) (before : List SvrAct) : SvrAct → Prop
  | .onClose pCli => pCli = p
  | .onBaseTimer clock _ => IdleAt p before (clock p)
  | .addCli _ _ _ | .active _ _ | .broadCast _ => False

def Ended (p : ℕ) (acts : List SvrAct) : Prop := Trace.Sometime (SvrAct.Ends p) acts

/-- What takes a client out of the vector. -/
def SvrAct.Collects (p : ℕ) (before : List SvrAct) : SvrAct → Prop
  | .onBaseTimer _ _ => Ended p before
  | .onClose _ | .addCli _ _ _ | .active _ _ | .broadCast _ => False

/-- What closes a client in this state, where `Close` calls `OnClose` at once. -/
def SvrAct.Closes (p : ℕ) (svr : WsServer) : SvrAct → Prop
  | .onClose pCli => pCli = p
  | .onBaseTimer clock _ => p ∈ accepted svr.events ∧ (svr.cli p).TimedOut (clock p)
  | .addCli _ _ _ | .active _ _ | .broadCast _ => False

/-- `Close` of this client calls `OnClose` before it returns. -/
def SvrAct.ClosesAtOnce (p : ℕ) (a : SvrAct) : Prop := ∀ clock atOnce, a = .onBaseTimer clock atOnce → atOnce p = true

variable {p : ℕ} {svr svr' : WsServer} {a : SvrAct} {acts : List SvrAct} {clock : ℕ → ℤ} {atOnce : ℕ → Bool}

theorem miActiveTime_ticked : ((svr.ticked clock atOnce).cli p).miActiveTime = (svr.cli p).miActiveTime := by
  rw [ticked_cli]
  split
  · unfold CliStatus.ticked
    split <;> rfl
  · rfl

theorem RegistryInv.step_miActiveTime (h : RegistryInv svr) (hs : svr.step a = some svr') :
    (svr'.cli p).miActiveTime = (a.activity p).getD (svr.cli p).miActiveTime := by
  cases a with
  | addCli now pUvTcp pCli =>
    obtain ⟨_, he⟩ := Option.ite_none_right_eq_some.mp hs
    obtain rfl := Option.some.inj he
    cases pUvTcp with
    | none => rfl
    | some tcp =>
      cases pCli with
      | none => rfl
      | some q =>
        rcases eq_or_ne p q with rfl | hne
        · simp [WsServer.addCli, SvrAct.activity]
        · simp [WsServer.addCli, SvrAct.activity, hne, hne.symm]
  | onClose q =>
    obtain ⟨_, he⟩ := Option.ite_none_right_eq_some.mp hs
    obtain rfl := Option.some.inj he
    rcases eq_or_ne p q with rfl | hne
    · simp [WsServer.onClose, SvrAct.activity]
    · simp [WsServer.onClose, SvrAct.activity, hne]
  | active now q =>
    obtain ⟨_, he⟩ := Option.ite_none_right_eq_some.mp hs
    obtain rfl := Option.some.inj he
    rcases eq_or_ne p q with rfl | hne
    · simp [WsServer.active, SvrAct.activity]
    · simp [WsServer.active, SvrAct.activity, hne, hne.symm]
  | onBaseTimer clock atOnce =>
    cases h.onBaseTimer_eq.symm.trans hs
    exact miActiveTime_ticked
  | broadCast pData =>
    obtain rfl := Option.some.inj hs
    rw [broadCast_eq h.nodup]
    exact congrArg CliStatus.miActiveTime (ite_self _)

theorem lastActive_concat : lastActive p (acts ++ [a]) = (a.activity p).or (lastActive p acts) := by
  rw [lastActive, List.filterMap_append]
  cases ha : a.activity p with
  | none => simp [ha, lastActive]
  | some t => simp [ha]

theorem activity_of_accepts (ha : a.accepts = some p) : (a.activity p).isSome := by
  cases a with
  | addCli now pUvTcp pCli =>
    cases pUvTcp with
    | none => cases ha
    | some tcp =>
      obtain rfl : pCli = some p := ha
      simp [SvrAct.activity]
  | onClose q => cases ha
  | active now q => cases ha
  | onBaseTimer clock atOnce => cases ha
  | broadCast pData => cases ha

/-- The time that a client keeps is that of its last activity. -/
theorem lastActive_exec (hrun : Machine.exec WsServer.step .start acts = some svr) (hp : p ∈ accepted svr.events) :
    lastActive p acts = some (svr.cli p).miActiveTime := by
  induction acts using List.reverseRecOn generalizing svr with
  | nil =>
    cases hrun
    exact absurd hp List.not_mem_nil
  | append_singleton acts a ih =>
    obtain ⟨u, hu, hs⟩ := Machine.exec_append.mp hrun
    obtain ⟨v, hv, he⟩ := Machine.exec_cons_eq_some.mp hs
    obtain rfl := Option.some.inj he
    have hinv := registryInv_exec hu
    rw [lastActive_concat, hinv.step_miActiveTime hv]
    cases ha : a.activity p with
    | some t => rfl
    | none =>
      rw [accepted_step hinv hv, List.mem_append] at hp
      refine ih hu (hp.resolve_right fun hacc => ?_)
      have hacc : a.accepts = some p := Option.mem_toList.mp hacc
      have hactive := activity_of_accepts hacc
      rw [ha] at hactive
      cases hactive

/-- What a step closes. -/
theorem RegistryInv.closed_step (h : RegistryInv svr) (hs : svr.step a = some svr') (hclose : a.ClosesAtOnce p) :
    Closed p svr'.events ↔ Closed p svr.events ∨ a.Closes p svr := by
  have hkeep {evs : List SvrEvent} (he : svr'.events = svr.events ++ evs) (hnot : .call p .onClose ∉ evs) :
      Closed p svr'.events ↔ Closed p svr.events ∨ False := by
    rw [or_false, Closed, he, List.mem_append, or_iff_left hnot]
    exact Iff.rfl
  cases a with
  | addCli now pUvTcp pCli =>
    obtain ⟨_, he⟩ := Option.ite_none_right_eq_some.mp hs
    obtain rfl := Option.some.inj he
    cases pUvTcp with
    | none => exact hkeep (List.append_nil _).symm List.not_mem_nil
    | some tcp =>
      cases pCli with
      | none => exact hkeep (List.append_nil _).symm List.not_mem_nil
      | some q => exact hkeep rfl (by simp)
  | onClose q =>
    obtain ⟨_, he⟩ := Option.ite_none_right_eq_some.mp hs
    obtain rfl := Option.some.inj he
    simp [WsServer.onClose, Closed, SvrAct.Closes, eq_comm]
  | active now q =>
    obtain ⟨_, he⟩ := Option.ite_none_right_eq_some.mp hs
    obtain rfl := Option.some.inj he
    exact hkeep (List.append_nil _).symm List.not_mem_nil
  | onBaseTimer clock atOnce =>
    cases h.onBaseTimer_eq.symm.trans hs
    have hflag : Closed p svr.events ↔ (svr.cli p).mbCloseFlag = true := (h.flag p).symm
    have honce : atOnce p = true := hclose clock atOnce rfl
    rw [ticked_closed h, ticked_cli, SvrAct.Closes, hflag]
    by_cases hp : p ∈ svr.mvecClis
    · rw [if_pos hp, and_iff_right (h.mem_mvecClis.mp hp).1, CliStatus.ticked]
      cases hopen : (svr.cli p).mbCloseFlag with
      | true => simp [hopen]
      | false =>
        by_cases hidle : (svr.cli p).TimedOut (clock p)
        · simp [hidle, honce]
        · simp [hidle, hopen]
    · rw [if_neg hp]
      refine (or_iff_left_of_imp fun hboth => ?_).symm
      have hfound : FoundClosed p svr.events := by
        by_contra hfound
        exact hp (h.mem_mvecClis.mpr ⟨hboth.1, hfound⟩)
      exact hflag.mp hfound.mem_left
  | broadCast pData =>
    obtain rfl := Option.some.inj hs
    refine hkeep (congrArg WsServer.events (broadCast_eq h.nodup)) fun hm => ?_
    rcases mem_sendCalls (mem_visitCalls.mp hm).2 with hc | ⟨hc, _⟩
    · cases hc
    · cases hc

/-! ## Runs -/

theorem accepted_of_activity {t : ℤ} (h : RegistryInv svr) (hs : svr.step a = some svr') (ha : a.activity p = some t) :
    p ∈ accepted svr'.events := by
  rw [accepted_step h hs, List.mem_append]
  cases a with
  | addCli now pUvTcp pCli =>
    cases pUvTcp with
    | none => cases ha
    | some tcp =>
      cases pCli with
      | none => cases ha
      | some q =>
        obtain ⟨rfl, _⟩ := Option.ite_none_right_eq_some.mp ha
        exact Or.inr (by simp [SvrAct.accepts])
  | active now q =>
    obtain ⟨rfl, _⟩ := Option.ite_none_right_eq_some.mp ha
    exact Or.inl (Option.ite_none_right_eq_some.mp hs).1
  | onClose q => cases ha
  | onBaseTimer clock atOnce => cases ha
  | broadCast pData => cases ha

theorem accepted_of_lastActive {t : ℤ} (hrun : Machine.exec WsServer.step .start acts = some svr)
    (ht : lastActive p acts = some t) : p ∈ accepted svr.events := by
  induction acts using List.reverseRecOn generalizing svr with
  | nil => cases ht
  | append_singleton acts a ih =>
    obtain ⟨u, hu, hs⟩ := Machine.exec_append.mp hrun
    obtain ⟨v, hv, he⟩ := Machine.exec_cons_eq_some.mp hs
    obtain rfl := Option.some.inj he
    have hinv := registryInv_exec hu
    rw [lastActive_concat] at ht
    cases ha : a.activity p with
    | some t' => exact accepted_of_activity hinv hv ha
    | none =>
      rw [ha] at ht
      exact hinv.accepted_mono (ih hu ht) hv

theorem idleAt_iff (hrun : Machine.exec WsServer.step .start acts = some svr) (now : ℤ) :
    IdleAt p acts now ↔ p ∈ accepted svr.events ∧ (svr.cli p).TimedOut now := by
  constructor
  · rintro ⟨t, ht, hlt⟩
    have hacc := accepted_of_lastActive hrun ht
    rw [lastActive_exec hrun hacc] at ht
    obtain rfl := Option.some.inj ht
    exact ⟨hacc, hlt⟩
  · rintro ⟨hacc, hlt⟩
    exact ⟨_, lastActive_exec hrun hacc, hlt⟩

theorem closed_iff_ended (hrun : Machine.exec WsServer.step .start acts = some svr)
    (hclose : ∀ a ∈ acts, a.ClosesAtOnce p) : Closed p svr.events ↔ Ended p acts := by
  induction acts using List.reverseRecOn generalizing svr with
  | nil =>
    cases hrun
    exact iff_of_false List.not_mem_nil Trace.not_sometime_nil
  | append_singleton acts a ih =>
    obtain ⟨u, hu, hs⟩ := Machine.exec_append.mp hrun
    obtain ⟨v, hv, he⟩ := Machine.exec_cons_eq_some.mp hs
    obtain rfl := Option.some.inj he
    have hends : a.Closes p u ↔ a.Ends p acts := by
      cases a with
      | addCli now pUvTcp pCli => exact Iff.rfl
      | onClose q => exact Iff.rfl
      | active now q => exact Iff.rfl
      | onBaseTimer clock atOnce => exact (idleAt_iff hu (clock p)).symm
      | broadCast pData => exact Iff.rfl
    rw [(registryInv_exec hu).closed_step hv (hclose a (by simp)), hends, Ended, Trace.sometime_concat,
      ih hu fun b hb => hclose b (by simp [hb])]
    exact Iff.rfl

theorem RegistryInv.foundClosed_step (h : RegistryInv svr) (hs : svr.step a = some svr') :
    FoundClosed p svr'.events ↔
      FoundClosed p svr.events ∨ (∃ clock atOnce, a = .onBaseTimer clock atOnce) ∧ Closed p svr.events := by
  have hnoTick {evs : List SvrEvent} (he : svr'.events = svr.events ++ evs) (hnot : .onBaseTimer ∉ evs) :
      FoundClosed p svr'.events ↔ FoundClosed p svr.events := by
    rw [he]
    exact foundClosed_append hnot
  cases a with
  | addCli now pUvTcp pCli =>
    obtain ⟨_, he⟩ := Option.ite_none_right_eq_some.mp hs
    obtain rfl := Option.some.inj he
    refine Iff.trans ?_ (or_iff_left (by simp)).symm
    cases pUvTcp with
    | none => exact hnoTick (List.append_nil _).symm List.not_mem_nil
    | some tcp =>
      cases pCli with
      | none => exact hnoTick (List.append_nil _).symm List.not_mem_nil
      | some q => exact hnoTick rfl (by simp)
  | onClose q =>
    obtain ⟨_, he⟩ := Option.ite_none_right_eq_some.mp hs
    obtain rfl := Option.some.inj he
    exact (hnoTick rfl (by simp)).trans (or_iff_left (by simp)).symm
  | active now q =>
    obtain ⟨_, he⟩ := Option.ite_none_right_eq_some.mp hs
    obtain rfl := Option.some.inj he
    exact (hnoTick (List.append_nil _).symm List.not_mem_nil).trans (or_iff_left (by simp)).symm
  | onBaseTimer clock atOnce =>
    cases h.onBaseTimer_eq.symm.trans hs
    rw [ticked_foundClosed, and_iff_right ⟨clock, atOnce, rfl⟩]
    exact (or_iff_right_of_imp fun hfound => hfound.mem_left).symm
  | broadCast pData =>
    obtain rfl := Option.some.inj hs
    refine (hnoTick (congrArg WsServer.events (broadCast_eq h.nodup)) onBaseTimer_notMem_visitCalls).trans ?_
    exact (or_iff_left (by simp)).symm

theorem foundClosed_iff_collected (hrun : Machine.exec WsServer.step .start acts = some svr)
    (hclose : ∀ a ∈ acts, a.ClosesAtOnce p) : FoundClosed p svr.events ↔ Trace.Sometime (SvrAct.Collects p) acts := by
  induction acts using List.reverseRecOn generalizing svr with
  | nil =>
    cases hrun
    exact iff_of_false Trace.not_before_nil Trace.not_sometime_nil
  | append_singleton acts a ih =>
    obtain ⟨u, hu, hs⟩ := Machine.exec_append.mp hrun
    obtain ⟨v, hv, he⟩ := Machine.exec_cons_eq_some.mp hs
    obtain rfl := Option.some.inj he
    have hbefore : ∀ b ∈ acts, b.ClosesAtOnce p := fun b hb => hclose b (by simp [hb])
    rw [(registryInv_exec hu).foundClosed_step hv, Trace.sometime_concat, ih hu hbefore, closed_iff_ended hu hbefore]
    cases a with
    | addCli now pUvTcp pCli => simp [SvrAct.Collects]
    | onClose q => simp [SvrAct.Collects]
    | active now q => simp [SvrAct.Collects]
    | onBaseTimer clock atOnce => simp [SvrAct.Collects]
    | broadCast pData => simp [SvrAct.Collects]

/-- In every run, where `Close` calls `OnClose` at once, a client is closed exactly when
it closed itself or a tick came more than `wsKeepAliveSec` after its last activity, and
it is in the vector exactly when it was accepted and no tick has come since then. -/
theorem keepAlive_exact (acts : List SvrAct) (svr : WsServer) (hrun : Machine.exec WsServer.step .start acts = some svr)
    (p : ℕ) (hclose : ∀ a ∈ acts, a.ClosesAtOnce p) :
    (Closed p svr.events ↔ Ended p acts) ∧
      (p ∈ svr.mvecClis ↔ p ∈ acts.filterMap SvrAct.accepts ∧ ¬Trace.Sometime (SvrAct.Collects p) acts) := by
  have h := registryInv_exec hrun
  have hacc : accepted svr.events = acts.filterMap SvrAct.accepts := accepted_exec registryInv_start hrun
  refine ⟨closed_iff_ended hrun hclose, ?_⟩
  rw [h.mem_mvecClis, hacc, foundClosed_iff_collected hrun hclose]

theorem keepAlive_exact_three :
    ∃ svr, Machine.exec WsServer.step .start threeClients = some svr ∧ svr.mvecClis = [4] ∧ Closed 3 svr.events ∧
      Ended 3 threeClients ∧ Trace.Sometime (SvrAct.Collects 3) threeClients := by
  have hrun : (Machine.exec WsServer.step .start threeClients).map
      (fun svr => (svr.mvecClis, decide (Closed 3 svr.events))) = some ([4], true) := by decide
  obtain ⟨svr, hsvr, hboth⟩ := Option.map_eq_some_iff.mp hrun
  obtain ⟨hclis, hclosed⟩ := Prod.mk.inj hboth
  have hclosed : Closed 3 svr.events := of_decide_eq_true hclosed
  have honce : ∀ a ∈ threeClients, a.ClosesAtOnce 3 := by
    rintro a ha clock atOnce rfl
    simp only [threeClients, List.mem_cons, SvrAct.onBaseTimer.injEq, reduceCtorEq, false_or, or_false,
      List.not_mem_nil] at ha
    rcases ha with ⟨_, rfl⟩ | ⟨_, rfl⟩ | ⟨_, rfl⟩ <;> rfl
  obtain ⟨hended, hvector⟩ := keepAlive_exact threeClients svr hsvr 3 honce
  refine ⟨svr, hsvr, hclis, hclosed, hended.mp hclosed, ?_⟩
  by_contra hnot
  have hmem := hvector.mpr ⟨by decide, hnot⟩
  rw [hclis] at hmem
  exact absurd hmem (by decide)

end SrWebSocket
