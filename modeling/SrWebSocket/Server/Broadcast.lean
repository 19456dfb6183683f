import SrWebSocket.Server.Registry

/-! # Who gets which broadcast

A client is sent the broadcasts between its acceptance and its close: all of them,
each once and in the order in which they were made. So any two clients see the
broadcasts that both of them get in the same order.
-/
namespace SrWebSocket

/-- What was sent to a client. -/
def sentTo (p : ℕ) (events : List SvrEvent) : List (List UInt8) :=
  events.filterMap fun e => match e with
    | .call pCli (.send pData) => if pCli = p then some pData else none
    | _ => none

def SvrAct.broadcasts : SvrAct → List (List UInt8)
  | .broadCast pData => [pData]
  | .addCli _ _ _ | .onClose _ | .active _ _ | .onBaseTimer _ _ => []

/-- An accepted client that has not closed. -/
def Listens (p : ℕ) (svr : WsServer) : Prop := p ∈ accepted svr.events ∧ ¬Closed p svr.events

instance (p : ℕ) (svr : WsServer) : Decidable (Listens p svr) := inferInstanceAs (Decidable (_ ∧ _))

variable {pData : List UInt8} {p q : ℕ} {svr svr' : WsServer} {a : SvrAct} {acts : List SvrAct} {events : List SvrEvent}

theorem sentTo_append (events events' : List SvrEvent) : sentTo p (events ++ events') = sentTo p events ++ sentTo p events' :=
  List.filterMap_append

theorem sentTo_nil_of_unsent (h : ∀ d, .call p (.send d) ∉ events) : sentTo p events = [] := by
  apply List.filterMap_eq_nil_iff.mpr
  intro e he
  cases e with
  | onBaseTimer => rfl
  | call q c =>
    cases c with
    | send d =>
      apply if_neg
      rintro rfl
      exact h d he
    | ref => rfl
    | isClosed => rfl
    | onTick => rfl
    | unref => rfl
    | onClose => rfl

theorem sentTo_visit (hne : q ≠ p) (cs : List CliCall) : sentTo p (cs.map (.call q)) = [] := by
  apply sentTo_nil_of_unsent
  intro d hd
  obtain ⟨c, _, he⟩ := List.mem_map.mp hd
  exact hne (SvrEvent.call.inj he).1

theorem sentTo_sendCalls (c : CliStatus) :
    sentTo p ((sendCalls pData c).map (.call p)) = if c.mbCloseFlag then [] else [pData] := by
  unfold sendCalls
  split
  · rfl
  · simp [sentTo]

/-- A walk of `BroadCast` over the vector. -/
theorem sentTo_visitCalls {cli : ℕ → CliStatus} {ps : List ℕ} (hps : ps.Nodup) :
    sentTo p (visitCalls (fun q => sendCalls pData (cli q)) ps) =
      if p ∈ ps ∧ (cli p).mbCloseFlag = false then [pData] else [] := by
  induction ps with
  | nil => rfl
  | cons q ps ih =>
    obtain ⟨hq, hps⟩ := List.nodup_cons.mp hps
    have hcons : visitCalls (fun q => sendCalls pData (cli q)) (q :: ps) =
        (sendCalls pData (cli q)).map (.call q) ++ visitCalls (fun q => sendCalls pData (cli q)) ps := rfl
    rw [hcons, sentTo_append, ih hps]
    rcases eq_or_ne q p with rfl | hne
    · have hnot : ¬(q ∈ ps ∧ (cli q).mbCloseFlag = false) := fun h => hq h.1
      rw [sentTo_sendCalls, if_neg hnot, List.append_nil]
      cases (cli q).mbCloseFlag <;> simp
    · rw [sentTo_visit hne, List.nil_append]
      simp [hne.symm]

/-- What a step sends to a client. -/
theorem RegistryInv.sentTo_step (h : RegistryInv svr) (hs : svr.step a = some svr') :
    sentTo p svr'.events = sentTo p svr.events ++ if Listens p svr then a.broadcasts else [] := by
  have hsilent {evs : List SvrEvent} (he : svr'.events = svr.events ++ evs) (hun : ∀ d, .call p (.send d) ∉ evs)
      (hb : a.broadcasts = []) : sentTo p svr'.events = sentTo p svr.events ++ if Listens p svr then a.broadcasts else [] := by
    rw [he, sentTo_append, sentTo_nil_of_unsent hun, hb, ite_self]
  cases a with
  | addCli now pUvTcp pCli =>
    obtain ⟨_, he⟩ := Option.ite_none_right_eq_some.mp hs
    obtain rfl := Option.some.inj he
    cases pUvTcp with
    | none => exact hsilent (List.append_nil _).symm (by simp) rfl
    | some tcp =>
      cases pCli with
      | none => exact hsilent (List.append_nil _).symm (by simp) rfl
      | some q => exact hsilent rfl (by simp) rfl
  | onClose q =>
    obtain ⟨_, he⟩ := Option.ite_none_right_eq_some.mp hs
    obtain rfl := Option.some.inj he
    exact hsilent rfl (by simp) rfl
  | active now q =>
    obtain ⟨_, he⟩ := Option.ite_none_right_eq_some.mp hs
    obtain rfl := Option.some.inj he
    exact hsilent (List.append_nil _).symm (by simp) rfl
  | onBaseTimer clock atOnce =>
    cases h.onBaseTimer_eq.symm.trans hs
    refine hsilent ticked_events (fun d hd => ?_) rfl
    rcases List.mem_cons.mp hd with he | hm
    · cases he
    · exact (tickCalls_quiet _ _).2.1 d (mem_visitCalls.mp hm).2
  | broadCast pData =>
    obtain rfl := Option.some.inj hs
    have hiff : (p ∈ svr.mvecClis ∧ (svr.cli p).mbCloseFlag = false) ↔ Listens p svr := by
      rw [h.mem_mvecClis, ← Bool.not_eq_true, h.flag, Listens]
      exact ⟨fun ⟨hp, hopen⟩ => ⟨hp.1, hopen⟩, fun ⟨hp, hopen⟩ => ⟨⟨hp, fun hf => hopen hf.mem_left⟩, hopen⟩⟩
    rw [broadCast_eq h.nodup]
    refine (sentTo_append _ _).trans (congrArg _ ?_)
    rw [sentTo_visitCalls h.nodup]
    exact if_congr hiff rfl rfl

/-! ## Runs -/

theorem sentTo_exec_listens (h : RegistryInv svr) (hrun : Machine.exec WsServer.step svr acts = some svr')
    (hlistens : Machine.EachStep WsServer.step (fun svr _ => Listens p svr) svr acts) :
    sentTo p svr'.events = sentTo p svr.events ++ acts.flatMap SvrAct.broadcasts := by
  induction acts generalizing svr with
  | nil =>
    cases hrun
    simp
  | cons a acts ih =>
    obtain ⟨u, hu, hrun⟩ := Machine.exec_cons_eq_some.mp hrun
    obtain ⟨hp, hrest⟩ := (Machine.eachStep_cons hu).mp hlistens
    rw [ih (h.step hu) hrun hrest, h.sentTo_step hu, if_pos hp, List.flatMap_cons, List.append_assoc]

theorem sentTo_exec_silent (h : RegistryInv svr) (hrun : Machine.exec WsServer.step svr acts = some svr')
    (hsilent : Machine.EachStep WsServer.step (fun svr _ => ¬Listens p svr) svr acts) :
    sentTo p svr'.events = sentTo p svr.events := by
  induction acts generalizing svr with
  | nil =>
    cases hrun
    rfl
  | cons a acts ih =>
    obtain ⟨u, hu, hrun⟩ := Machine.exec_cons_eq_some.mp hrun
    obtain ⟨hp, hrest⟩ := (Machine.eachStep_cons hu).mp hsilent
    rw [ih (h.step hu) hrun hrest, h.sentTo_step hu, if_neg hp, List.append_nil]

theorem RegistryInv.prefix_broadCast (h : RegistryInv svr) (pData : List UInt8) :
    svr.events <+: (svr.broadCast pData).events := by
  rw [broadCast_eq h.nodup]
  exact List.prefix_append _ _

theorem RegistryInv.prefix_step (h : RegistryInv svr) (hs : svr.step a = some svr') : svr.events <+: svr'.events := by
  cases a with
  | addCli now pUvTcp pCli =>
    obtain ⟨_, he⟩ := Option.ite_none_right_eq_some.mp hs
    obtain rfl := Option.some.inj he
    cases pUvTcp with
    | none => exact List.prefix_rfl
    | some tcp =>
      cases pCli with
      | none => exact List.prefix_rfl
      | some q => exact List.prefix_append _ _
  | onClose q =>
    obtain ⟨_, he⟩ := Option.ite_none_right_eq_some.mp hs
    obtain rfl := Option.some.inj he
    exact List.prefix_append _ _
  | active now q =>
    obtain ⟨_, he⟩ := Option.ite_none_right_eq_some.mp hs
    obtain rfl := Option.some.inj he
    exact List.prefix_rfl
  | onBaseTimer clock atOnce =>
    cases h.onBaseTimer_eq.symm.trans hs
    rw [ticked_events]
    exact List.prefix_append _ _
  | broadCast pData =>
    obtain rfl := Option.some.inj hs
    exact h.prefix_broadCast pData

theorem RegistryInv.accepted_mono (h : RegistryInv svr) (hp : p ∈ accepted svr.events) (hs : svr.step a = some svr') :
    p ∈ accepted svr'.events := by
  rw [accepted_step h hs]
  exact List.mem_append_left _ hp

theorem RegistryInv.closed_mono (h : RegistryInv svr) (hp : Closed p svr.events) (hs : svr.step a = some svr') :
    Closed p svr'.events := (h.prefix_step hs).subset hp

/-- A client is open when it has just been accepted. -/
theorem RegistryInv.accepts_open (h : RegistryInv svr) (hp : p ∉ accepted svr.events) (ha : a.accepts = some p)
    (hs : svr.step a = some svr') : ¬Closed p svr'.events := by
  cases a with
  | addCli now pUvTcp pCli =>
    obtain ⟨_, he⟩ := Option.ite_none_right_eq_some.mp hs
    obtain rfl := Option.some.inj he
    cases pUvTcp with
    | none => cases ha
    | some tcp =>
      obtain rfl : pCli = some p := ha
      intro hclosed
      apply hp
      apply h.closed p
      simpa [WsServer.addCli, Closed] using hclosed
  | onClose q => cases ha
  | active now q => cases ha
  | onBaseTimer clock atOnce => cases ha
  | broadCast pData => cases ha

/-- Nothing is sent to a client after it closed. -/
theorem sentTo_exec_closed (h : RegistryInv svr) (hp : Closed p svr.events)
    (hrun : Machine.exec WsServer.step svr acts = some svr') : sentTo p svr'.events = sentTo p svr.events := by
  apply sentTo_exec_silent h hrun
  intro as₁ a as₂ u _ hu hlistens
  have hboth := Machine.exec_invariant (fun svr => RegistryInv svr ∧ Closed p svr.events)
    (fun _ _ _ ⟨hi, hc⟩ hs => ⟨hi.step hs, hi.closed_mono hc hs⟩) ⟨h, hp⟩ hu
  exact hlistens.2 hboth.2

/-- Every broadcast reaches a client that has been accepted and stays open. -/
theorem sentTo_exec_open (h : RegistryInv svr) (hp : p ∈ accepted svr.events)
    (hrun : Machine.exec WsServer.step svr acts = some svr')
    (hopen : Machine.EachStep WsServer.step (fun svr _ => ¬Closed p svr.events) svr acts) :
    sentTo p svr'.events = sentTo p svr.events ++ acts.flatMap SvrAct.broadcasts := by
  apply sentTo_exec_listens h hrun
  intro as₁ a as₂ u he hu
  have hboth := Machine.exec_invariant (fun svr => RegistryInv svr ∧ p ∈ accepted svr.events)
    (fun _ _ _ ⟨hi, hc⟩ hs => ⟨hi.step hs, hi.accepted_mono hc hs⟩) ⟨h, hp⟩ hu
  exact ⟨hboth.2, hopen as₁ a as₂ u he hu⟩

/-- In every run the broadcasts that a client is sent are those that were made from its
acceptance on until it closed or the run ended: each of them, once and in their order. -/
theorem broadcast_window (acts : List SvrAct) (svr : WsServer) (hrun : Machine.exec WsServer.step .start acts = some svr)
    (p : ℕ) (hp : p ∈ acts.filterMap SvrAct.accepts) :
    ∃ before a during after svr₁ svr₂, acts = before ++ a :: (during ++ after) ∧ a.accepts = some p ∧
      Machine.exec WsServer.step .start (before ++ [a]) = some svr₁ ∧
      Machine.exec WsServer.step svr₁ during = some svr₂ ∧
      Machine.EachStep WsServer.step (fun svr _ => ¬Closed p svr.events) svr₁ during ∧
      (Closed p svr₂.events ∨ after = []) ∧ sentTo p svr.events = during.flatMap SvrAct.broadcasts := by
  have hinv := registryInv_exec hrun
  have hacc : p ∈ accepted svr.events := by
    have hacc : accepted svr.events = [] ++ acts.filterMap SvrAct.accepts := accepted_exec registryInv_start hrun
    rwa [hacc]
  obtain ⟨before, a, rest, u, v, rfl, hu, hbefore, hv, hpv, hrest⟩ :=
    Machine.exists_step_into (P := fun svr : WsServer => p ∈ accepted svr.events) List.not_mem_nil hacc hrun
  have hinvu := registryInv_exec hu
  have hinvv := hinvu.step hv
  have hstart : Machine.exec WsServer.step .start (before ++ [a]) = some v :=
    Machine.exec_append.mpr ⟨u, hu, Machine.exec_one hv⟩
  have hnotu : p ∉ accepted u.events := hbefore.last hu
  have haccepts : a.accepts = some p := by
    have hnew := accepted_step hinvu hv
    rw [hnew, List.mem_append] at hpv
    exact Option.mem_toList.mp (hpv.resolve_left hnotu)
  have hopen : ¬Closed p v.events := hinvu.accepts_open hnotu haccepts hv
  have hnone : sentTo p v.events = [] :=
    sentTo_exec_silent registryInv_start hstart fun as₁ b as₂ t he ht hl => hbefore as₁ b as₂ t he ht hl.1
  by_cases hclosed : Closed p svr.events
  · obtain ⟨during, b, after, w, x, rfl, hw, hduring, hx, hclosedx, hafter⟩ :=
      Machine.exists_step_into (P := fun svr : WsServer => Closed p svr.events) hopen hclosed hrest
    have hrunx : Machine.exec WsServer.step v (during ++ [b]) = some x :=
      Machine.exec_append.mpr ⟨w, hw, Machine.exec_one hx⟩
    have hinvx := Machine.exec_invariant RegistryInv (fun _ _ _ hi hs => hi.step hs) hinvv hrunx
    refine ⟨before, a, during ++ [b], after, v, x, by simp, haccepts, hstart, hrunx, hduring, Or.inl hclosedx, ?_⟩
    rw [sentTo_exec_closed hinvx hclosedx hafter, sentTo_exec_open hinvv hpv hrunx hduring, hnone, List.nil_append]
  · have hduring := Machine.eachStep_not (fun _ _ _ hi hs => RegistryInv.step hi hs)
      (fun _ _ _ hi hc hs => RegistryInv.closed_mono hi hc hs) hinvv hclosed hrest
    refine ⟨before, a, rest, [], v, svr, by simp, haccepts, hstart, hrest, hduring, Or.inr rfl, ?_⟩
    rw [sentTo_exec_open hinvv hpv hrest hduring, hnone, List.nil_append]

theorem broadcast_window_three :
    ∃ svr svr₁ svr₂, ∃ during after : List SvrAct, Machine.exec WsServer.step .start threeClients = some svr ∧
      Machine.exec WsServer.step svr₁ during = some svr₂ ∧ (Closed 3 svr₂.events ∨ after = []) ∧
      sentTo 3 svr.events = during.flatMap SvrAct.broadcasts ∧ sentTo 3 svr.events = [[97]] := by
  have hrun : (Machine.exec WsServer.step .start threeClients).map (fun svr => sentTo 3 svr.events) = some [[97]] := by
    decide
  obtain ⟨svr, hsvr, hsent⟩ := Option.map_eq_some_iff.mp hrun
  obtain ⟨_, _, during, after, svr₁, svr₂, _, _, _, hduring, _, hend, hall⟩ :=
    broadcast_window threeClients svr hsvr 3 (by decide)
  exact ⟨svr, svr₁, svr₂, during, after, hsvr, hduring, hend, hall, hsent⟩

end SrWebSocket
