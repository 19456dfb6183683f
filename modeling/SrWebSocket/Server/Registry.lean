import SrWebSocket.Server.ClientList

/-! # The registry of a server

Whatever the order of the calls, the vector holds the accepted clients that no tick
found closed. A tick that begins after a client closed drops its reference, and it
is the first such tick; what is called on a client afterwards is not the server's.
-/
namespace SrWebSocket
open Trace

/-- The calls that the server makes on the clients of its vector. -/
def CliCall.Touches : CliCall → Prop
  | .isClosed | .onTick | .send _ => True
  | .ref | .unref | .onClose => False

def Closed (p : ℕ) (events : List SvrEvent) : Prop := .call p .onClose ∈ events

instance (p : ℕ) (events : List SvrEvent) : Decidable (Closed p events) := inferInstanceAs (Decidable (_ ∈ _))

/-- A tick began after the client had closed. -/
def FoundClosed (p : ℕ) (events : List SvrEvent) : Prop := Before (.call p .onClose) .onBaseTimer events

instance (p : ℕ) (events : List SvrEvent) : Decidable (FoundClosed p events) := inferInstanceAs (Decidable (Before _ _ _))

/-- What holds in every state of a server. -/
structure RegistryInv (svr : WsServer) : Prop where
  flag : ∀ p, (svr.cli p).mbCloseFlag = true ↔ Closed p svr.events
  closed : ∀ p, Closed p svr.events → p ∈ accepted svr.events
  once : (accepted svr.events).Nodup
  order : svr.mvecClis = (accepted svr.events).filter fun p => ¬FoundClosed p svr.events
  released : ∀ p, svr.events.count (.call p .unref) = if FoundClosed p svr.events then 1 else 0
  untouched : ∀ p c, c.Touches → ¬Before (.call p .unref) (.call p c) svr.events
  unsent : ∀ p pData, ¬Before (.call p .onClose) (.call p (.send pData)) svr.events

variable {now : ℤ} {clock : ℕ → ℤ} {atOnce : ℕ → Bool} {pData : List UInt8} {p : ℕ} {svr svr' : WsServer} {evs : List SvrEvent}

theorem RegistryInv.nodup (h : RegistryInv svr) : svr.mvecClis.Nodup := by
  rw [h.order]
  exact h.once.filter _

theorem RegistryInv.mem_mvecClis (h : RegistryInv svr) :
    p ∈ svr.mvecClis ↔ p ∈ accepted svr.events ∧ ¬FoundClosed p svr.events := by
  rw [h.order]
  simp

theorem RegistryInv.unref_mem (h : RegistryInv svr) : .call p .unref ∈ svr.events ↔ FoundClosed p svr.events := by
  rw [← List.count_pos_iff, h.released p]
  split
  · simp_all
  · simp_all

theorem registryInv_start : RegistryInv .start where
  flag p := by simp [WsServer.start, Closed]
  closed p h := absurd h (by simp [WsServer.start, Closed])
  once := List.nodup_nil
  order := rfl
  released p := rfl
  untouched p c _ := not_before_nil
  unsent p pData := not_before_nil

/-! ## What a step adds to the trace -/

theorem foundClosed_append (ht : .onBaseTimer ∉ evs) : FoundClosed p (svr.events ++ evs) ↔ FoundClosed p svr.events := by
  unfold FoundClosed
  rw [before_append]
  constructor
  · rintro (h | ⟨_, hm⟩ | h)
    · exact h
    · exact absurd hm ht
    · exact absurd h.mem_right ht
  · exact Or.inl

/-- What a step other than a tick adds: calls on clients of the vector, references on
new clients, which join it, and the close of an accepted client. -/
structure Adds (svr svr' : WsServer) (evs : List SvrEvent) : Prop where
  events : svr'.events = svr.events ++ evs
  joined : svr'.mvecClis = svr.mvecClis ++ accepted evs
  noTick : .onBaseTimer ∉ evs
  noUnref : ∀ p, .call p .unref ∉ evs
  once : (accepted evs).Nodup
  fresh : ∀ p ∈ accepted evs, p ∉ accepted svr.events
  flag : ∀ p, (svr'.cli p).mbCloseFlag = true ↔ Closed p svr.events ∨ Closed p evs
  closes : ∀ p, Closed p evs → p ∈ accepted svr.events
  touches : ∀ p c, c.Touches → .call p c ∈ evs → p ∈ svr.mvecClis
  sends : ∀ p pData, .call p (.send pData) ∈ evs → ¬Closed p svr.events ∧ ¬Closed p evs

theorem Adds.accepted_eq (ha : Adds svr svr' evs) : accepted svr'.events = accepted svr.events ++ accepted evs := by
  rw [ha.events, accepted_append]

theorem RegistryInv.adds (h : RegistryInv svr) (ha : Adds svr svr' evs) : RegistryInv svr' := by
  have he := ha.events
  have hacc := ha.accepted_eq
  have hclosed (p : ℕ) : Closed p svr'.events ↔ Closed p svr.events ∨ Closed p evs := by
    rw [he]
    exact List.mem_append
  have hfound (p : ℕ) : FoundClosed p svr'.events ↔ FoundClosed p svr.events := by
    rw [he]
    exact foundClosed_append ha.noTick
  constructor
  · intro p
    rw [ha.flag, hclosed]
  · intro p hp
    rw [hacc]
    apply List.mem_append_left
    rcases (hclosed p).mp hp with hold | hlate
    · exact h.closed p hold
    · exact ha.closes p hlate
  · rw [hacc]
    exact List.nodup_append.mpr ⟨h.once, ha.once, fun p hp q hq heq => ha.fresh q hq (heq ▸ hp)⟩
  · have hkept : (accepted evs).filter (fun p => ¬FoundClosed p svr.events) = accepted evs :=
      List.filter_eq_self.mpr fun p hp => by simpa using fun hf => ha.fresh p hp (h.closed p hf.mem_left)
    simp only [hacc, ha.joined, hfound, List.filter_append, hkept, ← h.order]
  · intro p
    rw [he, List.count_append, List.count_eq_zero.mpr (ha.noUnref p), h.released p, Nat.add_zero, ← he]
    simp only [hfound]
  · intro p c hcall hb
    rw [he, before_append] at hb
    rcases hb with hb | ⟨hm, hm'⟩ | hb
    · exact h.untouched p c hcall hb
    · exact (h.mem_mvecClis.mp (ha.touches p c hcall hm')).2 (h.unref_mem.mp hm)
    · exact ha.noUnref p hb.mem_left
  · intro p pData hb
    rw [he, before_append] at hb
    rcases hb with hb | ⟨hm, hm'⟩ | hb
    · exact h.unsent p pData hb
    · exact (ha.sends p pData hm').1 hm
    · exact (ha.sends p pData hb.mem_right).2 hb.mem_left

theorem singleton_call {p q : ℕ} {c c' : CliCall} (h : .call q c ∈ [SvrEvent.call p c']) : q = p ∧ c = c' :=
  SvrEvent.call.inj (List.mem_singleton.mp h)

theorem RegistryInv.adds_ref (h : RegistryInv svr) (hp : p ∉ accepted svr.events) (tcp : ℕ) :
    Adds svr (svr.addCli now (some tcp) (some p)).1 [.call p .ref] where
  events := rfl
  joined := rfl
  noTick := by simp
  noUnref := by simp
  once := List.nodup_singleton p
  fresh := List.forall_mem_singleton.mpr hp
  flag q := by
    rcases eq_or_ne q p with rfl | hne
    · have hopen : .call q .onClose ∉ svr.events := fun hc => hp (h.closed q hc)
      simp [WsServer.addCli, Closed, hopen]
    · simp [WsServer.addCli, Closed, hne, h.flag]
  closes q hq := by cases (singleton_call hq).2
  touches q c hc hq := by
    obtain ⟨_, rfl⟩ := singleton_call hq
    exact hc.elim
  sends q pData hq := by cases (singleton_call hq).2

theorem RegistryInv.addCli (h : RegistryInv svr) {pUvTcp pCli : Option ℕ} (hp : ∀ p ∈ pCli, p ∉ accepted svr.events) :
    RegistryInv (svr.addCli now pUvTcp pCli).1 := by
  cases pUvTcp with
  | none => exact h
  | some tcp =>
    cases pCli with
    | none => exact h
    | some p => exact h.adds (h.adds_ref (hp p rfl) tcp)

theorem RegistryInv.adds_onClose (h : RegistryInv svr) (hp : p ∈ accepted svr.events) :
    Adds svr (svr.onClose p) [.call p .onClose] where
  events := rfl
  joined := (List.append_nil _).symm
  noTick := by simp
  noUnref := by simp
  once := List.nodup_nil
  fresh q hq := absurd hq List.not_mem_nil
  flag q := by
    rcases eq_or_ne q p with rfl | hne
    · simp [WsServer.onClose, Closed]
    · simp [WsServer.onClose, Closed, hne, h.flag]
  closes q hq := by
    rw [(singleton_call hq).1]
    exact hp
  touches q c hc hq := by
    obtain ⟨_, rfl⟩ := singleton_call hq
    exact hc.elim
  sends q pData hq := by cases (singleton_call hq).2

theorem RegistryInv.adds_nothing (h : RegistryInv svr) : Adds svr (svr.active now p) [] where
  events := (List.append_nil _).symm
  joined := (List.append_nil _).symm
  noTick := List.not_mem_nil
  noUnref q := List.not_mem_nil
  once := List.nodup_nil
  fresh q hq := absurd hq List.not_mem_nil
  flag q := by
    rcases eq_or_ne q p with rfl | hne
    · simp [WsServer.active, Closed, h.flag]
    · simp [WsServer.active, Closed, hne, h.flag]
  closes q hq := absurd hq List.not_mem_nil
  touches q c hc hq := absurd hq List.not_mem_nil
  sends q pData hq := absurd hq List.not_mem_nil

theorem mem_sendCalls {c : CliCall} {cli : CliStatus} (h : c ∈ sendCalls pData cli) :
    c = .isClosed ∨ (c = .send pData ∧ cli.mbCloseFlag = false) := by
  unfold sendCalls at h
  split at h
  · exact Or.inl (List.mem_singleton.mp h)
  · rename_i hflag
    simpa [hflag] using h

theorem sendCalls_noRef (p : ℕ) : .ref ∉ sendCalls pData (svr.cli p) := by
  intro hm
  rcases mem_sendCalls hm with hc | ⟨hc, _⟩
  · cases hc
  · cases hc

theorem RegistryInv.adds_sends (h : RegistryInv svr) :
    Adds svr (svr.broadCast pData) (visitCalls (fun p => sendCalls pData (svr.cli p)) svr.mvecClis) := by
  have honly (p : ℕ) (c : CliCall) (hc : c ≠ .isClosed) (hs : ∀ d, c ≠ .send d) :
      .call p c ∉ visitCalls (fun p => sendCalls pData (svr.cli p)) svr.mvecClis := by
    intro hm
    rcases mem_sendCalls (mem_visitCalls.mp hm).2 with rfl | ⟨rfl, _⟩
    · exact hc rfl
    · exact hs pData rfl
  have hclose (p : ℕ) : ¬Closed p (visitCalls (fun p => sendCalls pData (svr.cli p)) svr.mvecClis) :=
    honly p .onClose (by simp) (by simp)
  have hacc : accepted (visitCalls (fun p => sendCalls pData (svr.cli p)) svr.mvecClis) = [] :=
    accepted_visitCalls sendCalls_noRef
  rw [broadCast_eq h.nodup]
  exact {
    events := rfl
    joined := by
      rw [hacc, List.append_nil]
      rfl
    noTick := onBaseTimer_notMem_visitCalls
    noUnref := fun p => honly p .unref (by simp) (by simp)
    once := hacc ▸ List.nodup_nil
    fresh := by simp [hacc]
    flag := fun p => by simp [WsServer.visit, hclose, h.flag]
    closes := fun p hp => absurd hp (hclose p)
    touches := fun p c _ hm => (mem_visitCalls.mp hm).1
    sends := fun p d hm => by
      rcases mem_sendCalls (mem_visitCalls.mp hm).2 with hc | ⟨_, hopen⟩
      · cases hc
      · exact ⟨fun hclosed => absurd ((h.flag p).mpr hclosed) (by simp [hopen]), hclose p⟩ }

/-! ## A tick -/

def WsServer.tickVisits (clock : ℕ → ℤ) (atOnce : ℕ → Bool) (svr : WsServer) : List SvrEvent :=
  visitCalls (fun p => tickCalls (clock p) (atOnce p) (svr.cli p)) svr.mvecClis

/-- The server after a tick. -/
def WsServer.ticked (clock : ℕ → ℤ) (atOnce : ℕ → Bool) (svr : WsServer) : WsServer :=
  (svr.note .onBaseTimer).walked clock atOnce svr.mvecClis []

theorem ticked_events : (svr.ticked clock atOnce).events = svr.events ++ .onBaseTimer :: svr.tickVisits clock atOnce :=
  (List.append_cons _ _ _).symm

theorem ticked_mvecClis : (svr.ticked clock atOnce).mvecClis = svr.mvecClis.filter fun p => !(svr.cli p).mbCloseFlag :=
  List.append_nil _

theorem ticked_cli : (svr.ticked clock atOnce).cli p =
    if p ∈ svr.mvecClis then (svr.cli p).ticked (clock p) (atOnce p) else svr.cli p := rfl

theorem count_unref_tickCalls (b : Bool) (cli : CliStatus) :
    (tickCalls now b cli).count .unref = if cli.mbCloseFlag then 1 else 0 := by
  unfold tickCalls
  split
  · rfl
  · split <;> rfl

theorem count_onTick_tickCalls (b : Bool) (cli : CliStatus) :
    (tickCalls now b cli).count .onTick = if cli.mbCloseFlag then 0 else 1 := by
  unfold tickCalls
  split
  · rfl
  · split <;> rfl

theorem onClose_mem_tickCalls (b : Bool) (cli : CliStatus) :
    .onClose ∈ tickCalls now b cli ↔ cli.mbCloseFlag = false ∧ cli.TimedOut now ∧ b := by
  unfold tickCalls
  split
  · simp_all
  · split <;> simp_all

/-- Nothing follows the drop of a reference, and the walk takes none and sends nothing. -/
theorem tickCalls_quiet (b : Bool) (cli : CliStatus) :
    .ref ∉ tickCalls now b cli ∧ (∀ d, .send d ∉ tickCalls now b cli) ∧ ∀ c, ¬Before .unref c (tickCalls now b cli) := by
  unfold tickCalls
  split
  · simp [before_cons]
  · split <;> simp [before_cons]

theorem mem_ticked {c : CliCall} : .call p c ∈ (svr.ticked clock atOnce).events ↔
    .call p c ∈ svr.events ∨ .call p c ∈ svr.tickVisits clock atOnce := by
  rw [ticked_events, List.mem_append, List.mem_cons]
  exact or_congr_right (or_iff_right (by simp))

theorem before_ticked {c c' : CliCall} : Before (.call p c) (.call p c') (svr.ticked clock atOnce).events ↔
    Before (.call p c) (.call p c') svr.events ∨ (.call p c ∈ svr.events ∧ .call p c' ∈ svr.tickVisits clock atOnce) ∨
      Before (.call p c) (.call p c') (svr.tickVisits clock atOnce) := by
  rw [ticked_events, before_append, before_cons]
  simp

theorem ticked_closed (h : RegistryInv svr) : Closed p (svr.ticked clock atOnce).events ↔
    ((svr.ticked clock atOnce).cli p).mbCloseFlag = true := by
  have hflag : .call p .onClose ∈ svr.events ↔ (svr.cli p).mbCloseFlag = true := (h.flag p).symm
  rw [Closed, mem_ticked, hflag, WsServer.tickVisits, mem_visitCalls, onClose_mem_tickCalls, ticked_cli]
  by_cases hp : p ∈ svr.mvecClis
  · rw [if_pos hp, and_iff_right hp, CliStatus.ticked]
    split
    · simp_all
    · simp_all
  · rw [if_neg hp, or_iff_left fun hm => hp hm.1]

theorem ticked_foundClosed : FoundClosed p (svr.ticked clock atOnce).events ↔ Closed p svr.events := by
  rw [ticked_events, FoundClosed, before_append, before_cons]
  constructor
  · rintro (hb | ⟨hm, _⟩ | ⟨he, _⟩ | hb)
    · exact hb.mem_left
    · exact hm
    · cases he
    · exact absurd hb.mem_right onBaseTimer_notMem_visitCalls
  · exact fun hc => Or.inr (Or.inl ⟨hc, by simp⟩)

theorem ticked_accepted : accepted (svr.ticked clock atOnce).events = accepted svr.events := by
  have hquiet : accepted (svr.tickVisits clock atOnce) = [] := accepted_visitCalls fun p => (tickCalls_quiet _ _).1
  have hnone : accepted (.onBaseTimer :: svr.tickVisits clock atOnce) = [] := hquiet
  rw [ticked_events, accepted_append, hnone, List.append_nil]

theorem RegistryInv.ticked_order (h : RegistryInv svr) :
    (svr.ticked clock atOnce).mvecClis = (accepted svr.events).filter fun p => ¬Closed p svr.events := by
  rw [ticked_mvecClis, h.order, List.filter_filter]
  apply List.filter_congr
  intro p _
  rw [Bool.eq_iff_iff]
  simp only [Bool.and_eq_true, Bool.not_eq_true', decide_eq_true_eq, ← h.flag, Bool.not_eq_true]
  exact and_iff_left_of_imp fun hopen hfound => absurd ((h.flag p).mpr hfound.mem_left) (by simp [hopen])

/-- A client that was found closed has no reference left; any other that closed is in
the vector and loses its reference now. -/
theorem RegistryInv.ticked_released (h : RegistryInv svr) (p : ℕ) :
    (svr.ticked clock atOnce).events.count (.call p .unref) = if Closed p svr.events then 1 else 0 := by
  rw [ticked_events, List.count_append, h.released, List.count_cons_of_ne (by simp), WsServer.tickVisits,
    count_visitCalls h.nodup, count_unref_tickCalls]
  by_cases hfound : FoundClosed p svr.events
  · have hclosed : Closed p svr.events := hfound.mem_left
    rw [if_pos hfound, if_neg fun hp => (h.mem_mvecClis.mp hp).2 hfound, if_pos hclosed]
  · rw [if_neg hfound, Nat.zero_add]
    by_cases hclosed : Closed p svr.events
    · rw [if_pos (h.mem_mvecClis.mpr ⟨h.closed p hclosed, hfound⟩), if_pos hclosed, if_pos ((h.flag p).mpr hclosed)]
    · rw [if_neg hclosed, if_neg (mt (h.flag p).mp hclosed), ite_self]

theorem RegistryInv.ticked (h : RegistryInv svr) : RegistryInv (svr.ticked clock atOnce) where
  flag p := (ticked_closed h).symm
  closed p hp := by
    rw [ticked_accepted]
    rcases mem_ticked.mp hp with hold | hnew
    · exact h.closed p hold
    · exact (h.mem_mvecClis.mp (mem_visitCalls.mp hnew).1).1
  once := by
    rw [ticked_accepted]
    exact h.once
  order := by
    simp only [ticked_accepted, ticked_foundClosed]
    exact h.ticked_order
  released p := by
    simp only [ticked_foundClosed]
    exact h.ticked_released p
  untouched p c hc hb := by
    rcases before_ticked.mp hb with hold | ⟨hm, hm'⟩ | hnew
    · exact h.untouched p c hc hold
    · exact (h.mem_mvecClis.mp (mem_visitCalls.mp hm').1).2 (h.unref_mem.mp hm)
    · exact (tickCalls_quiet _ _).2.2 c ((before_visitCalls h.nodup).mp hnew).2
  unsent p pData hb := by
    have hnone : .call p (.send pData) ∉ svr.tickVisits clock atOnce := fun hm =>
      (tickCalls_quiet _ _).2.1 pData (mem_visitCalls.mp hm).2
    rcases before_ticked.mp hb with hold | ⟨_, hm⟩ | hnew
    · exact h.unsent p pData hold
    · exact hnone hm
    · exact hnone hnew.mem_right

/-! ## Runs -/

variable {a : SvrAct} {acts : List SvrAct}

theorem RegistryInv.onBaseTimer_eq (h : RegistryInv svr) : svr.onBaseTimer clock atOnce = some (svr.ticked clock atOnce) :=
  SrWebSocket.onBaseTimer_eq h.nodup

theorem RegistryInv.step (h : RegistryInv svr) (hs : svr.step a = some svr') : RegistryInv svr' := by
  cases a with
  | addCli now pUvTcp pCli =>
    obtain ⟨hnew, he⟩ := Option.ite_none_right_eq_some.mp hs
    exact Option.some.inj he ▸ h.addCli hnew
  | onClose p =>
    obtain ⟨hp, he⟩ := Option.ite_none_right_eq_some.mp hs
    exact Option.some.inj he ▸ h.adds (h.adds_onClose hp)
  | active now p =>
    obtain ⟨_, he⟩ := Option.ite_none_right_eq_some.mp hs
    exact Option.some.inj he ▸ h.adds h.adds_nothing
  | onBaseTimer clock atOnce => exact Option.some.inj (h.onBaseTimer_eq.symm.trans hs) ▸ h.ticked
  | broadCast pData => exact Option.some.inj hs ▸ h.adds h.adds_sends

theorem registryInv_exec (h : Machine.exec WsServer.step .start acts = some svr) : RegistryInv svr :=
  Machine.exec_invariant RegistryInv (fun _ _ _ hi hs => hi.step hs) registryInv_start h

/-- The client that an action puts into the vector. -/
def SvrAct.accepts : SvrAct → Option ℕ
  | .addCli _ (some _) pCli => pCli
  | _ => none

theorem accepted_step (h : RegistryInv svr) (hs : svr.step a = some svr') :
    accepted svr'.events = accepted svr.events ++ a.accepts.toList := by
  cases a with
  | addCli now pUvTcp pCli =>
    obtain ⟨_, he⟩ := Option.ite_none_right_eq_some.mp hs
    cases Option.some.inj he
    cases pUvTcp with
    | none => exact (List.append_nil _).symm
    | some tcp =>
      cases pCli with
      | none => exact (List.append_nil _).symm
      | some p => exact accepted_append _ _
  | onClose p =>
    obtain ⟨_, he⟩ := Option.ite_none_right_eq_some.mp hs
    cases Option.some.inj he
    exact accepted_append _ _
  | active now p =>
    obtain ⟨_, he⟩ := Option.ite_none_right_eq_some.mp hs
    cases Option.some.inj he
    exact (List.append_nil _).symm
  | onBaseTimer clock atOnce =>
    cases h.onBaseTimer_eq.symm.trans hs
    exact ticked_accepted.trans (List.append_nil _).symm
  | broadCast pData =>
    cases Option.some.inj hs
    exact h.adds_sends.accepted_eq.trans (congrArg _ (accepted_visitCalls sendCalls_noRef))

theorem accepted_exec (h : RegistryInv svr) (hrun : Machine.exec WsServer.step svr acts = some svr') :
    accepted svr'.events = accepted svr.events ++ acts.filterMap SvrAct.accepts := by
  induction acts generalizing svr with
  | nil =>
    cases hrun
    simp
  | cons a acts ih =>
    obtain ⟨u, hu, hrun⟩ := Machine.exec_cons_eq_some.mp hrun
    rw [ih (h.step hu) hrun, accepted_step h hu, List.append_assoc]
    cases ha : a.accepts with
    | none => simp [ha]
    | some p => simp [ha]

/-- A tick ends. It calls `OnTick` once on every open client and on no other, and it
drops the references of those that closed since the tick before. -/
def TickExact (svr : WsServer) : Prop :=
  ∀ clock atOnce, ∃ svr' evs, svr.onBaseTimer clock atOnce = some svr' ∧
    svr'.events = svr.events ++ .onBaseTimer :: evs ∧ ∀ p,
      evs.count (.call p .onTick) = (if p ∈ accepted svr.events ∧ ¬Closed p svr.events then 1 else 0) ∧
      evs.count (.call p .unref) = if Closed p svr.events ∧ ¬FoundClosed p svr.events then 1 else 0

theorem RegistryInv.tickExact (h : RegistryInv svr) : TickExact svr := by
  intro clock atOnce
  refine ⟨_, _, h.onBaseTimer_eq, ticked_events, fun p => ⟨?_, ?_⟩⟩
  · rw [WsServer.tickVisits, count_visitCalls h.nodup, count_onTick_tickCalls]
    simp only [h.flag, h.mem_mvecClis]
    by_cases hclosed : Closed p svr.events
    · simp [hclosed]
    · have hfound : ¬FoundClosed p svr.events := fun hf => hclosed hf.mem_left
      simp [hclosed, hfound]
  · rw [WsServer.tickVisits, count_visitCalls h.nodup, count_unref_tickCalls]
    simp only [h.flag, h.mem_mvecClis]
    by_cases hclosed : Closed p svr.events
    · simp [hclosed, h.closed p hclosed]
    · simp [hclosed]

/-- In every run the vector holds the accepted clients in their order but for those
that a tick found closed, ticks are exact and each reference is dropped once, and no
client is looked at after its reference was dropped or sent to after it closed. -/
theorem registry_exact (acts : List SvrAct) (svr : WsServer)
    (hrun : Machine.exec WsServer.step .start acts = some svr) :
    (svr.mvecClis = (acts.filterMap SvrAct.accepts).filter (fun p => ¬FoundClosed p svr.events) ∧ svr.mvecClis.Nodup) ∧
    ((∀ p, svr.events.count (.call p .unref) = if FoundClosed p svr.events then 1 else 0) ∧ TickExact svr) ∧
    (∀ p c, CliCall.Touches c → ¬Before (.call p .unref) (.call p c) svr.events) ∧
    ∀ p pData, ¬Before (.call p .onClose) (.call p (.send pData)) svr.events := by
  have h := registryInv_exec hrun
  have hacc : accepted svr.events = acts.filterMap SvrAct.accepts := accepted_exec registryInv_start hrun
  exact ⟨⟨hacc ▸ h.order, h.nodup⟩, ⟨h.released, h.tickExact⟩, h.untouched, h.unsent⟩

/-- Two neighbours close before the first tick, and the second tick closes the third. -/
def threeClients : List SvrAct :=
  [.addCli 0 (some 0) (some 1), .addCli 0 (some 0) (some 2), .addCli 0 (some 0) (some 3), .addCli 900 (some 0) (some 4),
    .onClose 1, .onClose 2, .onBaseTimer (fun _ => 1000) fun _ => true, .broadCast [97],
    .onBaseTimer (fun _ => 1001) fun _ => true,
    .broadCast [98], .onBaseTimer (fun _ => 1002) fun _ => true]

theorem registry_exact_threeClients :
    ∃ svr, Machine.exec WsServer.step .start threeClients = some svr ∧ svr.mvecClis = [4] ∧
      svr.mvecClis = (threeClients.filterMap SvrAct.accepts).filter (fun p => ¬FoundClosed p svr.events) ∧
      svr.events.count (.call 3 .unref) = (if FoundClosed 3 svr.events then 1 else 0) ∧
      ¬Before (.call 3 .onClose) (.call 3 (.send [98])) svr.events := by
  have hrun : (Machine.exec WsServer.step .start threeClients).map (fun svr => svr.mvecClis) = some [4] := by decide
  obtain ⟨svr, hsvr, hclis⟩ := Option.map_eq_some_iff.mp hrun
  obtain ⟨⟨horder, _⟩, ⟨hreleased, _⟩, _, hunsent⟩ := registry_exact threeClients svr hsvr
  exact ⟨svr, hsvr, hclis, horder, hreleased 3, hunsent 3 [98]⟩

end SrWebSocket
