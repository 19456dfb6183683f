import SrWebSocket.Server.Dispatch

/-! # The life of the handler manager

`Init` registers the three handlers and `UnInit` only clears the flag: the handlers
stay in the map, and their names are taken when `Init` comes again. So a manager that
was taken down once never gets ready again, and refuses every message.
-/
namespace SrWebSocket

/-- A `CWsHandlerMgr`, and how many handlers it has allocated. -/
structure HandlerMgr where
  mmapHandlers : List (List UInt8 × Handler)
  mbInit : Bool
  created : ℕ

def HandlerMgr.new : HandlerMgr where
  mmapHandlers := []
  mbInit := false
  created := 0

/-- `insert` of a new handler; the handler is lost when the name is taken. -/
def HandlerMgr.insert (mgr : HandlerMgr) (name : List UInt8) (h : Handler) : HandlerMgr × Bool :=
  if (mgr.mmapHandlers.lookup name).isSome then ({ mgr with created := mgr.created + 1 }, false)
  else ({ mgr with mmapHandlers := mgr.mmapHandlers ++ [(name, h)], created := mgr.created + 1 }, true)

def HandlerMgr.init (mgr : HandlerMgr) : HandlerMgr × ℤ :=
  if mgr.mbInit then (mgr, 0)
  else
    match mgr.insert fieldGet .get with
    | (mgr, false) => (mgr, 1)
    | (mgr, true) =>
      match mgr.insert fieldWebsocketKey .upgrade with
      | (mgr, false) => (mgr, 1)
      | (mgr, true) =>
        match mgr.insert wsProtocolEcho .echo with
        | (mgr, false) => (mgr, 1)
        | (mgr, true) => ({ mgr with mbInit := true }, 0)

def HandlerMgr.unInit (mgr : HandlerMgr) : HandlerMgr := { mgr with mbInit := false }

def HandlerMgr.getHandler (mgr : HandlerMgr) (strProtocol : List UInt8) : Option Handler :=
  if mgr.mbInit then mgr.mmapHandlers.lookup strProtocol else none

/-- `ProcMsg`, none when it is left at once, without a `delete`. -/
def HandlerMgr.procMsg (env : Env) (s : Scratch) (mgr : HandlerMgr) (pMsg : CWsMsg) : Option ProcExit :=
  if mgr.mbInit then
    if pMsg.mpMsg.all fun m => IsData m then
      match mgr.getHandler pMsg.mstrProtocol with
      | none => some .noHandler
      | some h =>
        match h.procMsg env s pMsg with
        | .undefined => some (.undefined h)
        | .returns none _ => some (.nullResult h)
        | .returns (some pResult) setProtocol => some (.handled h pResult setProtocol)
    else some .dropped
  else none

inductive MgrAct where
  | init
  | unInit
deriving DecidableEq

def HandlerMgr.step (mgr : HandlerMgr) : MgrAct → HandlerMgr
  | .init => mgr.init.1
  | .unInit => mgr.unInit

/-- `Init` was called, and the manager has not been taken down since it was first called. -/
def KeptUp (acts : List MgrAct) : Prop := ∃ before after, acts = before ++ .init :: after ∧ .init ∉ before ∧ .unInit ∉ after

variable {env : Env} {s : Scratch} {mgr : HandlerMgr} {acts before after : List MgrAct} {pMsg : CWsMsg}

/-- After its first `Init`. -/
def HandlerMgr.up : HandlerMgr where
  mmapHandlers := SrWebSocket.mmapHandlers
  mbInit := true
  created := 3

/-- After an `UnInit` and some more calls of `Init`. -/
def HandlerMgr.down (failed : ℕ) : HandlerMgr where
  mmapHandlers := SrWebSocket.mmapHandlers
  mbInit := false
  created := 3 + failed

/-- The name of the first handler is taken. -/
theorem init_down (failed : ℕ) : (HandlerMgr.down failed).init = (.down (failed + 1), 1) := rfl

theorem foldl_new (h : .init ∉ acts) : acts.foldl HandlerMgr.step .new = .new := by
  induction acts with
  | nil => rfl
  | cons a acts ih =>
    cases a with
    | init => exact absurd List.mem_cons_self h
    | unInit => exact ih fun hm => h (List.mem_cons_of_mem _ hm)

theorem foldl_up (h : .unInit ∉ acts) : acts.foldl HandlerMgr.step .up = .up := by
  induction acts with
  | nil => rfl
  | cons a acts ih =>
    cases a with
    | init => exact ih fun hm => h (List.mem_cons_of_mem _ hm)
    | unInit => exact absurd List.mem_cons_self h

theorem foldl_down (failed : ℕ) : acts.foldl HandlerMgr.step (.down failed) = .down (failed + acts.count .init) := by
  induction acts generalizing failed with
  | nil => rfl
  | cons a acts ih =>
    cases a with
    | init =>
      rw [List.count_cons_self]
      exact (ih (failed + 1)).trans (congrArg HandlerMgr.down (by omega))
    | unInit =>
      rw [List.count_cons_of_ne (by decide)]
      exact ih failed

theorem KeptUp.foldl (h : KeptUp acts) : acts.foldl HandlerMgr.step .new = .up := by
  obtain ⟨before, after, rfl, hbefore, hafter⟩ := h
  rw [List.foldl_append, foldl_new hbefore]
  exact foldl_up hafter

/-- The three stages of a manager. -/
theorem handlerMgr_cases (acts : List MgrAct) :
    (.init ∉ acts ∧ acts.foldl HandlerMgr.step .new = .new) ∨ (KeptUp acts ∧ acts.foldl HandlerMgr.step .new = .up) ∨
      ∃ failed, .init ∈ acts ∧ acts.foldl HandlerMgr.step .new = .down failed := by
  by_cases hinit : .init ∈ acts
  · obtain ⟨before, after, rfl, hbefore⟩ := List.eq_append_cons_of_mem hinit
    by_cases hdown : .unInit ∈ after
    · obtain ⟨kept, later, rfl, hkept⟩ := List.eq_append_cons_of_mem hdown
      refine Or.inr (Or.inr ⟨0 + later.count .init, hinit, ?_⟩)
      have hstep : HandlerMgr.new.step .init = .up := rfl
      rw [List.foldl_append, foldl_new hbefore, ← foldl_down, List.foldl_cons, hstep, List.foldl_append, foldl_up hkept]
      rfl
    · have hkept : KeptUp (before ++ .init :: after) := ⟨before, after, rfl, hbefore, hdown⟩
      exact Or.inr (Or.inl ⟨hkept, hkept.foldl⟩)
  · exact Or.inl ⟨hinit, foldl_new hinit⟩

theorem getHandler_up (strProtocol : List UInt8) : HandlerMgr.up.getHandler strProtocol = getHandler strProtocol := rfl

theorem procMsg_up (env : Env) (s : Scratch) (pMsg : CWsMsg) :
    HandlerMgr.up.procMsg env s pMsg = some (handlerMgrProcMsg env s pMsg) := by
  rw [HandlerMgr.procMsg, if_pos (by rfl), handlerMgrProcMsg]
  by_cases hdata : (pMsg.mpMsg.all fun m => IsData m) = true
  · rw [if_pos hdata, if_pos hdata, getHandler_up]
    cases getHandler pMsg.mstrProtocol with
    | none => rfl
    | some h =>
      dsimp only
      cases h.procMsg env s pMsg with
      | undefined => rfl
      | returns pRet setProtocol => cases pRet <;> rfl
  · rw [if_neg hdata, if_neg hdata]

/-- Whatever was called on a manager before, it handles messages, and as the server's
connections need it, exactly when `Init` was called and no `UnInit` after the first such
call; otherwise it refuses every message, and once taken down it does so for good while
each further `Init` fails and loses a handler. -/
theorem handlerMgr_exact (acts : List MgrAct) (env : Env) (s : Scratch) (pMsg : CWsMsg) :
    (acts.foldl HandlerMgr.step .new).procMsg env s pMsg =
        (if (acts.foldl HandlerMgr.step .new).mbInit then some (handlerMgrProcMsg env s pMsg) else none) ∧
      ((acts.foldl HandlerMgr.step .new).mbInit = true ↔ KeptUp acts) ∧
      (.init ∈ acts → ¬KeptUp acts → (acts.foldl HandlerMgr.step .new).init.2 = 1 ∧
        ∀ later, ((acts ++ later).foldl HandlerMgr.step .new).mbInit = false ∧
          ((acts ++ later).foldl HandlerMgr.step .new).created =
            (acts.foldl HandlerMgr.step .new).created + later.count .init) := by
  rcases handlerMgr_cases acts with ⟨hinit, hnew⟩ | ⟨hkept, hup⟩ | ⟨failed, hinit, hdown⟩
  · refine ⟨?_, ?_, fun hmem => absurd hmem hinit⟩
    · rw [hnew]
      rfl
    · rw [hnew]
      refine iff_of_false (by decide) ?_
      rintro ⟨before, after, rfl, _, _⟩
      exact hinit (by simp)
  · refine ⟨?_, ?_, fun _ hnot => absurd hkept hnot⟩
    · rw [hup]
      exact procMsg_up env s pMsg
    · rw [hup]
      exact iff_of_true rfl hkept
  · have hflag : (acts.foldl HandlerMgr.step .new).mbInit = false := by rw [hdown]; rfl
    refine ⟨?_, ?_, fun _ _ => ⟨?_, fun later => ?_⟩⟩
    · rw [hdown]
      rfl
    · rw [hflag]
      refine iff_of_false (by decide) fun hkept => ?_
      rw [hkept.foldl] at hflag
      cases hflag
    · rw [hdown, init_down]
    · rw [List.foldl_append, hdown, foldl_down]
      exact ⟨rfl, (Nat.add_assoc _ _ _).symm⟩

/-! ## The manager above it -/

/-- A `CWsMgr`, with the handler manager. -/
structure WsMgr where
  mbInit : Bool
  handlers : HandlerMgr

def WsMgr.new : WsMgr where
  mbInit := false
  handlers := .new

/-- `UnInit` does not reach the handler manager. -/
def WsMgr.step (mgr : WsMgr) : MgrAct → WsMgr
  | .init => if mgr.mbInit then mgr else { mbInit := true, handlers := mgr.handlers.init.1 }
  | .unInit => { mgr with mbInit := false }

theorem wsMgr_up (mgr : WsMgr) (h : mgr.handlers = .up) (acts : List MgrAct) :
    (acts.foldl WsMgr.step mgr).handlers = .up := by
  induction acts generalizing mgr with
  | nil => exact h
  | cons a acts ih =>
    apply ih
    cases a with
    | init =>
      rw [WsMgr.step]
      split
      · exact h
      · exact congrArg (fun mgr => (HandlerMgr.init mgr).1) h
    | unInit => exact h

/-- Whatever is called on the manager above, the handlers are ready from its first `Init` on. -/
theorem wsMgr_handlers (acts : List MgrAct) :
    (acts.foldl WsMgr.step .new).handlers = if .init ∈ acts then .up else .new := by
  have hwait (mgr : WsMgr) (h : mgr = .new) : (acts.foldl WsMgr.step mgr).handlers = if .init ∈ acts then .up else .new := by
    induction acts generalizing mgr with
    | nil => rw [h]; rfl
    | cons a acts ih =>
      subst h
      cases a with
      | init =>
        rw [if_pos List.mem_cons_self]
        exact wsMgr_up _ rfl acts
      | unInit =>
        have hmem : .init ∈ MgrAct.unInit :: acts ↔ .init ∈ acts := by simp
        rw [if_congr hmem rfl rfl]
        exact ih _ rfl
  exact hwait .new rfl

end SrWebSocket
