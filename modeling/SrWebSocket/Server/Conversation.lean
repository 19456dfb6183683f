import SrWebSocket.Server.Arrivals

/-! # A connection from its first byte on

Before the upgrade each `ProcMsg` takes all that was pushed since the one before for one
HTTP request, whatever requests there were. So the handler calls of a connection are
told by the chunks that it was given, with some of them joined: the texts, one of which
is the request for the upgrade, and then what the decoder is fed.
-/
namespace SrWebSocket

/-- The handler calls for texts that do not ask for an upgrade. -/
def pagesFor (env : Env) (texts : List (List UInt8)) : List Event :=
  (texts.filter fun text => IsGet text).map fun _ => pageEvent env

/-- No GET request among the texts has a key. -/
def Plain (texts : List (List UInt8)) : Prop := ∀ text ∈ texts, IsGet text → ¬HasKey text

/-- What a connection that was given the chunks `pushes` has come to. -/
inductive Conversation (env : Env) (pushes : List (List UInt8)) (c : Conn) : Prop
  | requests (texts left : List (List UInt8)) (hstate : c.miState = .none) (halive : c.fault = none)
      (hjoin : Joined pushes texts left) (hbuf : c.mpRecvBuffer = left.flatten) (hplain : Plain texts)
      (hev : c.events = pagesFor env texts)
  /-- the last text asked for an upgrade and the handler had no response -/
  | failed (texts : List (List UInt8)) (request : List UInt8) (stack : ℤ → UInt8) (hstate : c.miState = .none)
      (hfault : c.fault ≠ none)
      (hjoin : Joined pushes (texts ++ [request]) []) (hplain : Plain texts) (hreq : IsGet request ∧ HasKey request)
      (hret : ∀ pResult p, upgradeProcMsg env.toBaseLibrary stack request ≠ .returns (some pResult) p)
      (hev : c.events = pagesFor env texts ++ [⟨.none, .upgrade, none⟩])
  | upgraded (texts : List (List UInt8)) (request pResult : List UInt8) (stack : ℤ → UInt8)
      (before later : List (List UInt8)) (hpushes : pushes = before ++ later) (hjoin : Joined before (texts ++ [request]) [])
      (hplain : Plain texts) (hreq : IsGet request ∧ HasKey request)
      (hret : upgradeProcMsg env.toBaseLibrary stack request = .returns (some pResult) (some c.mstrProtocol))
      (hstreams : Streams env c.mstrProtocol
        (pagesFor env texts ++ [⟨.none, .upgrade, if pResult ≠ [] then some pResult else none⟩]) later c)

variable {env : Env} {c c' : Conn} {a : ConnAct} {acts : List ConnAct} {texts pushes left : List (List UInt8)} {s : Scratch}

theorem Plain.append (h : Plain texts) {text : List UInt8} (ht : IsGet text → ¬HasKey text) : Plain (texts ++ [text]) :=
  List.forall_mem_append.mpr ⟨h, List.forall_mem_singleton.mpr ht⟩

theorem pagesFor_get {text : List UInt8} (h : IsGet text) : pagesFor env (texts ++ [text]) = pagesFor env texts ++ [pageEvent env] := by
  simp [pagesFor, h]

theorem pagesFor_other {text : List UInt8} (h : ¬IsGet text) : pagesFor env (texts ++ [text]) = pagesFor env texts := by
  simp [pagesFor, h]

/-- A text before the upgrade. -/
theorem Conversation.proc (hrun : Machine.exec (Conn.step env) .start acts = some c) (hinv : ConnInv c)
    (hstate : c.miState = .none) (halive : c.fault = none) (hjoin : Joined pushes texts left)
    (hbuf : c.mpRecvBuffer = left.flatten) (hplain : Plain texts) (hev : c.events = pagesFor env texts)
    (hs : c.step env (.proc s) = some c') : Conversation env pushes c' := by
  have harrived : c.arrived = left.flatten := by
    rw [Conn.arrived, (hinv.waiting hstate).1, hbuf]
    rfl
  have hproc : c' = _ := (step_proc.mp hs).2.trans (Conn.procMsg_none hinv hstate)
  have hmove := hjoin.move
  rw [← harrived] at hmove
  have hrecv : c'.mpRecvBuffer = [].flatten := by rw [hproc]; rfl
  by_cases hget : IsGet c.arrived
  · have hsession : c'.toSession = c.reply env s (requestMsg c.arrived) := by
      rw [hproc]
      exact if_pos hget
    have hresult : RequestResult env s.stack c.arrived c.toSession (c.reply env s (requestMsg c.arrived)) :=
      Conn.reply_request hstate halive s c.arrived
    rw [← hsession] at hresult
    cases hresult with
    | page hkey hst halive' hes =>
      refine .requests _ [] hst halive' hmove hrecv (hplain.append fun _ => hkey) ?_
      rw [hes, hev, pagesFor_get hget]
    | failed hkey hret hst hfault hes => exact .failed texts _ s.stack hst hfault hmove hplain ⟨hget, hkey⟩ hret (by rw [hes, hev])
    | upgraded hkey pResult hret hst halive' hes =>
      have hstreams := (streams_upgraded hrun hstate hs hst).2
      rw [hes, hev] at hstreams
      exact .upgraded texts _ pResult s.stack pushes [] (List.append_nil _).symm hmove hplain ⟨hget, hkey⟩ hret hstreams
  · have hsession : c'.toSession = c.toSession := by
      rw [hproc]
      exact if_neg hget
    refine .requests _ [] ?_ ?_ hmove hrecv (hplain.append fun hyes => absurd hyes hget) ?_
    · rw [hsession, hstate]
    · rw [hsession, halive]
    · rw [hsession, hev, pagesFor_other hget]

theorem Conversation.step (hrun : Machine.exec (Conn.step env) .start acts = some c) (h : Conversation env pushes c)
    (hs : c.step env a = some c') : Conversation env (pushes ++ a.pushes) c' := by
  have hinv : ConnInv c := Machine.exec_invariant ConnInv (fun _ _ _ hi hs => hi.step hs) connInv_start hrun
  cases h with
  | requests texts left hstate halive hjoin hbuf hplain hev =>
    cases a with
    | push chunk =>
      obtain ⟨_, rfl⟩ := step_push.mp hs
      exact .requests texts (left ++ [chunk]) hstate halive (hjoin.push chunk) (by simp [hbuf]) hplain hev
    | proc s =>
      rw [ConnAct.pushes, List.append_nil]
      exact Conversation.proc hrun hinv hstate halive hjoin hbuf hplain hev hs
    | decode junk s => exact absurd (hstate.symm.trans (hinv.decode hs).1) (by decide)
  | failed texts request stack hstate hfault hjoin hplain hreq hret hev => exact absurd (Conn.step_fault hs) hfault
  | upgraded texts request pResult stack before later hpushes hjoin hplain hreq hret hstreams =>
    have hstreams' := hstreams.step (upgradeProcMsg_ne_nil hret) hs
    have hproto := hstreams'.protocol
    refine .upgraded texts request pResult stack before (later ++ a.pushes) ?_ hjoin hplain hreq ?_ ?_
    · rw [hpushes, List.append_assoc]
    · rw [hproto, hret]
    · rw [hproto]
      exact hstreams'

theorem conversation_exec (hrun : Machine.exec (Conn.step env) .start acts = some c) :
    Conversation env (acts.flatMap ConnAct.pushes) c := by
  induction acts using List.reverseRecOn generalizing c with
  | nil =>
    cases hrun
    exact .requests [] [] rfl rfl joined_nil rfl (by simp [Plain]) rfl
  | append_singleton acts a ih =>
    obtain ⟨u, hu, hlast⟩ := Machine.exec_append.mp hrun
    obtain ⟨v, hv, hend⟩ := Machine.exec_cons_eq_some.mp hlast
    obtain rfl := Option.some.inj hend
    rw [List.flatMap_append, List.flatMap_cons, List.flatMap_nil, List.append_nil]
    exact (ih hu).step hu hv

end SrWebSocket
