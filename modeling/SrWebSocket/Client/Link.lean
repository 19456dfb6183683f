import SrWebSocket.Client.Quiescence
import SrWebSocket.Server.EchoService
import SrWebSocket.Wire.ReferenceStream

/-! # A peer and the echo service

A peer on the other end of the client's connection writes bytes and reads what the
handlers send, with bytes on their way in both directions. Reading by the wire format
alone, it finds the answers to its messages, in their order and nothing else.
-/
namespace SrWebSocket

/-- A client, the bytes on their way to it and from it, and what its peer has read. -/
structure Link where
  cl : Client
  up : List UInt8
  down : List UInt8
  inbox : List UInt8

inductive LinkAct where
  | say (bytes : List UInt8)
  | client (a : ClientAct)
  | read (bytes : List UInt8)

def Link.start : Link where
  cl := .start
  up := []
  down := []
  inbox := []

/-- The network keeps the order of the bytes and may cut them anywhere. -/
def Link.step (env : Env) (l : Link) : LinkAct → Option Link
  | .say bytes => some { l with up := l.up ++ bytes }
  | .client a =>
    if a.bytes <+: l.up then
      (l.cl.step env a).map fun cl =>
        { l with
          cl := cl
          up := l.up.drop a.bytes.length
          down := l.down ++ cl.toSession.sentBytes.drop l.cl.toSession.sentBytes.length }
    else none
  | .read bytes =>
    if bytes <+: l.down then some { l with down := l.down.drop bytes.length, inbox := l.inbox ++ bytes } else none

def LinkAct.said : LinkAct → List UInt8
  | .say bytes => bytes
  | .client _ | .read _ => []

def LinkAct.acts : LinkAct → List ClientAct
  | .client a => [a]
  | .say _ | .read _ => []

/-- The frames that a peer expects for its messages: a TEXT frame for each data message. -/
def echoFrames (ms : List WsMsg) : List RefFrame :=
  (ms.filter fun m => IsData m).map fun m => { fin := true, opcode := wsFrameText, payload := m.pBuffer }

variable {env : Env} {l l' l₀ l₁ : Link} {a : LinkAct} {acts later : List LinkAct} {ms : List WireMsg}

/-! ## What is sent -/

theorem Session.exists_events (env : Env) (s : Scratch) (pMsg : CWsMsg) (σ : Session) :
    ∃ evs, (σ.procMsg env s pMsg).events = σ.events ++ evs := by
  rw [events_procMsg]
  cases handlerMgrProcMsg env s pMsg with
  | dropped => exact ⟨[], (List.append_nil _).symm⟩
  | noHandler => exact ⟨[], (List.append_nil _).symm⟩
  | handled h pResult setProtocol => exact ⟨_, rfl⟩
  | nullResult h => exact ⟨_, rfl⟩
  | undefined h => exact ⟨_, rfl⟩

theorem ConnInv.step_events {c c' : Conn} {x : ConnAct} (h : ConnInv c) (hs : c.step env x = some c') :
    c.events <+: c'.events := by
  rcases h.session hs with ⟨_, hsame⟩ | ⟨pMsg, s, _, _, hreply⟩
  · exact ⟨[], by rw [hsame, List.append_nil]⟩
  · rw [hreply]
    obtain ⟨evs, he⟩ := Session.exists_events env s pMsg { c.toSession with mstrProtocol := pMsg.mstrProtocol }
    exact ⟨evs, he.symm⟩

theorem Session.sentBytes_mono {σ τ : Session} (h : σ.events <+: τ.events) :
    τ.sentBytes = σ.sentBytes ++ τ.sentBytes.drop σ.sentBytes.length := by
  obtain ⟨evs, he⟩ := h
  have hsent : τ.sentBytes = σ.sentBytes ++ evs.flatMap fun e => e.sent.getD [] := by
    rw [Session.sentBytes, ← he, List.flatMap_append]
    rfl
  rw [hsent, List.drop_left]

theorem Client.exec_events {xs : List ClientAct} {cl cl' : Client} (h : ConnInv cl.toConn)
    (hrun : Machine.exec (Client.step env) cl xs = some cl') : ConnInv cl'.toConn ∧ cl.events <+: cl'.events :=
  Machine.exec_invariant (fun c => ConnInv c ∧ cl.events <+: c.events)
    (fun _ _ _ hi hs => ⟨hi.1.step hs, hi.2.trans (hi.1.step_events hs)⟩) ⟨h, List.prefix_rfl⟩ (Client.exec_conn hrun)

/-! ## The two directions -/

theorem Link.step_client (hs : l.step env a = some l') : Machine.exec (Client.step env) l.cl a.acts = some l'.cl := by
  cases a with
  | say bytes =>
    cases hs
    rfl
  | client x =>
    obtain ⟨_, he⟩ := Option.ite_none_right_eq_some.mp hs
    obtain ⟨cl, hcl, rfl⟩ := Option.map_eq_some_iff.mp he
    exact Machine.exec_one hcl
  | read bytes =>
    obtain ⟨_, he⟩ := Option.ite_none_right_eq_some.mp hs
    cases he
    rfl

theorem Link.exec_client (hrun : Machine.exec (Link.step env) l acts = some l') :
    Machine.exec (Client.step env) l.cl (acts.flatMap LinkAct.acts) = some l'.cl := by
  obtain ⟨cl, hcl, rfl⟩ := Machine.exec_simulates (fun l cl => l.cl = cl) LinkAct.acts
    (fun l a l' cl (hR : l.cl = cl) hs => ⟨l'.cl, hR ▸ Link.step_client hs, rfl⟩) rfl hrun
  exact hcl

/-- What the peer says is pushed or still on its way. -/
theorem Link.step_up (hs : l.step env a = some l') : l.up ++ a.said = a.acts.flatMap ClientAct.bytes ++ l'.up := by
  cases a with
  | say bytes =>
    cases hs
    rfl
  | client x =>
    obtain ⟨⟨rest, hrest⟩, he⟩ := Option.ite_none_right_eq_some.mp hs
    obtain ⟨cl, _, rfl⟩ := Option.map_eq_some_iff.mp he
    rw [← hrest, List.drop_left]
    simp [LinkAct.said, LinkAct.acts]
  | read bytes =>
    obtain ⟨_, he⟩ := Option.ite_none_right_eq_some.mp hs
    cases he
    exact List.append_nil _

theorem Link.exec_up (hrun : Machine.exec (Link.step env) l acts = some l') :
    l.up ++ acts.flatMap LinkAct.said = (acts.flatMap LinkAct.acts).flatMap ClientAct.bytes ++ l'.up := by
  induction acts generalizing l with
  | nil =>
    cases hrun
    exact List.append_nil _
  | cons a acts ih =>
    obtain ⟨u, hu, hrun⟩ := Machine.exec_cons_eq_some.mp hrun
    rw [List.flatMap_cons, List.flatMap_cons, List.flatMap_append, ← List.append_assoc, Link.step_up hu,
      List.append_assoc, List.append_assoc, ih hrun]

/-- What the handlers send is read or still on its way. -/
theorem Link.step_down (hinv : ConnInv l.cl.toConn) (h : l.inbox ++ l.down = l.cl.toSession.sentBytes)
    (hs : l.step env a = some l') : l'.inbox ++ l'.down = l'.cl.toSession.sentBytes := by
  cases a with
  | say bytes =>
    cases hs
    exact h
  | client x =>
    obtain ⟨_, he⟩ := Option.ite_none_right_eq_some.mp hs
    obtain ⟨cl, hcl, rfl⟩ := Option.map_eq_some_iff.mp he
    have hmono := Session.sentBytes_mono (Client.exec_events hinv (Machine.exec_one hcl)).2
    dsimp only
    rw [← List.append_assoc, h, ← hmono]
  | read bytes =>
    obtain ⟨⟨rest, hrest⟩, he⟩ := Option.ite_none_right_eq_some.mp hs
    cases he
    dsimp only
    rw [← h, ← hrest, List.drop_left, List.append_assoc]

theorem Link.exec_down (hrun : Machine.exec (Link.step env) .start acts = some l) :
    ConnInv l.cl.toConn ∧ l.inbox ++ l.down = l.cl.toSession.sentBytes :=
  Machine.exec_invariant (fun l => ConnInv l.cl.toConn ∧ l.inbox ++ l.down = l.cl.toSession.sentBytes)
    (fun _ _ _ hi hs => ⟨(Client.exec_events hi.1 (Link.step_client hs)).1, Link.step_down hi.1 hi.2 hs⟩)
    ⟨connInv_start, rfl⟩ hrun

/-! ## What the peer reads -/

theorem sent_answer (env : Env) (m : WsMsg) :
    ((answer env wsProtocolEcho m).bind Event.sent).getD [] =
      if IsData m then serverFrame wsFrameText m.pBuffer else [] := by
  unfold answer
  rw [getHandler_echo]
  by_cases hdata : IsData m
  · rw [if_pos hdata, if_pos hdata]
    rfl
  · rw [if_neg hdata, if_neg hdata]
    rfl

theorem sent_answers (env : Env) (ds : List WsMsg) :
    (ds.filterMap (answer env wsProtocolEcho)).flatMap (fun e => e.sent.getD []) =
      (ds.filter fun m => IsData m).flatMap fun m => serverFrame wsFrameText m.pBuffer := by
  induction ds with
  | nil => rfl
  | cons m ds ih =>
    have hone := sent_answer env m
    by_cases hdata : IsData m
    · rw [List.filter_cons_of_pos (by simpa using hdata), List.flatMap_cons, ← ih]
      rw [if_pos hdata] at hone
      rw [← hone]
      cases ha : answer env wsProtocolEcho m with
      | none => simp [ha]
      | some e => simp [ha]
    · rw [List.filter_cons_of_neg (by simpa using hdata), ← ih]
      rw [if_neg hdata] at hone
      cases ha : answer env wsProtocolEcho m with
      | none => simp [ha]
      | some e =>
        rw [ha] at hone
        simpa [ha] using hone

theorem decodeFrame_serverFrame {payload : List UInt8} (hlen : payload.length < 2 ^ 63) (t : List UInt8) :
    decodeFrame (serverFrame wsFrameText payload ++ t) = some ({ fin := true, opcode := wsFrameText, payload := payload }, t) := by
  have hbytes : serverFrame wsFrameText payload = _ := serverFrame_bytes (t := 1) (by decide) payload
  rw [hbytes]
  exact decodeFrame_unmasked (hlen.trans (by decide)) _ t

theorem framesOf_serverFrames {ds : List WsMsg} (hlen : ∀ m ∈ ds, m.pBuffer.length < 2 ^ 63) :
    framesOf (ds.flatMap fun m => serverFrame wsFrameText m.pBuffer) =
      ds.map fun m => { fin := true, opcode := wsFrameText, payload := m.pBuffer } := by
  induction ds with
  | nil => rfl
  | cons m ds ih =>
    have hrest := ih fun m' hm => hlen m' (List.mem_cons_of_mem _ hm)
    rw [List.flatMap_cons, framesOf_cons (decodeFrame_serverFrame (hlen m List.mem_cons_self) _), hrest]
    rfl

theorem Link.streams (hrun : Machine.exec (Link.step env) .start acts = some l₀) (hnone : l₀.cl.miState = .none)
    (hup : l₀.step env a = some l₁) (hconn : l₁.cl.miState = .connect)
    (hlater : Machine.exec (Link.step env) l₁ later = some l) :
    Streams env l₁.cl.mstrProtocol l₁.cl.events ((later.flatMap LinkAct.acts).flatMap ClientAct.chunks) l.cl.toConn := by
  have hstep := Link.step_client hup
  cases a with
  | client x =>
    obtain ⟨cl, hcl, he⟩ := Machine.exec_cons_eq_some.mp hstep
    cases he
    exact Client.streams (Link.exec_client hrun) hnone hcl hconn (Link.exec_client hlater)
  | say bytes =>
    cases hup
    exact absurd (hnone.symm.trans hconn) (by decide)
  | read bytes =>
    obtain ⟨_, he⟩ := Option.ite_none_right_eq_some.mp hup
    cases he
    exact absurd (hnone.symm.trans hconn) (by decide)

theorem Streams.sentBytes {σ : Session} {pushes : List (List UInt8)} {c : Conn}
    (h : Streams env wsProtocolEcho σ.events pushes c) :
    c.toSession.sentBytes = σ.sentBytes ++
      (c.delivered.filter fun m => IsData m).flatMap fun m => serverFrame wsFrameText m.pBuffer := by
  rw [Session.sentBytes, h.events, List.flatMap_append, sent_answers]
  rfl

theorem drop_prefix {inbox down sent replies : List UInt8} (h : inbox ++ down = sent ++ replies) :
    inbox.drop sent.length <+: replies ∧ (down = [] → inbox.drop sent.length = replies) := by
  have hdrop := congrArg (List.drop sent.length) h
  rw [List.drop_left, List.drop_append] at hdrop
  refine ⟨⟨_, hdrop⟩, fun hnil => ?_⟩
  rw [← hdrop, hnil, List.drop_nil, List.append_nil]

theorem length_message_lt (hlen : (ms.flatMap WireMsg.wire).length < 2 ^ 63) :
    ∀ m ∈ ms.map WireMsg.message, m.pBuffer.length < 2 ^ 63 := by
  intro m hm
  obtain ⟨w, hw, rfl⟩ := List.mem_map.mp hm
  obtain ⟨before, after, rfl⟩ := List.append_of_mem hw
  rw [List.flatMap_append, List.flatMap_cons, List.length_append, List.length_append] at hlen
  exact (builtFrom_message w (by omega)).length_lt

/-- Whatever the order of the threads' steps, the cuts in both directions and the
memory, a peer that has been upgraded with the protocol `echo` reads answers to its
data messages, in their order; and when all is quiet and the cuts were safe, it has
read all of them. What it had on its way at the upgrade belongs to these messages. -/
theorem echo_link (env : Env) (acts later : List LinkAct) (a : LinkAct) (l₀ l₁ l : Link)
    (hrun : Machine.exec (Link.step env) .start acts = some l₀) (hnone : l₀.cl.miState = .none)
    (hup : l₀.step env a = some l₁) (hconn : l₁.cl.miState = .connect) (hecho : l₁.cl.mstrProtocol = wsProtocolEcho)
    (hlater : Machine.exec (Link.step env) l₁ later = some l) (ms : List WireMsg)
    (hlen : (ms.flatMap WireMsg.wire).length < 2 ^ 63)
    (hsaid : l₁.up ++ later.flatMap LinkAct.said <+: ms.flatMap WireMsg.wire) :
    l.inbox ++ l.down = l.cl.toSession.sentBytes ∧
      framesOf (l.inbox.drop l₁.cl.toSession.sentBytes.length) <+: echoFrames (ms.map WireMsg.message) ∧
      (Quiet l.cl → l.up = [] → l.down = [] → l₁.up ++ later.flatMap LinkAct.said = ms.flatMap WireMsg.wire →
        CutsSafe (ms.flatMap WireMsg.frames) ((later.flatMap LinkAct.acts).flatMap ClientAct.chunks) →
        framesOf (l.inbox.drop l₁.cl.toSession.sentBytes.length) = echoFrames (ms.map WireMsg.message)) := by
  have h := Link.streams hrun hnone hup hconn hlater
  have hreach : Machine.exec (Link.step env) .start (acts ++ a :: later) = some l :=
    Machine.exec_append.mpr ⟨l₀, hrun, Machine.exec_cons_eq_some.mpr ⟨l₁, hup, hlater⟩⟩
  have hdown := (Link.exec_down hreach).2
  have hpushed : ((later.flatMap LinkAct.acts).flatMap ClientAct.chunks).flatten ++ l.up =
      l₁.up ++ later.flatMap LinkAct.said := by
    rw [flatten_flatMap_chunks, Link.exec_up hlater]
  rw [hecho] at h
  have hsent := h.sentBytes
  have hall := drop_prefix (hdown.trans hsent)
  have hprefix : ((later.flatMap LinkAct.acts).flatMap ClientAct.chunks).flatten <+:
      ms.flatMap WireMsg.wire ++ ([] : List (List UInt8)).flatten := by
    rw [List.flatten_nil, List.append_nil]
    exact List.IsPrefix.trans ⟨l.up, hpushed⟩ hsaid
  have hdelivered := h.delivered_prefix openFrames_nil hprefix
  have hframes : framesOf ((l.cl.delivered.filter fun m => IsData m).flatMap fun m => serverFrame wsFrameText m.pBuffer) =
      echoFrames l.cl.delivered :=
    framesOf_serverFrames fun m hm =>
      length_message_lt hlen m (hdelivered.subset (List.mem_of_mem_filter hm))
  refine ⟨hdown, ?_, fun hquiet hnil hempty hfull hsafe => ?_⟩
  · obtain ⟨more, hmore⟩ := hall.1
    have hread := framesOf_prefix (l.inbox.drop l₁.cl.toSession.sentBytes.length) more
    rw [hmore, hframes] at hread
    exact hread.trans ((hdelivered.filter _).map _)
  · have hclient := Link.exec_client hreach
    have hmoved := hquiet.mpRecvBuffer hclient
    have hidle := Client.exec_idle hclient (by rw [hquiet.task]; decide)
    rw [hnil, List.append_nil, hfull] at hpushed
    have hdel := Streams.delivered_all h openFrames_nil (by simpa using hpushed) (by simpa using hsafe) hidle hmoved
    rw [hall.2 hempty, hframes, hdel]

/-- The peer asks for the protocol `echo`. -/
def requestLink : List LinkAct := .say echoRequest.text :: requestActs.map .client

/-- The response of the server. -/
def echoResponse : List UInt8 :=
  ((Machine.exec (Link.step sampleEnv) .start (requestLink ++ [.client (.procMsg zeroScratch)])).map fun l => l.down).getD []

/-- The peer sends the TEXT message `a` and reads its answer in two pieces. -/
def textLink : List LinkAct :=
  [.say [0x81, 1, 97], .read echoResponse] ++ textActs.map .client ++ [.read [0x81], .read [1, 97]]

theorem echo_link_text :
    ∃ l₁ l, Machine.exec (Link.step sampleEnv) l₁ textLink = some l ∧ l.down = [] ∧
      framesOf (l.inbox.drop l₁.cl.toSession.sentBytes.length) = [⟨true, wsFrameText, [97]⟩] := by
  have hstates : (Machine.exec (Link.step sampleEnv) .start requestLink).bind (fun l₀ =>
      (l₀.step sampleEnv (.client (.procMsg zeroScratch))).bind fun l₁ =>
        (Machine.exec (Link.step sampleEnv) l₁ textLink).map fun l =>
          ((l₀.cl.miState, l₁.cl.miState), (l₁.cl.mstrProtocol, l₁.up), decide (Quiet l.cl), l.up ++ l.down)) =
      some ((.none, .connect), (wsProtocolEcho, []), true, []) := by decide +kernel
  obtain ⟨l₀, hrun, hstates⟩ := Option.bind_eq_some_iff.mp hstates
  obtain ⟨l₁, hup, hstates⟩ := Option.bind_eq_some_iff.mp hstates
  obtain ⟨l, hlater, hstates⟩ := Option.map_eq_some_iff.mp hstates
  simp only [Prod.mk.injEq] at hstates
  obtain ⟨⟨hnone, hconn⟩, ⟨hecho, hwaits⟩, hquiet, hways⟩ := hstates
  obtain ⟨hnil, hempty⟩ := List.append_eq_nil_iff.mp hways
  have hsafe : CutsSafe ([textA].flatMap WireMsg.frames) ((textLink.flatMap LinkAct.acts).flatMap ClientAct.chunks) :=
    cutsSafe_whole textA.frames_whole
  obtain ⟨_, _, hall⟩ := echo_link sampleEnv requestLink textLink (.client (.procMsg zeroScratch)) l₀ l₁ l hrun hnone hup
    hconn hecho hlater [textA] (by decide) ⟨[], by rw [hwaits]; decide⟩
  exact ⟨l₁, l, hlater, hempty, hall (of_decide_eq_true hquiet) hnil hempty (by rw [hwaits]; decide) hsafe⟩

end SrWebSocket
