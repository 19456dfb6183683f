import SrWebSocket.Server.Serving
import SrWebSocket.Stream.SplitStream

/-! # The handshake and the cuts of the stream

Before the upgrade `ParseMsg` decides on the bytes that happen to be there and
empties the buffer, so a request is answered as a whole only when it is a chunk
of its own. From there on the connection follows the receiver.
-/
namespace SrWebSocket

structure UpgradeRequest extends HttpRequest where
  starts : fieldGet <+: requestText lines
  hasKey : ∃ v ≠ [], fieldWebsocketKey ++ ascii ": " ++ v ∈ lines

/-- What the handshake asks of the request, of the messages behind it, and of the cuts. -/
structure HandshakeSafe (q : UpgradeRequest) (ms : List WireMsg) (os chunks : List (List UInt8)) : Prop where
  alone : ∃ rest, chunks = q.text :: rest ∧ CutsSafe (ms.flatMap WireMsg.frames ++ os) rest
  key : q.fields.websocketKey ≠ []
  room : q.fields.websocketProtocol.length ≤ 444
  harmless : Harmless (protocolOf q.fields) (ms.map WireMsg.message)

/-- The handshake has been made, once, and the messages behind it were delivered. -/
structure Handshake (env : Env) (q : UpgradeRequest) (ms : List WireMsg) (c : Conn) : Prop where
  state : c.miState = .connect
  protocol : c.mstrProtocol = protocolOf q.fields
  responses : ∃ pEncode, env.accept q.fields.websocketKey = some pEncode ∧
    c.httpCalls = [⟨.none, .upgrade, some (responseText pEncode q.fields.websocketProtocol)⟩]
  delivered : c.delivered = ms.map WireMsg.message

variable {env : Env} {q : UpgradeRequest} {ms : List WireMsg} {os chunks rest : List (List UInt8)} {c : Conn}
  {s : Scratch} {pat t : List UInt8} {pEncode : List UInt8}

theorem find_isSome (h : pat <:+: t) : (find pat t).isSome := by
  induction t with
  | nil => rw [find, if_pos (List.infix_nil.mp h), Option.isSome_some]
  | cons b t ih =>
    rw [find]
    split
    · rfl
    · rename_i hpre
      rw [Option.isSome_map]
      exact ih ((List.infix_cons_iff.mp h).resolve_left fun hp => hpre (List.isPrefixOf_iff_prefix.mpr hp))

theorem UpgradeRequest.isGet (q : UpgradeRequest) : IsGet q.text := by
  rw [IsGet, cstr_eq_self q.zero_not_mem]
  exact q.starts

theorem UpgradeRequest.hasKey_text (q : UpgradeRequest) : HasKey q.text := by
  obtain ⟨v, _, hline⟩ := q.hasKey
  obtain ⟨before, after, hrow⟩ := List.append_of_mem hline
  apply find_isSome
  rw [cstr_eq_self q.zero_not_mem]
  refine ⟨before.flatMap (· ++ crlf), ascii ": " ++ v ++ crlf ++ (after.flatMap (· ++ crlf) ++ crlf), ?_⟩
  simp [HttpRequest.text, requestText, hrow]

theorem protocolOf_ne_nil (f : HttpFields) : protocolOf f ≠ [] := by
  unfold protocolOf
  split
  · assumption
  · decide

def Conn.upgraded (pEncode : List UInt8) (f : HttpFields) : Conn where
  toReceiver := .start
  miState := .connect
  mstrProtocol := protocolOf f
  events := [⟨.none, .upgrade, some (responseText pEncode f.websocketProtocol)⟩]
  created := 1
  deleted := [0]
  fault := none
  mpRecvBuffer := []

theorem exec_request (hlib : env.Works) (hkey : q.fields.websocketKey ≠ []) (hroom : q.fields.websocketProtocol.length ≤ 444)
    (he : env.accept q.fields.websocketKey = some pEncode) (hlen : q.text.length < 2 ^ 63) (s : Scratch) :
    Machine.exec (Conn.step env) .start [.push q.text, .proc s] = some (.upgraded pEncode q.fields) := by
  let pushed : Conn := { Conn.start with mpRecvBuffer := q.text }
  have hpush : Conn.step env .start (.push q.text) = some pushed := step_push.mpr ⟨rfl, rfl⟩
  have harrived : pushed.arrived = q.text := rfl
  have hinv : ConnInv pushed := connInv_start.step hpush
  have hret := upgradeProcMsg_eq hlib q.readFields_text hkey he hroom s.stack
  have hmsg : handlerMgrProcMsg env s (requestMsg q.text) =
      .handled .upgrade (responseText pEncode q.fields.websocketProtocol) (some (protocolOf q.fields)) := by
    rw [handlerMgrProcMsg_request, if_pos q.hasKey_text, hret]
  have hne : responseText pEncode q.fields.websocketProtocol ≠ [] := by
    intro hnil
    have := congrArg List.length hnil
    rw [responseText_eq, List.length_append, length_blankLine, List.length_nil] at this
    omega
  have hreply : pushed.reply env s (requestMsg q.text) = (Conn.upgraded pEncode q.fields).toSession := by
    unfold Conn.reply Session.procMsg
    rw [hmsg]
    dsimp only
    rw [if_pos hne]
    rfl
  refine Machine.exec_cons_eq_some.mpr ⟨pushed, hpush, exec_single.mpr (step_proc.mpr ⟨⟨rfl, rfl, hlen⟩, ?_⟩)⟩
  rw [Conn.procMsg_none hinv rfl, harrived, if_pos q.isGet, hreply]
  rfl

theorem upgraded_upgraded (f : HttpFields) (pEncode : List UInt8) : Upgraded (protocolOf f) (.upgraded pEncode f) where
  inv := ⟨⟨[], [], cacheInv_fresh (Nat.two_pow_pos 63)⟩, rfl, fun _ => ⟨rfl, rfl⟩⟩
  state := rfl
  protocol := rfl
  processed := rfl

theorem served_upgraded (hlib : env.Works) (hkey : q.fields.websocketKey ≠ [])
    (hroom : q.fields.websocketProtocol.length ≤ 444) (he : env.accept q.fields.websocketKey = some pEncode)
    (hlen : q.text.length < 2 ^ 63) (h : Served env (q.text :: rest) c) :
    Feeds rest c.toReceiver ∧ Upgraded (protocolOf q.fields) c ∧
      ∃ acts, Machine.exec (Conn.step env) (.upgraded pEncode q.fields) acts = some c := by
  obtain ⟨xs, hrec, hrun, hidle⟩ := h
  cases xs with
  | nil => cases hrec
  | cons x xs =>
    rw [List.flatMap_cons] at hrun
    obtain ⟨d, hd, hrun⟩ := Machine.exec_append.mp hrun
    cases x with
    | decode junk s =>
      have hs : Conn.step env .start (.decode junk s) = some d := exec_single.mp hd
      cases hs
    | arrive chunk s =>
      obtain ⟨rfl, hrest⟩ := List.cons.inj hrec
      obtain rfl := Option.some.inj ((exec_request hlib hkey hroom he hlen s).symm.trans hd)
      obtain ⟨hr, hup⟩ := (upgraded_upgraded q.fields pEncode).exec (protocolOf_ne_nil _) hrun
      exact ⟨⟨_, hrest, hr, hidle⟩, hup, _, hrun⟩

/-- When the request is a chunk of its own and the cuts behind it are safe, every
run makes the handshake and delivers every message, and there is such a run. -/
theorem handshake_of_safe (env : Env) (hlib : env.Works) (q : UpgradeRequest) (ms : List WireMsg)
    (os chunks : List (List UInt8)) (hos : OpenFrames os)
    (hwire : chunks.flatten = q.text ++ (ms.flatMap WireMsg.wire ++ os.flatten)) (hlen : chunks.flatten.length < 2 ^ 63)
    (hsafe : HandshakeSafe q ms os chunks) :
    (∃ c, Served env chunks c) ∧ ∀ c, Served env chunks c → Handshake env q ms c := by
  obtain ⟨⟨rest, rfl, hcuts⟩, hkey, hroom, hharm⟩ := hsafe
  obtain ⟨pEncode, he, _⟩ := hlib.accept q.fields.websocketKey
  rw [List.flatten_cons] at hwire hlen
  have hrest : rest.flatten = ms.flatMap WireMsg.wire ++ os.flatten := List.append_cancel_left hwire
  rw [List.length_append] at hlen
  have htext : q.text.length < 2 ^ 63 := by omega
  have hp := protocolOf_ne_nil q.fields
  constructor
  · obtain ⟨r, hr⟩ : ∃ r, Feeds rest r :=
      exists_feeds (by rw [hrest]; exact not_conflict_open ms hos) (by omega)
    have hdel := hr.delivered_open hos hrest hcuts
    obtain ⟨acts, hrec, hrun, hidle⟩ := hr
    obtain ⟨xs, c, hxs, hc, hcr⟩ := (upgraded_upgraded q.fields pEncode).follow zeroScratch hp rfl hrun (hdel ▸ hharm)
    refine ⟨c, .arrive q.text zeroScratch :: xs, ?_, ?_, by rw [hcr]; exact hidle⟩
    · rw [List.map_cons, hxs]
      exact congrArg _ hrec
    · rw [List.flatMap_cons]
      exact Machine.exec_append.mpr ⟨_, exec_request hlib hkey hroom he htext zeroScratch, hc⟩
  · intro c hc
    obtain ⟨hfeeds, hup, acts, hrun⟩ := served_upgraded hlib hkey hroom he htext hc
    have hdel := hfeeds.delivered_open hos hrest hcuts
    have hcalls := (exec_harmless (upgraded_upgraded q.fields pEncode).inv rfl rfl hrun (hdel ▸ hharm)).2
    exact ⟨hup.state, hup.protocol, ⟨pEncode, he, hcalls⟩, hdel⟩

def echoRequest : UpgradeRequest where
  toHttpRequest := sampleRequest wsProtocolEcho (by decide) (by decide)
  starts := by decide
  hasKey := ⟨ascii "dGhlIHNhbXBsZSBub25jZQ==", by decide, by decide⟩

theorem handshake_echo :
    (∃ c, Served sampleEnv [echoRequest.text, greeting.wire] c) ∧
      ∀ c, Served sampleEnv [echoRequest.text, greeting.wire] c → Handshake sampleEnv echoRequest [greeting] c := by
  have hfields : echoRequest.fields = _ := sampleRequest_fields (by decide) (by decide)
  have hframes : [greeting].flatMap WireMsg.frames ++ [] = greeting.frames := by simp
  have hcuts : CutsSafe greeting.frames [greeting.wire] := cutsSafe_whole greeting.frames_whole
  refine handshake_of_safe sampleEnv sampleLibrary_works echoRequest [greeting] [] _ openFrames_nil (by simp) (by decide)
    ⟨⟨[greeting.wire], rfl, hframes ▸ hcuts⟩, ?_, ?_, ?_⟩
  · rw [hfields]
    decide
  · rw [hfields]
    decide
  · rw [hfields]
    exact fun _ _ _ => by decide

/-- A request that is cut behind its first line is answered with the page, and the
rest of it is dropped. -/
theorem cutRequest_page :
    ∃ c, Served sampleEnv [echoRequest.text.take 20, echoRequest.text.drop 20] c ∧ c.miState = .none ∧
      c.httpCalls = [⟨.none, .get, some (getProcMsg sampleEnv)⟩] ∧ ¬Handshake sampleEnv echoRequest [] c := by
  let acts : List ServeAct := [.arrive (echoRequest.text.take 20) zeroScratch, .arrive (echoRequest.text.drop 20) zeroScratch]
  have hrun : (Machine.exec (Conn.step sampleEnv) .start (acts.flatMap ServeAct.acts)).map
      (fun c => (c.parsing, c.miState, c.httpCalls)) =
      some (false, .none, [⟨.none, .get, some (getProcMsg sampleEnv)⟩]) := by decide +kernel
  obtain ⟨c, hc, hall⟩ := Option.map_eq_some_iff.mp hrun
  simp only [Prod.mk.injEq] at hall
  obtain ⟨hidle, hstate, hcalls⟩ := hall
  exact ⟨c, ⟨acts, rfl, hc, hidle⟩, hstate, hcalls, fun h => absurd (hstate.symm.trans h.state) (by decide)⟩

end SrWebSocket
