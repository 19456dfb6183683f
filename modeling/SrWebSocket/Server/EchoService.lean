import SrWebSocket.Server.Handshake
import SrWebSocket.Wire.RoundTrip

/-! # The echo service

The loop of `ParseMsg` on a row of data messages, for a connection with the
protocol `echo`: decode, filter, look up the handler, encode and send, once for
each message. The handler encodes every message as TEXT.
-/
namespace SrWebSocket

/-- A connection upgraded with the protocol `echo`, inside the loop of `ParseMsg`,
with the messages `ms` in its cache. -/
structure EchoReady (ms : List WireMsg) (c : Conn) : Prop where
  state : c.miState = .connect
  protocol : c.mstrProtocol = wsProtocolEcho
  cache : c.mstMsgCache = .fresh (ms.flatMap WireMsg.wire)
  pending : c.mpMsg = none
  parsing : c.parsing = true
  running : c.fault = none

/-- Everything handed to `Send` so far. -/
def Session.sentBytes (σ : Session) : List UInt8 := σ.events.flatMap fun e => e.sent.getD []

/-- An unmasked frame with the FIN bit, the opcode and the payload of the message. -/
def EchoOf (m : WireMsg) (frame : List UInt8) : Prop :=
  ∃ f : Fragment, f.key = none ∧ f.payload = m.message.pBuffer ∧ frame = wireFrame true m.opcode f

/-- One such frame for each message, in their order. -/
def Echoes (ms : List WireMsg) (sent : List UInt8) : Prop :=
  ∃ frames : List (List UInt8), List.Forall₂ EchoOf ms frames ∧ sent = frames.flatten

/-- What the handler sends for a message. -/
def echoReply (m : WireMsg) : List UInt8 := serverFrame wsFrameText m.message.pBuffer

variable {env : Env} {c c' : Conn} {m : WireMsg} {ms : List WireMsg} {s : Scratch} {junk : ℕ → UInt8} {sent : List UInt8}

theorem builtFrom_message (m : WireMsg) (hlen : m.wire.length < 2 ^ 63) : BuiltFrom m.message m.frames :=
  ⟨m.frames_group.ne_nil, m.frames_whole, hlen, m.messageOf_frames.symm⟩

theorem message_ne_nil (m : WireMsg) : m.message.pBuffer ≠ [] := by
  intro hnil
  have hfirst := m.first.length_pos
  have hlen := congrArg List.length hnil
  simp only [WireMsg.message, List.flatMap_cons, List.length_append, List.length_nil] at hlen
  omega

/-! ## The loop -/

theorem procMsg_echo (env : Env) (s : Scratch) {σ : Session} (hp : σ.mstrProtocol = wsProtocolEcho)
    (hdata : m.opcode = wsFrameText ∨ m.opcode = wsFrameBinary) (hlen : m.wire.length < 2 ^ 63) :
    σ.procMsg env s (frameMsg σ.mstrProtocol m.message) =
      { σ with
        created := σ.created + 1
        deleted := σ.deleted ++ [σ.created]
        events := σ.events ++ [⟨σ.miState, .echo, some (echoReply m)⟩] } := by
  have hmsg := handlerMgrProcMsg_frame env s σ.mstrProtocol (builtFrom_message m hlen)
  have hisdata : IsData m.message := hdata
  rw [if_pos hisdata, hp, getHandler_echo] at hmsg
  unfold Session.procMsg
  rw [hp, hmsg]
  dsimp only
  rw [if_pos (show serverFrame wsFrameText m.message.pBuffer ≠ [] by simp [serverFrame])]
  rfl

/-- One iteration: the message at the head of the cache is answered. -/
theorem EchoReady.step (env : Env) (h : EchoReady (m :: ms) c) (hdata : m.opcode = wsFrameText ∨ m.opcode = wsFrameBinary)
    (hlen : ((m :: ms).flatMap WireMsg.wire).length < 2 ^ 63) (junk : ℕ → UInt8) (s : Scratch) :
    ∃ c', c.step env (.decode junk s) = some c' ∧ EchoReady ms c' ∧
      c'.events = c.events ++ [⟨.connect, .echo, some (echoReply m)⟩] := by
  rw [List.flatMap_cons] at hlen
  have hcall := decodeMsg_wire m (ms.flatMap WireMsg.wire) hlen junk
  rw [← List.flatMap_cons, ← h.cache, ← h.pending] at hcall
  have hwire : m.wire.length < 2 ^ 63 := by
    rw [List.length_append] at hlen
    omega
  have hproc := procMsg_echo env s h.protocol hdata hwire
  have hafter : c.step env (.decode junk s) =
      some (c.afterDecode env s ⟨1, .fresh (ms.flatMap WireMsg.wire), some m.message⟩) := by
    simp [Conn.step, h.running, h.parsing, hcall]
  have hsession : (c.afterDecode env s ⟨1, .fresh (ms.flatMap WireMsg.wire), some m.message⟩).toSession =
      c.toSession.procMsg env s (frameMsg c.mstrProtocol m.message) := rfl
  refine ⟨_, hafter, ⟨?_, ?_, rfl, rfl, h.parsing, ?_⟩, ?_⟩
  · rw [hsession, hproc]
    exact h.state
  · rw [hsession, hproc]
    exact h.protocol
  · rw [hsession, hproc]
    exact h.running
  · rw [hsession, hproc, h.state]

theorem EchoReady.last (env : Env) (h : EchoReady [] c) (junk : ℕ → UInt8) (s : Scratch) :
    ∃ c', c.step env (.decode junk s) = some c' ∧ c'.parsing = false ∧ c'.toSession = c.toSession := by
  have hcall : decodeMsg 64 (callFuel c.mstMsgCache) junk c.mstMsgCache c.mpMsg = some ⟨0, .fresh [], none⟩ := by
    rw [h.cache, h.pending]
    rfl
  refine ⟨c.afterDecode env s ⟨0, .fresh [], none⟩, ?_, rfl, rfl⟩
  simp [Conn.step, h.running, h.parsing, hcall]

theorem EchoReady.exec (env : Env) (h : EchoReady ms c) (hdata : ∀ m ∈ ms, m.opcode = wsFrameText ∨ m.opcode = wsFrameBinary)
    (hlen : (ms.flatMap WireMsg.wire).length < 2 ^ 63) (calls : List ((ℕ → UInt8) × Scratch))
    (hcalls : calls.length = ms.length + 1) :
    ∃ c', Machine.exec (Conn.step env) c (calls.map fun call => .decode call.1 call.2) = some c' ∧ c'.parsing = false ∧
      c'.events = c.events ++ ms.map fun m => ⟨.connect, .echo, some (echoReply m)⟩ := by
  induction ms generalizing c calls with
  | nil =>
    obtain ⟨call, rfl⟩ := List.length_eq_one_iff.mp hcalls
    obtain ⟨c', hc', hidle, hsession⟩ := h.last env call.1 call.2
    exact ⟨c', exec_single.mpr hc', hidle, by rw [hsession]; simp⟩
  | cons m ms ih =>
    obtain ⟨call, calls, rfl⟩ : ∃ call rest, calls = call :: rest := List.exists_cons_of_ne_nil (by
      rintro rfl
      cases hcalls)
    obtain ⟨u, hu, hready, hone⟩ := h.step env (hdata m List.mem_cons_self) hlen call.1 call.2
    have hlen' : (ms.flatMap WireMsg.wire).length < 2 ^ 63 := by
      rw [List.flatMap_cons, List.length_append] at hlen
      omega
    obtain ⟨c', hrun, hidle, hall⟩ := ih hready (fun m hm => hdata m (List.mem_cons_of_mem _ hm)) hlen' calls
      (Nat.succ.inj hcalls)
    refine ⟨c', Machine.exec_cons_eq_some.mpr ⟨u, hu, hrun⟩, hidle, ?_⟩
    rw [hall, hone, List.append_assoc, List.map_cons]
    rfl

/-- The handshake and the messages, each as a chunk of its own, lead into the loop. -/
theorem echoReady_handshake (hlib : env.Works) (q : UpgradeRequest) (hproto : protocolOf q.fields = wsProtocolEcho)
    (hkey : q.fields.websocketKey ≠ []) (hroom : q.fields.websocketProtocol.length ≤ 444) (hq : q.text.length < 2 ^ 63)
    (hne : ms ≠ []) (hlen : (ms.flatMap WireMsg.wire).length < 2 ^ 63) (s : Scratch) :
    ∃ c, Machine.exec (Conn.step env) .start
      [.push q.text, .proc s, .push (ms.flatMap WireMsg.wire), .proc s] = some c ∧ EchoReady ms c := by
  obtain ⟨pEncode, he, _⟩ := hlib.accept q.fields.websocketKey
  have hup := upgraded_upgraded q.fields pEncode
  have hwire : ms.flatMap WireMsg.wire ≠ [] := by
    obtain ⟨m, ms, rfl⟩ := List.exists_cons_of_ne_nil hne
    have hlen := flatten_length_ge m.frames_whole
    have hpos := List.length_pos_iff.mpr m.frames_group.ne_nil
    have hm : 0 < m.wire.length := by
      rw [WireMsg.wire]
      omega
    rw [List.flatMap_cons]
    exact List.append_ne_nil_of_left_ne_nil (List.length_pos_iff.mp hm) _
  let loop : Receiver := { Receiver.start with mstMsgCache := .fresh (ms.flatMap WireMsg.wire), parsing := true }
  have hrecv : (Conn.upgraded pEncode q.fields).toReceiver.step (.recv (ms.flatMap WireMsg.wire)) = some loop := by
    have hsmall : ([] : List UInt8).length + (ms.flatMap WireMsg.wire).length < 2 ^ 63 := by rwa [List.length_nil, Nat.zero_add]
    refine step_recv_eq_some.mpr ⟨⟨rfl, hsmall⟩, ?_⟩
    have hpos : decide (0 < (ms.flatMap WireMsg.wire).length) = true := decide_eq_true (List.length_pos_iff.mpr hwire)
    exact congrArg (fun b => { Receiver.start with mstMsgCache := .fresh (ms.flatMap WireMsg.wire), parsing := b }) hpos.symm
  have harrive : Machine.exec (Conn.step env) (.upgraded pEncode q.fields) [.push (ms.flatMap WireMsg.wire), .proc s] =
      some { Conn.upgraded pEncode q.fields with toReceiver := loop } :=
    (hup.arrive (protocolOf_ne_nil _)).mpr ⟨rfl, loop, hrecv, rfl⟩
  exact ⟨_, Machine.exec_append.mpr ⟨_, exec_request hlib hkey hroom he hq s, harrive⟩, rfl, hproto, rfl, rfl, rfl, rfl⟩

/-! ## What is sent back -/

theorem length_payload_le (hm : m ∈ ms) :
    m.message.pBuffer.length ≤ (ms.map fun m => m.message.pBuffer.length).sum := by
  obtain ⟨before, after, rfl⟩ := List.append_of_mem hm
  rw [List.map_append, List.sum_append, List.map_cons, List.sum_cons]
  omega

theorem length_wires_le (ms : List WireMsg) :
    (ms.flatMap WireMsg.wire).length ≤ 15 * (ms.map fun m => m.message.pBuffer.length).sum := by
  induction ms with
  | nil => simp
  | cons m ms ih =>
    have hm := m.length_wire_le
    rw [List.flatMap_cons, List.length_append, List.map_cons, List.sum_cons]
    omega

/-- The answers are echoes exactly when all messages were TEXT. -/
theorem echoes_replies_iff (hlen : ∀ m ∈ ms, m.message.pBuffer.length < 2 ^ 32) :
    Echoes ms (ms.flatMap echoReply) ↔ ∀ m ∈ ms, m.opcode = wsFrameText := by
  induction ms with
  | nil => exact ⟨fun _ => by simp, fun _ => ⟨[], .nil, rfl⟩⟩
  | cons m ms ih =>
    have hm := hlen m List.mem_cons_self
    have hreply := serverFrame_eq wsFrameText (message_ne_nil m) hm
    have ih := ih fun m' hm' => hlen m' (List.mem_cons_of_mem _ hm')
    rw [List.forall_mem_cons, ← ih, List.flatMap_cons]
    constructor
    · rintro ⟨_, hframes, he⟩
      cases hframes with
      | @cons _ u _ us hu hus =>
        obtain ⟨f, _, _, rfl⟩ := hu
        rw [List.flatten_cons, echoReply, hreply] at he
        obtain ⟨hhead, htail⟩ := (whole_wireFrame _ true _).unique (whole_wireFrame f true m.opcode) he
        have hop := congrArg opcode hhead
        rw [opcode_wireFrame _ (by decide), opcode_wireFrame f m.opcode_lt] at hop
        exact ⟨hop.symm, us, hus, htail⟩
    · rintro ⟨hop, us, hus, he⟩
      refine ⟨echoReply m :: us, .cons ⟨Outgoing.fragment _ (message_ne_nil m) hm, rfl, rfl, ?_⟩ hus,
        by rw [he, List.flatten_cons]⟩
      rw [hop]
      exact hreply

/-- The loop answers a row of TEXT and BINARY messages with one frame each, and the
frames are what was sent to the server exactly when no message was BINARY. -/
theorem echo_iff (env : Env) (c : Conn) (ms : List WireMsg) (h : EchoReady ms c)
    (hdata : ∀ m ∈ ms, m.opcode = wsFrameText ∨ m.opcode = wsFrameBinary)
    (hlen : (ms.map fun m => m.message.pBuffer.length).sum < 2 ^ 32) (calls : List ((ℕ → UInt8) × Scratch))
    (hcalls : calls.length = ms.length + 1) :
    ∃ c' sent, Machine.exec (Conn.step env) c (calls.map fun call => .decode call.1 call.2) = some c' ∧
      c'.parsing = false ∧ c'.sentBytes = c.sentBytes ++ sent ∧
      (Echoes ms sent ↔ ∀ m ∈ ms, m.opcode ≠ wsFrameBinary) := by
  have hwires := length_wires_le ms
  obtain ⟨c', hrun, hidle, hevents⟩ := h.exec env hdata (by omega) calls hcalls
  refine ⟨c', ms.flatMap echoReply, hrun, hidle, ?_, ?_⟩
  · rw [Session.sentBytes, hevents, List.flatMap_append, List.flatMap_map]
    rfl
  · rw [echoes_replies_iff fun m hm => (length_payload_le hm).trans_lt hlen]
    refine forall_congr' fun m => forall_congr' fun hm => ?_
    rcases hdata m hm with ht | hb
    · exact ⟨fun _ => by rw [ht]; decide, fun _ => ht⟩
    · exact ⟨fun ht => by rw [ht]; decide, fun hne => absurd hb hne⟩

theorem echo_greeting :
    ∃ c c' sent, Machine.exec (Conn.step sampleEnv) .start
        [.push echoRequest.text, .proc zeroScratch, .push greeting.wire, .proc zeroScratch] = some c ∧
      Machine.exec (Conn.step sampleEnv) c
        [.decode zeroScratch.alloc zeroScratch, .decode zeroScratch.alloc zeroScratch] = some c' ∧
      c'.sentBytes = c.sentBytes ++ sent ∧ Echoes [greeting] sent := by
  have hfields : echoRequest.fields = _ := sampleRequest_fields (by decide) (by decide)
  have hwire : [greeting].flatMap WireMsg.wire = greeting.wire := by simp
  have hlib : sampleEnv.Works := sampleLibrary_works
  obtain ⟨c, hc, hready⟩ := echoReady_handshake hlib echoRequest (by rw [hfields]; decide)
    (by rw [hfields]; decide) (by rw [hfields]; decide) (by decide) (List.cons_ne_nil greeting []) (by decide) zeroScratch
  rw [hwire] at hc
  obtain ⟨c', sent, hrun, _, hsent, hiff⟩ := echo_iff sampleEnv c [greeting] hready (by simp [greeting]) (by decide)
    [(zeroScratch.alloc, zeroScratch), (zeroScratch.alloc, zeroScratch)] rfl
  exact ⟨c, c', sent, hc, hrun, hsent, hiff.mpr (by simp [greeting]; decide)⟩

def binaryA : WireMsg where
  opcode := wsFrameBinary
  opcode_ne := by decide
  opcode_lt := by decide
  first := letterA
  more := []

/-- A BINARY message comes back as TEXT. -/
theorem echo_binary :
    ∃ c, Machine.exec (Conn.step sampleEnv) .start
        [.push echoRequest.text, .proc zeroScratch, .push binaryA.wire, .proc zeroScratch,
          .decode zeroScratch.alloc zeroScratch, .decode zeroScratch.alloc zeroScratch] = some c ∧
      c.parsing = false ∧ c.events.drop 1 = [⟨.connect, .echo, some [0x81, 1, 97]⟩] ∧ ¬Echoes [binaryA] [0x81, 1, 97] := by
  have hrun : (Machine.exec (Conn.step sampleEnv) .start
      [.push echoRequest.text, .proc zeroScratch, .push binaryA.wire, .proc zeroScratch,
        .decode zeroScratch.alloc zeroScratch, .decode zeroScratch.alloc zeroScratch]).map
      (fun c => (c.parsing, c.events.drop 1)) = some (false, [⟨.connect, .echo, some [0x81, 1, 97]⟩]) := by decide +kernel
  obtain ⟨c, hc, hall⟩ := Option.map_eq_some_iff.mp hrun
  obtain ⟨hidle, hevents⟩ := Prod.mk.inj hall
  refine ⟨c, hc, hidle, hevents, ?_⟩
  rintro ⟨_, hframes, he⟩
  cases hframes with
  | @cons _ u _ us hu _ =>
    obtain ⟨f, _, _, rfl⟩ := hu
    obtain ⟨hbyte, _⟩ := List.cons.inj he
    exact absurd hbyte (by decide)

end SrWebSocket
