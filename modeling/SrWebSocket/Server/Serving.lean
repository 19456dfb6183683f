import SrWebSocket.Server.Dispatch
import SrWebSocket.Stream.Cuts

/-! # The connection after its upgrade

When chunks are given to `PushMsg` and `ProcMsg` one by one, a connected
`CWsInput` decodes them as the receiver does. The handlers make no difference to
what is delivered, as long as no message reaches an HTTP handler.
-/
namespace SrWebSocket

/-- A chunk that is pushed and processed, or a call of `DecodeMsg` in the loop. -/
inductive ServeAct where
  | arrive (chunk : List UInt8) (s : Scratch)
  | decode (junk : ℕ → UInt8) (s : Scratch)

def ServeAct.acts : ServeAct → List ConnAct
  | .arrive chunk s => [.push chunk, .proc s]
  | .decode junk s => [.decode junk s]

def ServeAct.recvAct : ServeAct → RecvAct
  | .arrive chunk _ => .recv chunk
  | .decode junk _ => .decode junk

/-- A connection that has been given these chunks one by one and has returned
from its last `ParseMsg`. -/
def Served (env : Env) (chunks : List (List UInt8)) (c : Conn) : Prop :=
  ∃ acts : List ServeAct, received (acts.map ServeAct.recvAct) = chunks ∧
    Machine.exec (Conn.step env) .start (acts.flatMap ServeAct.acts) = some c ∧ c.parsing = false

/-- A connection after its upgrade, with everything pushed processed. -/
structure Upgraded (p : List UInt8) (c : Conn) : Prop where
  inv : ConnInv c
  state : c.miState = .connect
  protocol : c.mstrProtocol = p
  processed : c.mpRecvBuffer = []

def Session.httpCalls (σ : Session) : List Event := σ.events.filter fun e => e.handler ≠ .echo

/-- None of the messages is a data message for an HTTP handler. -/
def Harmless (p : List UInt8) (ms : List WsMsg) : Prop :=
  ∀ m ∈ ms, IsData m → p ≠ fieldGet ∧ p ≠ fieldWebsocketKey

variable {env : Env} {s : Scratch} {c c' : Conn} {a : ConnAct} {p chunk : List UInt8} {junk : ℕ → UInt8}
  {r r' : Receiver}

theorem mstrProtocol_reply_frame {m : WsMsg} {fs : List (List UInt8)} (hm : BuiltFrom m fs) :
    (c.toSession.procMsg env s (frameMsg c.mstrProtocol m)).mstrProtocol = c.mstrProtocol := by
  rw [mstrProtocol_procMsg, handlerMgrProcMsg_frame env s _ hm]
  by_cases hdata : IsData m
  · rw [if_pos hdata]
    cases getHandler c.mstrProtocol with
    | none => rfl
    | some h => cases h <;> rfl
  · rw [if_neg hdata]

theorem reply_harmless (env : Env) (s : Scratch) {m : WsMsg} {fs : List (List UInt8)} (hm : BuiltFrom m fs)
    (hno : IsData m → c.mstrProtocol ≠ fieldGet ∧ c.mstrProtocol ≠ fieldWebsocketKey) :
    (c.toSession.procMsg env s (frameMsg c.mstrProtocol m)).fault = c.fault ∧
      (c.toSession.procMsg env s (frameMsg c.mstrProtocol m)).httpCalls = c.httpCalls := by
  have hkeep (h : Handler) : getHandler c.mstrProtocol = some h ↔ c.mstrProtocol = h.name := getHandler_eq_some
  unfold Session.httpCalls
  rw [fault_procMsg, events_procMsg, handlerMgrProcMsg_frame env s _ hm]
  by_cases hdata : IsData m
  · obtain ⟨hget, hkey⟩ := hno hdata
    rw [if_pos hdata]
    cases hh : getHandler c.mstrProtocol with
    | none => exact ⟨rfl, rfl⟩
    | some h =>
      cases h with
      | get => exact absurd ((hkeep .get).mp hh) hget
      | upgrade => exact absurd ((hkeep .upgrade).mp hh) hkey
      | echo => exact ⟨rfl, by simp⟩
  · rw [if_neg hdata]
    exact ⟨rfl, rfl⟩

/-! ## Steps -/

theorem step_push : c.step env (.push chunk) = some c' ↔
    c.fault = none ∧ c' = { c with mpRecvBuffer := c.mpRecvBuffer ++ chunk } := by
  by_cases hf : c.fault = none
  · simp [Conn.step, hf, eq_comm]
  · simp [Conn.step, hf]

theorem Upgraded.procMsg (h : Upgraded p c) (hp : p ≠ []) (hparse : c.parsing = false) :
    Conn.procMsg env s { c with mpRecvBuffer := c.mpRecvBuffer ++ chunk } =
      { c with
        mstMsgCache := c.mstMsgCache.append chunk
        parsing := decide (0 < (c.mstMsgCache.append chunk).pBuffer.length) } := by
  have hproto : c.mstrProtocol ≠ [] := h.protocol ▸ hp
  have harrived : Conn.arrived { c with mpRecvBuffer := chunk } = (c.mstMsgCache.append chunk).pBuffer := rfl
  have hproc : Conn.procMsg env s { c with mpRecvBuffer := chunk } = _ := Conn.procMsg_connect h.state hparse
  rw [h.processed, List.nil_append, hproc, harrived]
  simp only [hproto, ne_eq, not_false_eq_true, and_true, List.length_pos_iff]

theorem Upgraded.arrive (h : Upgraded p c) (hp : p ≠ []) :
    Machine.exec (Conn.step env) c [.push chunk, .proc s] = some c' ↔
      c.fault = none ∧ ∃ r, c.toReceiver.step (.recv chunk) = some r ∧ c' = { c with toReceiver := r } := by
  have hlen : Conn.arrived { c with mpRecvBuffer := c.mpRecvBuffer ++ chunk } = c.mstMsgCache.pBuffer ++ chunk := by
    rw [h.processed]
    rfl
  simp only [Machine.exec_cons_eq_some, Machine.exec_nil, step_push, step_proc, step_recv_eq_some]
  constructor
  · rintro ⟨q, ⟨hf, rfl⟩, q', ⟨⟨_, hparse, hsmall⟩, rfl⟩, he⟩
    rw [hlen, List.length_append] at hsmall
    refine ⟨hf, _, ⟨⟨hparse, hsmall⟩, rfl⟩, ?_⟩
    rw [← Option.some.inj he, h.procMsg hp hparse]
  · rintro ⟨hf, r, ⟨⟨hparse, hsmall⟩, rfl⟩, rfl⟩
    refine ⟨_, ⟨hf, rfl⟩, _, ⟨⟨hf, hparse, ?_⟩, rfl⟩, congrArg some (h.procMsg hp hparse)⟩
    rwa [hlen, List.length_append]

theorem step_decode_receiver (hf : c.fault = none) :
    (c.step env (.decode junk s)).map (fun c => c.toReceiver) = c.toReceiver.step (.decode junk) := by
  have hafter (ret : DecodeRet) : (c.afterDecode env s ret).toReceiver = c.toReceiver.afterCall ret := by
    unfold Conn.afterDecode
    dsimp only
    split
    · rfl
    · split <;> rfl
  by_cases hp : c.parsing = true
  · simp only [Conn.step, Receiver.step, hf, hp, and_self, if_true, Option.map_map]
    exact congrArg (fun f => Option.map f _) (funext hafter)
  · simp [Conn.step, Receiver.step, hp]

/-! ## Runs -/

theorem afterCall_delivered (r : Receiver) (ret : DecodeRet) : r.delivered ⊆ (r.afterCall ret).delivered := by
  unfold Receiver.afterCall
  split
  · exact List.Subset.refl _
  · exact List.subset_append_left _ _

theorem Receiver.step_delivered {x : RecvAct} (h : r.step x = some r') : r.delivered ⊆ r'.delivered := by
  cases x with
  | recv chunk =>
    rw [(step_recv_eq_some.mp h).2]
    exact List.Subset.refl _
  | decode junk =>
    unfold Receiver.step at h
    dsimp only at h
    split at h
    · obtain ⟨ret, _, rfl⟩ := Option.map_eq_some_iff.mp h
      exact afterCall_delivered r ret
    · cases h

theorem ConnInv.step_delivered (h : ConnInv c) (hs : c.step env a = some c') : c.delivered ⊆ c'.delivered := by
  cases a with
  | push chunk =>
    rw [(step_push.mp hs).2]
    exact List.Subset.refl _
  | proc s =>
    obtain ⟨⟨_, hp, _⟩, rfl⟩ := step_proc.mp hs
    by_cases hstate : c.miState = .none
    · rw [Conn.procMsg_none h hstate]
      exact List.Subset.refl _
    · rw [Conn.procMsg_connect (WsState.eq_connect hstate) hp]
      exact List.Subset.refl _
  | decode junk s =>
    obtain ⟨_, ret, _, _, _, hr, _⟩ := h.decode hs
    rw [hr]
    exact afterCall_delivered _ ret

theorem ConnInv.step_connect (h : ConnInv c) (hstate : c.miState = .connect) (hs : c.step env a = some c') :
    c'.miState = .connect ∧ c'.mstrProtocol = c.mstrProtocol ∧
      (Harmless c.mstrProtocol c'.delivered → c'.fault = none ∧ c'.httpCalls = c.httpCalls) := by
  have hf := Conn.step_fault hs
  cases a with
  | push chunk =>
    rw [(step_push.mp hs).2]
    exact ⟨hstate, rfl, fun _ => ⟨hf, rfl⟩⟩
  | proc s =>
    obtain ⟨⟨_, hp, _⟩, rfl⟩ := step_proc.mp hs
    rw [Conn.procMsg_connect hstate hp]
    exact ⟨hstate, rfl, fun _ => ⟨hf, rfl⟩⟩
  | decode junk s =>
    obtain ⟨_, ret, _, _, _, hr, hret, ⟨_, _, hsame⟩ | ⟨m, fs, hm, h1, hb, hproc⟩⟩ := h.decode hs
    · rw [hsame]
      exact ⟨hstate, rfl, fun _ => ⟨hf, rfl⟩⟩
    · have hmem : m ∈ c'.delivered := by
        rw [hr]
        simp [Receiver.afterCall, h1, hret.trans hm]
      rw [hproc]
      refine ⟨Session.miState_procMsg hstate, mstrProtocol_reply_frame hb, fun hharm => ?_⟩
      have hsafe := reply_harmless env s hb (hharm m hmem)
      exact ⟨hsafe.1.trans hf, hsafe.2⟩

theorem step_decode_mpRecvBuffer (hs : c.step env (.decode junk s) = some c') : c'.mpRecvBuffer = c.mpRecvBuffer := by
  unfold Conn.step at hs
  dsimp only at hs
  split at hs
  · obtain ⟨ret, _, rfl⟩ := Option.map_eq_some_iff.mp hs
    unfold Conn.afterDecode
    dsimp only
    split
    · rfl
    · split <;> rfl
  · cases hs

theorem exec_single : Machine.exec (Conn.step env) c [a] = some c' ↔ c.step env a = some c' := by
  rw [Machine.exec_cons_eq_some]
  exact ⟨fun ⟨t, ht, he⟩ => ht.trans he, fun h => ⟨c', h, rfl⟩⟩

theorem Upgraded.serve {x : ServeAct} (h : Upgraded p c) (hp : p ≠ [])
    (he : Machine.exec (Conn.step env) c x.acts = some c') :
    c.toReceiver.step x.recvAct = some c'.toReceiver ∧ Upgraded p c' := by
  have hinv : ConnInv c' := Machine.exec_invariant ConnInv (fun _ _ _ hi hs => hi.step hs) h.inv he
  cases x with
  | arrive chunk s =>
    obtain ⟨_, r, hr, rfl⟩ := (h.arrive hp).mp he
    exact ⟨hr, hinv, h.state, h.protocol, h.processed⟩
  | decode junk s =>
    have hs : c.step env (.decode junk s) = some c' := exec_single.mp he
    obtain ⟨hstate, hproto, _⟩ := h.inv.step_connect h.state hs
    refine ⟨?_, hinv, hstate, hproto.trans h.protocol, (step_decode_mpRecvBuffer hs).trans h.processed⟩
    exact (step_decode_receiver (Conn.step_fault hs)).symm.trans (congrArg (Option.map _) hs)

/-- A connection decodes what it is given as the receiver does. -/
theorem Upgraded.exec {xs : List ServeAct} (h : Upgraded p c) (hp : p ≠ [])
    (he : Machine.exec (Conn.step env) c (xs.flatMap ServeAct.acts) = some c') :
    Machine.exec Receiver.step c.toReceiver (xs.map ServeAct.recvAct) = some c'.toReceiver ∧ Upgraded p c' := by
  have hstep : ∀ c x c' r, (c.toReceiver = r ∧ Upgraded p c) → Machine.exec (Conn.step env) c (ServeAct.acts x) = some c' →
      ∃ r', Machine.exec Receiver.step r [x.recvAct] = some r' ∧ (c'.toReceiver = r' ∧ Upgraded p c') := by
    rintro c x c' r ⟨rfl, hu⟩ hs
    obtain ⟨hr, hu'⟩ := hu.serve hp hs
    exact ⟨_, Machine.exec_cons_eq_some.mpr ⟨_, hr, rfl⟩, rfl, hu'⟩
  rw [Machine.exec_flatMap] at he
  obtain ⟨r, hr, rfl, h'⟩ := Machine.exec_simulates _ (fun x => [ServeAct.recvAct x]) hstep ⟨rfl, h⟩ he
  rw [← List.map_eq_flatMap] at hr
  exact ⟨hr, h'⟩

theorem exec_delivered {acts : List ConnAct} (h : ConnInv c) (he : Machine.exec (Conn.step env) c acts = some c') :
    c.delivered ⊆ c'.delivered := by
  have hall := Machine.exec_invariant (fun t => ConnInv t ∧ c.delivered ⊆ t.delivered)
    (fun t a u ⟨hi, hsub⟩ hs => ⟨hi.step hs, List.Subset.trans hsub (hi.step_delivered hs)⟩) ⟨h, List.Subset.refl _⟩ he
  exact hall.2

theorem exec_harmless {acts : List ConnAct} (h : ConnInv c) (hstate : c.miState = .connect) (hf : c.fault = none)
    (he : Machine.exec (Conn.step env) c acts = some c') (hharm : Harmless c.mstrProtocol c'.delivered) :
    c'.fault = none ∧ c'.httpCalls = c.httpCalls := by
  induction acts generalizing c with
  | nil =>
    cases he
    exact ⟨hf, rfl⟩
  | cons a acts ih =>
    obtain ⟨u, hu, hrun⟩ := Machine.exec_cons_eq_some.mp he
    obtain ⟨hstate', hproto, hone⟩ := h.step_connect hstate hu
    have hsub := exec_delivered (h.step hu) hrun
    obtain ⟨hf', hcalls⟩ := hone fun m hm => hharm m (hsub hm)
    obtain ⟨hend, hrest⟩ := ih (h.step hu) hstate' hf' hrun (hproto ▸ hharm)
    exact ⟨hend, hrest.trans hcalls⟩

/-- The receiver has no run that a connection cannot follow. -/
theorem Upgraded.follow (s : Scratch) {acts : List RecvAct} (h : Upgraded p c) (hp : p ≠ []) (hf : c.fault = none)
    (he : Machine.exec Receiver.step c.toReceiver acts = some r') (hharm : Harmless p r'.delivered) :
    ∃ (xs : List ServeAct) (c' : Conn), xs.map ServeAct.recvAct = acts ∧ Machine.exec (Conn.step env) c (xs.flatMap ServeAct.acts) = some c' ∧
      c'.toReceiver = r' := by
  induction acts generalizing c with
  | nil =>
    cases he
    exact ⟨[], c, rfl, rfl, rfl⟩
  | cons a acts ih =>
    obtain ⟨r, hr, hrun⟩ := Machine.exec_cons_eq_some.mp he
    have hsub : r.delivered ⊆ r'.delivered :=
      Machine.exec_invariant (fun t => r.delivered ⊆ t.delivered) (fun t a u hs ht => List.Subset.trans hs (Receiver.step_delivered ht))
        (List.Subset.refl _) hrun
    obtain ⟨x, u, hx, hu, hur⟩ : ∃ x u, ServeAct.recvAct x = a ∧ Machine.exec (Conn.step env) c x.acts = some u ∧
        u.toReceiver = r := by
      cases a with
      | recv chunk => exact ⟨.arrive chunk s, _, rfl, (h.arrive hp).mpr ⟨hf, r, hr, rfl⟩, rfl⟩
      | decode junk =>
        have hmap : (c.step env (.decode junk s)).map (fun c => c.toReceiver) = some r := (step_decode_receiver hf).trans hr
        obtain ⟨u, hu, hur⟩ := Option.map_eq_some_iff.mp hmap
        exact ⟨.decode junk s, u, rfl, exec_single.mpr hu, hur⟩
    have hu' := (h.serve hp hu).2
    have hharm' : Harmless c.mstrProtocol u.delivered := fun m hm => h.protocol ▸ hharm m (hsub (hur ▸ hm))
    obtain ⟨hfu, _⟩ := exec_harmless h.inv h.state hf hu hharm'
    obtain ⟨xs, c', hxs, hc', hr'⟩ := ih hu' hfu (hur ▸ hrun)
    refine ⟨x :: xs, c', by rw [List.map_cons, hx, hxs], ?_, hr'⟩
    rw [List.flatMap_cons]
    exact Machine.exec_append.mpr ⟨u, hu, hc'⟩

end SrWebSocket
