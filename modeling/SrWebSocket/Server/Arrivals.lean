import SrWebSocket.Server.Answers
import SrWebSocket.Server.Handshake

/-! # The stream of a connection under any order of arrivals

Bytes may be pushed at any time, also while `ParseMsg` runs, and a `ProcMsg` moves
all that was pushed since the one before. So after its upgrade a connection decodes
what a receiver decodes that is given the pushed chunks with some of them joined.
-/
namespace SrWebSocket

/-- The pushed chunks in their order, some of them joined, and those behind them. -/
def Joined (pushes chunks left : List (List UInt8)) : Prop :=
  ∃ gs : List (List (List UInt8)), pushes = gs.flatten ++ left ∧ chunks = gs.map List.flatten

def ConnAct.pushes : ConnAct → List (List UInt8)
  | .push pMsg => [pMsg]
  | .proc _ | .decode _ _ => []

/-- A connection that was upgraded with the protocol `p` after the handler calls
`evs`, and has been given the chunks `pushes` since then. -/
structure Streams (env : Env) (p : List UInt8) (evs : List Event) (pushes : List (List UInt8)) (c : Conn) : Prop where
  inv : ConnInv c
  state : c.miState = .connect
  protocol : c.mstrProtocol = p
  stream : ∃ acts left, Machine.exec Receiver.step .start acts = some c.toReceiver ∧
    Joined pushes (received acts) left ∧ c.mpRecvBuffer = left.flatten
  events : c.events = evs ++ c.delivered.filterMap (answer env p)

variable {env : Env} {p : List UInt8} {evs : List Event} {pushes chunks left us : List (List UInt8)} {c c' : Conn}
  {a : ConnAct} {acts : List ConnAct} {s : Scratch}

theorem joined_nil : Joined [] [] [] := ⟨[], rfl, rfl⟩

theorem Joined.push (h : Joined pushes chunks left) (chunk : List UInt8) :
    Joined (pushes ++ [chunk]) chunks (left ++ [chunk]) := by
  obtain ⟨gs, rfl, rfl⟩ := h
  exact ⟨gs, List.append_assoc _ _ _, rfl⟩

theorem Joined.move (h : Joined pushes chunks left) : Joined pushes (chunks ++ [left.flatten]) [] := by
  obtain ⟨gs, rfl, rfl⟩ := h
  exact ⟨gs ++ [left], by simp, by simp⟩

theorem Joined.flatten (h : Joined pushes chunks left) : pushes.flatten = chunks.flatten ++ left.flatten := by
  obtain ⟨gs, rfl, rfl⟩ := h
  rw [List.flatten_append, List.flatten_flatten]

/-- Joining chunks makes no new cut. -/
theorem CutsSafe.joined (h : CutsSafe us pushes) (hj : Joined pushes chunks left) : CutsSafe us chunks := by
  obtain ⟨gs, rfl, rfl⟩ := hj
  intro done u more pre post part hus hchunks hpre hpart h2
  obtain ⟨gs₁, gs₂, rfl, rfl, rfl⟩ := List.map_eq_append_iff.mp hchunks
  refine h done u more gs₁.flatten (gs₂.flatten ++ left) part hus (by simp) ?_ hpart h2
  rw [← hpre, List.flatten_flatten]

/-! ## Steps -/

theorem Streams.step (h : Streams env p evs pushes c) (hp : p ≠ []) (hs : c.step env a = some c') :
    Streams env p evs (pushes ++ a.pushes) c' := by
  obtain ⟨hinv, hstate, hproto, ⟨racts, left, hrun, hjoin, hbuf⟩, hev⟩ := h
  have hinv' := hinv.step hs
  cases a with
  | push chunk =>
    obtain ⟨_, rfl⟩ := step_push.mp hs
    refine ⟨hinv', hstate, hproto, ⟨racts, left ++ [chunk], hrun, hjoin.push chunk, ?_⟩, hev⟩
    simp [hbuf]
  | proc s =>
    obtain ⟨⟨_, hidle, hlen⟩, rfl⟩ := step_proc.mp hs
    have hmove : c.procMsg env s = _ := Conn.procMsg_connect hstate hidle
    have hlen' : c.mstMsgCache.pBuffer.length + left.flatten.length < 2 ^ 63 := by
      rwa [Conn.arrived, hbuf, List.length_append] at hlen
    have hrecv : c.toReceiver.step (.recv left.flatten) = some (c.procMsg env s).toReceiver := by
      refine step_recv_eq_some.mpr ⟨⟨hidle, hlen'⟩, ?_⟩
      have hpos : (c.arrived ≠ [] ∧ c.mstrProtocol ≠ []) ↔ 0 < (c.mstMsgCache.append left.flatten).pBuffer.length := by
        rw [hproto, and_iff_left hp, Conn.arrived, hbuf, List.length_pos_iff]
        exact Iff.rfl
      rw [hmove, ← hbuf, decide_eq_decide.mpr (hbuf ▸ hpos)]
    rw [ConnAct.pushes, List.append_nil]
    refine ⟨hinv', ?_, ?_, ⟨racts ++ [.recv left.flatten], [], ?_, ?_, ?_⟩, ?_⟩
    · rw [hmove, hstate]
    · rw [hmove, hproto]
    · exact Machine.exec_append.mpr ⟨_, hrun, Machine.exec_one hrecv⟩
    · rw [received_append]
      exact hjoin.move
    · rw [hmove, List.flatten_nil]
    · rw [hmove]
      exact hev
  | decode junk s =>
    have hdecode : c.toReceiver.step (.decode junk) = some c'.toReceiver :=
      (step_decode_receiver (Conn.step_fault hs)).symm.trans (congrArg (Option.map _) hs)
    obtain ⟨hstate', hproto', _⟩ := hinv.step_connect hstate hs
    rw [ConnAct.pushes, List.append_nil]
    refine ⟨hinv', hstate', hproto'.trans hproto, ⟨racts ++ [.decode junk], left, ?_, ?_, ?_⟩, ?_⟩
    · exact Machine.exec_append.mpr ⟨_, hrun, Machine.exec_one hdecode⟩
    · rw [received_append, received, received, List.append_nil]
      exact hjoin
    · exact (step_decode_mpRecvBuffer hs).trans hbuf
    · obtain ⟨_, ret, _, _, _, hr, hret, ⟨_, h0, hsame⟩ | ⟨m, gs, hm, h1, hb, hproc⟩⟩ := hinv.decode hs
      · rw [hsame, hr]
        simpa [Receiver.afterCall, h0] using hev
      · have hdel : c'.delivered = c.delivered ++ [m] := by
          rw [hr]
          simp [Receiver.afterCall, h1, hret.trans hm]
        rw [hproc, events_reply_frame _ hstate hb, hev, hdel, List.filterMap_append, hproto]
        cases ha : answer env p m <;> simp [ha]

theorem Streams.exec (h : Streams env p evs pushes c) (hp : p ≠ []) (hrun : Machine.exec (Conn.step env) c acts = some c') :
    Streams env p evs (pushes ++ acts.flatMap ConnAct.pushes) c' := by
  induction acts generalizing pushes c with
  | nil =>
    cases hrun
    rwa [List.flatMap_nil, List.append_nil]
  | cons a acts ih =>
    obtain ⟨u, hu, hrun⟩ := Machine.exec_cons_eq_some.mp hrun
    rw [List.flatMap_cons, ← List.append_assoc]
    exact ih (h.step hp hu) hrun

/-! ## The upgrade -/

theorem upgradeProcMsg_ne_nil {lib : BaseLibrary} {stack : ℤ → UInt8} {httpMsg : List UInt8} {pRet : Option (List UInt8)}
    (h : upgradeProcMsg lib stack httpMsg = .returns pRet (some p)) : p ≠ [] := by
  unfold upgradeProcMsg at h
  split at h
  · cases h
  dsimp only at h
  split at h
  · cases h
  split at h
  · cases h
  split at h
  · cases h
  split at h
  · cases h
    split
    · assumption
    · decide
  · cases h

/-- The step that upgrades a connection leaves it with nothing decoded or buffered. -/
theorem streams_upgraded (hrun : Machine.exec (Conn.step env) .start acts = some c) (hnone : c.miState = .none)
    (hs : c.step env a = some c') (hconn : c'.miState = .connect) :
    c'.mstrProtocol ≠ [] ∧ Streams env c'.mstrProtocol c'.events [] c' := by
  have hans := answered_start.exec connInv_start hrun
  have hinv := Machine.exec_invariant ConnInv (fun _ _ _ hinv hs => hinv.step hs) connInv_start hrun
  have hinv' := hinv.step hs
  obtain ⟨hfresh, hidle⟩ := hinv.waiting hnone
  have hdel : c.delivered = [] := by
    cases hans with
    | pages _ _ hdel _ _ => exact hdel
    | failed _ _ hdel _ _ => exact hdel
    | upgraded _ _ _ _ hconn _ _ _ _ => exact absurd (hnone.symm.trans hconn) (by decide)
  have hreceiver : c.toReceiver = .start := by
    have hpending := hinv.pending
    rcases hc : c.toReceiver with ⟨cache, msg, parsing, delivered⟩
    rw [hc] at hfresh hidle hdel hpending
    cases hfresh
    cases hpending
    cases hidle
    cases hdel
    rfl
  cases a with
  | push chunk =>
    obtain ⟨_, rfl⟩ := step_push.mp hs
    exact absurd (hnone.symm.trans hconn) (by decide)
  | decode junk s => exact absurd (hnone.symm.trans (hinv.decode hs).1) (by decide)
  | proc s =>
    obtain ⟨_, rfl⟩ := step_proc.mp hs
    have hprotocol : (c.procMsg env s).mstrProtocol ≠ [] := by
      have hans' := hans.step hinv hs
      cases hans' with
      | pages _ hstate _ _ _ => exact absurd (hstate.symm.trans hconn) (by decide)
      | failed _ hstate _ _ _ => exact absurd (hstate.symm.trans hconn) (by decide)
      | upgraded _ _ _ _ _ _ hret _ _ => exact upgradeProcMsg_ne_nil hret
    have hproc : c.procMsg env s = _ := Conn.procMsg_none hinv hnone
    have hstart : (c.procMsg env s).toReceiver = .start := by rw [hproc, hreceiver]
    have hdel' : (c.procMsg env s).delivered = [] := by rw [hproc, hdel]
    refine ⟨hprotocol, hinv', hconn, rfl, ⟨[], [], congrArg some hstart.symm, joined_nil, ?_⟩, ?_⟩
    · rw [hproc]
      rfl
    · rw [hdel', List.filterMap_nil, List.append_nil]

/-! ## What is delivered -/

variable {ms : List WireMsg} {os : List (List UInt8)}

theorem not_conflict_tail (ms : List WireMsg) (ho : OpenFrames os) {t : List UInt8} (ht : frameUnits.size t = none) :
    ¬Conflict (ms.flatMap WireMsg.wire ++ os.flatten ++ t) := by
  have hrow : ms.flatMap WireMsg.wire ++ os.flatten ++ t = (ms.map WireMsg.frames).flatten.flatten ++ (os.flatten ++ t) := by
    simp [flatMap_wire]
  refine not_conflict_of_groups hrow ?_ (fun u hu => (ho u hu).1) (fun u hu => (ho u hu).2) ht
  intro g hg
  obtain ⟨m, _, rfl⟩ := List.mem_map.mp hg
  exact ⟨frameGroup_frames m, m.frames_not_clash⟩

/-- What a connection was sent is the messages it has handed out and what is still in its
buffers, whatever the cuts and the memory; a frame that the decoder takes for none, and
all behind it, stays there. -/
theorem Streams.accounts (h : Streams env p evs pushes c) (ho : OpenFrames os) {t : List UInt8}
    (ht : frameUnits.size t = none) (hsent : pushes.flatten <+: ms.flatMap WireMsg.wire ++ os.flatten ++ t) :
    ∃ ms₁ ms₂, ms = ms₁ ++ ms₂ ∧ c.delivered = ms₁.map WireMsg.message ∧
      pushes.flatten = ms₁.flatMap WireMsg.wire ++ c.arrived := by
  obtain ⟨acts, left, hrun, hjoin, hbuf⟩ := h.stream
  obtain ⟨more, hmore⟩ := hsent
  have hall : (received acts).flatten ++ (left.flatten ++ more) = ms.flatMap WireMsg.wire ++ os.flatten ++ t := by
    rw [← hmore, hjoin.flatten, List.append_assoc]
  have hno : ¬Conflict ([] ++ (received acts).flatten) := by
    intro hc
    rw [List.nil_append] at hc
    exact not_conflict_tail ms ho ht (hall ▸ hc.append _)
  obtain ⟨gs, fs, rest, htr⟩ := tracks_start.exec hrun hno
  rw [List.nil_append] at htr
  have hrow : (gs.flatten ++ fs).flatten ++ (rest ++ (left.flatten ++ more)) =
      ((ms.map WireMsg.frames).flatten ++ os).flatten ++ t := by
    have hsent : ((ms.map WireMsg.frames).flatten ++ os).flatten = ms.flatMap WireMsg.wire ++ os.flatten := by
      rw [List.flatten_append, ← flatMap_wire]
    rw [hsent, ← hall, htr.stream]
    simp
  have hwhole : ∀ u ∈ (ms.map WireMsg.frames).flatten ++ os, frameUnits.Whole u :=
    List.forall_mem_append.mpr ⟨fun u hu => frames_whole_of_mem hu, fun u hu => (ho u hu).1⟩
  obtain ⟨ws, hws, _⟩ := Framing.parse_maximal (fun u hu => htr.whole_of_mem hu) hwhole hrow ht
  obtain ⟨ms₁, ms₂, rfl, rfl, hdel, _⟩ := htr.messages ho hws
  refine ⟨ms₁, ms₂, rfl, hdel, ?_⟩
  rw [hjoin.flatten, htr.stream, ← htr.scanned.buffer, ← flatMap_wire, ← hbuf, List.append_assoc]
  rfl

/-- A connection hands out the messages that it is sent, in their order, whatever
the cuts and the memory. -/
theorem Streams.delivered_prefix (h : Streams env p evs pushes c) (ho : OpenFrames os)
    (hsent : pushes.flatten <+: ms.flatMap WireMsg.wire ++ os.flatten) : c.delivered <+: ms.map WireMsg.message := by
  obtain ⟨ms₁, ms₂, rfl, hdel, _⟩ := h.accounts ho Framing.size_nil (by rwa [List.append_nil])
  rw [hdel, List.map_append]
  exact List.prefix_append _ _

/-- With safe cuts a connection that has used all its bytes has handed out every message. -/
theorem Streams.delivered_all (h : Streams env p evs pushes c) (ho : OpenFrames os)
    (hwire : pushes.flatten = ms.flatMap WireMsg.wire ++ os.flatten)
    (hsafe : CutsSafe (ms.flatMap WireMsg.frames ++ os) pushes) (hidle : c.parsing = false)
    (hmoved : c.mpRecvBuffer = []) : c.delivered = ms.map WireMsg.message := by
  obtain ⟨acts, left, hrun, hjoin, hbuf⟩ := h.stream
  have hflat := hjoin.flatten
  rw [← hbuf, hmoved, List.append_nil, hwire] at hflat
  exact Feeds.delivered_open ho hflat.symm (hsafe.joined hjoin) ⟨acts, rfl, hrun, hidle⟩

end SrWebSocket
