import SrWebSocket.Parse.CacheRuns

/-! # What a call hands out

A message is allocated and filled before the opcodes of its later frames are
looked at, and the assertion on them returns 1. So a call may hand out a message
that is not all there, and it does exactly when the frames up to the first FIN bit
carry two different opcodes other than 0.
-/
namespace SrWebSocket

/-- The frames from the start of the bytes up to the first FIN bit. -/
structure FrontGroup (bytes : List UInt8) (g : List (List UInt8)) (t : List UInt8) : Prop where
  buffer : bytes = g.flatten ++ t
  whole : ∀ u ∈ g, frameUnits.Whole u
  group : Group isFin g

/-- The first message of the buffer is all there, and two of its frames name
different messages. -/
def FrontClashes (c : WsMsgCache) : Prop := ∃ g t, FrontGroup c.pBuffer g t ∧ Clash g

/-- A call hands out the first message of the buffer as a whole, or nothing. -/
structure HandsOutWhole (c : WsMsgCache) (ret : DecodeRet) : Prop where
  message : ret.iRet ≠ 0 → ∃ m g t, ret.pWsMsg = some m ∧ FrontGroup c.pBuffer g t ∧
    m.pBuffer = g.flatMap payload ∧ ret.pMsgCache = .fresh t
  nothing : ret.iRet = 0 → ret.pWsMsg = none ∧ ret.pMsgCache.pBuffer = c.pBuffer

def CallHandsOutWhole (c : WsMsgCache) : CacheAct → Prop
  | .append _ => True
  | .decode junk => ∃ ret, decodeMsg 64 (callFuel c) junk c none = some ret ∧ HandsOutWhole c ret

/-- When the call looks at the buffer, its first message does not clash. -/
def CallMeetsNoClash (c : WsMsgCache) : CacheAct → Prop
  | .append _ => True
  | .decode _ => ¬Stalled c → ¬FrontClashes c

variable {c c' : WsMsgCache} {fs g g' ks : List (List UInt8)} {bytes rest t t' : List UInt8} {junk : ℕ → UInt8}
  {ret : DecodeRet} {acts : List CacheAct}

theorem FrontGroup.unique (h : FrontGroup bytes g t) (h' : FrontGroup bytes g' t') : g = g' ∧ t = t' := by
  have he := h.buffer.symm.trans h'.buffer
  by_cases hle : g.flatten.length ≤ g'.flatten.length
  · obtain ⟨ws, rfl, ht⟩ := Framing.parse_prefix h.whole h'.whole he hle
    obtain ⟨hg, hws⟩ := h.group.unique h'.group (s := ws) (t := []) (by rw [List.append_nil])
    exact ⟨hg, by rw [ht, hws, List.flatten_nil, List.nil_append]⟩
  · obtain ⟨ws, rfl, ht⟩ := Framing.parse_prefix h'.whole h.whole he.symm (by omega)
    obtain ⟨hg, hws⟩ := h'.group.unique h.group (s := ws) (t := []) (by rw [List.append_nil])
    exact ⟨hg.symm, by rw [ht, hws, List.flatten_nil, List.nil_append]⟩

theorem FrontGroup.clashes_iff (h : FrontGroup c.pBuffer g t) : FrontClashes c ↔ Clash g := by
  refine ⟨fun ⟨g', t', h', hc⟩ => ?_, fun hc => ⟨g, t, h, hc⟩⟩
  obtain ⟨rfl, _⟩ := h.unique h'
  exact hc

/-- Frames without FIN, and no further whole one, hold no message. -/
theorem not_frontGroup_of_open (hb : bytes = fs.flatten ++ t) (hfs : ∀ u ∈ fs, isFin u = false)
    (hw : ∀ u ∈ fs, frameUnits.Whole u) (hnone : frameUnits.size t = none) : ¬FrontGroup bytes g t' := by
  intro h
  obtain ⟨ws, rfl, _⟩ := Framing.parse_maximal h.whole hw (h.buffer.symm.trans hb) hnone
  obtain ⟨init, u, rfl, _, hu⟩ := h.group
  exact absurd (hfs u (by simp)) (by simp [hu])

theorem RunInv.frontGroup (h : RunInv c fs (ks.flatten ++ t)) (hc : c.iComplete = false)
    (hks : ∀ u ∈ ks, frameUnits.Whole u) (hg : Group isFin ks) : FrontGroup c.pBuffer (fs ++ ks) t where
  buffer := by simp [h.scanned.buffer]
  whole := List.forall_mem_append.mpr ⟨h.scanned.whole, hks⟩
  group := Group.append_open (h.opened hc) hg

/-- As long as no assertion on the opcodes has failed, a call hands out the first
message as a whole, or nothing, exactly when the message does not clash; and then
no assertion has failed after it either. -/
theorem RunInv.handsOut (h : RunInv c fs rest) (hc : c.iComplete = false) (hret : CallResult c fs rest junk ret) :
    (HandsOutWhole c ret ↔ (¬Stalled c → ¬FrontClashes c)) ∧
      (HandsOutWhole c ret → ret.pMsgCache.iComplete = false) := by
  cases hret with
  | stalled hst he =>
    subst he
    exact ⟨⟨fun _ hgo => absurd hst hgo, fun _ => ⟨fun hne => absurd rfl hne, fun _ => ⟨rfl, rfl⟩⟩⟩, fun _ => hc⟩
  | message hst ks t hrest hks hg hno he =>
    subst he hrest
    have hfront := h.frontGroup hc hks hg
    have hwhole : HandsOutWhole c ⟨1, .fresh t, some (messageOf (fs ++ ks))⟩ :=
      ⟨fun _ => ⟨_, _, _, rfl, hfront, messageOf_pBuffer hno, rfl⟩, fun h0 => absurd h0 one_ne_zero⟩
    exact ⟨⟨fun _ _ => mt hfront.clashes_iff.mp hno, fun _ => hwhole⟩, fun _ => rfl⟩
  | clash hst ks t hrest hks hg hclash he =>
    subst he hrest
    have hfront := h.frontGroup hc hks hg
    have hhalf : ¬HandsOutWhole c
        ⟨1, { c.acceptAll ks with iComplete := true }, some (messageOf (fs ++ ks))⟩ := by
      intro hwhole
      obtain ⟨_, _, _, _, _, _, hfresh⟩ := hwhole.message one_ne_zero
      exact absurd (congrArg WsMsgCache.iComplete hfresh) (by simp [WsMsgCache.fresh])
    exact ⟨⟨fun hwhole => absurd hwhole hhalf, fun hno => absurd (hfront.clashes_iff.mpr hclash) (hno hst)⟩,
      fun hwhole => absurd hwhole hhalf⟩
  | waiting hst ks t hrest hks ho hnone hcomplete he =>
    subst he hrest
    have hacc := h.acceptAll hks ho
    have hopen : (c.acceptAll ks).iComplete = false := (acceptAll_iComplete c ks).trans hc
    have hbuf := (scanStop_pBuffer junk (c.acceptAll ks)).trans (acceptAll_pBuffer c ks)
    have hstop := (scanned_scanStop hacc.scanned hacc.remembered junk).2.2.trans hopen
    refine ⟨⟨fun _ _ => ?_, fun _ => ⟨fun hne => absurd rfl hne, fun _ => ⟨rfl, hbuf⟩⟩⟩, fun _ => hstop⟩
    rintro ⟨g, t', hg, _⟩
    have hb : c.pBuffer = (fs ++ ks).flatten ++ t := (acceptAll_pBuffer c ks).symm.trans hacc.scanned.buffer
    exact not_frontGroup_of_open hb (hacc.opened hopen) hacc.scanned.whole hnone hg
  | again hst ks t hrest hks ho hnone hcomplete he => exact absurd (hc.symm.trans hcomplete) (by simp)

theorem callHandsOutWhole_iff (h : decodeMsg 64 (callFuel c) junk c none = some ret) :
    CallHandsOutWhole c (.decode junk) ↔ HandsOutWhole c ret :=
  ⟨fun ⟨_, hret, hw⟩ => Option.some.inj (h.symm.trans hret) ▸ hw, fun hw => ⟨ret, h, hw⟩⟩

/-- In a run of appends and calls every call hands out a whole message or nothing
exactly when no call meets a first message that clashes. -/
theorem handsOutWhole_iff (acts : List CacheAct) (c : WsMsgCache)
    (hrun : Machine.exec WsMsgCache.step (.fresh []) acts = some c) :
    Machine.EachStep WsMsgCache.step CallHandsOutWhole (.fresh []) acts ↔
      Machine.EachStep WsMsgCache.step CallMeetsNoClash (.fresh []) acts := by
  refine Machine.eachStep_iff (fun c => c.iComplete = false ∧ ∃ fs rest, RunInv c fs rest) ?_ ?_
    ⟨rfl, [], [], runInv_fresh (Nat.two_pow_pos 63)⟩ hrun
  · rintro c a c' ⟨hc, fs, rest, h⟩ hs
    cases a with
    | append chunk => exact Iff.rfl
    | decode junk =>
      obtain ⟨ret, hcall, hret, _⟩ := h.step_decode hs
      exact (callHandsOutWhole_iff hcall).trans (h.handsOut hc hret).1
  · rintro c a c' ⟨hc, fs, rest, h⟩ hwhole hs
    refine ⟨?_, h.step hs⟩
    cases a with
    | append chunk =>
      obtain ⟨_, he⟩ := Option.ite_none_right_eq_some.mp hs
      exact Option.some.inj he ▸ hc
    | decode junk =>
      obtain ⟨ret, hcall, hret, rfl⟩ := h.step_decode hs
      exact (h.handsOut hc hret).2 ((callHandsOutWhole_iff hcall).mp hwhole)

theorem handsOutWhole_text :
    Machine.EachStep WsMsgCache.step CallHandsOutWhole (.fresh []) [.append [0x81, 1, 97], .decode fun _ => 0xff] ↔
      Machine.EachStep WsMsgCache.step CallMeetsNoClash (.fresh []) [.append [0x81, 1, 97], .decode fun _ => 0xff] :=
  handsOutWhole_iff [.append [0x81, 1, 97], .decode fun _ => 0xff] (.fresh []) (by decide)

/-- A PING between the fragments of a TEXT message: the first fragment alone is
handed out, and nothing leaves the buffer. -/
theorem handsOut_half :
    Machine.exec WsMsgCache.step (.fresh []) [.append [0x01, 1, 97, 0x89, 1, 98]] = some (.fresh [0x01, 1, 97, 0x89, 1, 98]) ∧
    decodeMsg 64 7 (fun _ => 0) (.fresh [0x01, 1, 97, 0x89, 1, 98]) none =
      some ⟨1, ⟨[0x01, 1, 97, 0x89, 1, 98], 6, 0, 2, true⟩, some ⟨[97], wsFrameText⟩⟩ ∧
    ¬HandsOutWhole (.fresh [0x01, 1, 97, 0x89, 1, 98])
      ⟨1, ⟨[0x01, 1, 97, 0x89, 1, 98], 6, 0, 2, true⟩, some ⟨[97], wsFrameText⟩⟩ := by
  refine ⟨by decide, by decide, fun hwhole => ?_⟩
  obtain ⟨_, _, _, _, _, _, hfresh⟩ := hwhole.message one_ne_zero
  have hcomplete : true = false := congrArg WsMsgCache.iComplete hfresh
  cases hcomplete

/-! ## The frames that are taken for one message -/

/-- The bytes of the frames `g` have left the buffer. -/
structure Removed (c : WsMsgCache) (ret : DecodeRet) (g : List (List UInt8)) : Prop where
  nonempty : g ≠ []
  whole : ∀ u ∈ g, frameUnits.Whole u
  buffer : c.pBuffer = g.flatten ++ ret.pMsgCache.pBuffer

/-- The fragments of one message by the rules of the wire format. -/
structure Fragments (g : List (List UInt8)) (m : WsMsg) : Prop where
  group : Group isFin g
  shape : ∃ u us, g = u :: us ∧ opcode u ≠ 0 ∧ (∀ v ∈ us, opcode v = 0) ∧ (8 ≤ (opcode u).toNat → us = []) ∧
    m.frameType = opcode u

/-- What the decoder takes for the fragments of one message: every opcode other
than 0 names the message, on whatever frame it is. -/
structure TakenAsFragments (g : List (List UInt8)) (m : WsMsg) : Prop where
  group : Group isFin g
  named : ∀ u ∈ g, opcode u = 0 ∨ opcode u = m.frameType
  type : m.frameType = ((g.map opcode).find? fun op => op ≠ 0).getD 0

theorem messageOf_type (g : List (List UInt8)) :
    (messageOf g).frameType = ((g.map opcode).find? fun op => op ≠ 0).getD 0 := by
  have h : ∀ m : WsMsg, m.frameType = 0 →
      (assemble m g).1.frameType = ((g.map opcode).find? fun op => op ≠ 0).getD 0 := by
    induction g with
    | nil => exact fun m hm => hm
    | cons u g ih =>
      intro m hm
      have ht : m.typeAfter u = opcode u := if_pos hm
      have hj : m.Joins u := Or.inl ht
      rw [assemble, if_pos hj, List.map_cons]
      by_cases h0 : opcode u = 0
      · rw [ih (m.join u) (ht.trans h0), List.find?_cons_of_neg (by simp [h0])]
      · have hne : (m.join u).frameType ≠ 0 := ht.trans_ne h0
        rw [assemble_frameType hne, List.find?_cons_of_pos (by simpa using h0)]
        exact ht
  exact h WsMsg.empty rfl

theorem opcode_eq_type (h : ¬Clash g) {u : List UInt8} (hu : u ∈ g) :
    opcode u = 0 ∨ opcode u = (messageOf g).frameType := by
  by_cases h0 : opcode u = 0
  · exact Or.inl h0
  apply Or.inr
  rw [messageOf_type]
  cases hfind : (g.map opcode).find? fun op => op ≠ 0 with
  | none => exact absurd (List.find?_eq_none.mp hfind _ (List.mem_map_of_mem hu)) (by simpa using h0)
  | some op =>
    obtain ⟨v, hv, rfl⟩ := List.mem_map.mp (List.mem_of_find?_eq_some hfind)
    have hv0 : opcode v ≠ 0 := by simpa using List.find?_some hfind
    by_contra hne
    exact h ⟨u, hu, v, hv, h0, hv0, hne⟩

theorem Removed.eq_front (h : Removed c ret g) (hfront : FrontGroup c.pBuffer g' ret.pMsgCache.pBuffer) : g = g' := by
  have he := List.append_cancel_right (h.buffer.symm.trans hfront.buffer)
  have hrow : g.flatten ++ [] = g'.flatten ++ [] := by rw [he]
  exact (Framing.parse_unique h.whole hfront.whole hrow Framing.size_nil Framing.size_nil).1

theorem Removed.buffer_ne (h : Removed c ret g) : ret.pMsgCache.pBuffer ≠ c.pBuffer := by
  intro he
  have hlen := congrArg List.length h.buffer
  have hpos := flatten_length_ge h.whole
  have hne := List.length_pos_iff.mpr h.nonempty
  rw [he, List.length_append] at hlen
  omega

/-- Bytes leave the buffer only with a first message that does not clash. -/
theorem RunInv.removed (h : RunInv c fs rest) (hret : CallResult c fs rest junk ret) (hg : Removed c ret g) :
    Group isFin g ∧ ¬Clash g ∧ ret.pWsMsg = some (messageOf g) := by
  cases hret with
  | stalled hst he => exact absurd (congrArg (fun ret => ret.pMsgCache.pBuffer) he) hg.buffer_ne
  | message hst ks t hrest hks hgroup hno he =>
    subst he hrest
    have hc : c.iComplete = false := by
      by_contra hc
      exact hno ((h.clashed (by simpa using hc)).append ks)
    have hfront := h.frontGroup hc hks hgroup
    obtain rfl := hg.eq_front hfront
    exact ⟨hfront.group, hno, rfl⟩
  | clash hst ks t hrest hks hgroup hc he => exact absurd (by rw [he]; exact acceptAll_pBuffer c ks) hg.buffer_ne
  | waiting hst ks t hrest hks ho hnone hcomplete he =>
    exact absurd (by rw [he]; exact (scanStop_pBuffer junk _).trans (acceptAll_pBuffer c ks)) hg.buffer_ne
  | again hst ks t hrest hks ho hnone hcomplete he =>
    refine absurd ?_ hg.buffer_ne
    rw [he, clashedRet_pMsgCache]
    exact (scanStop_pBuffer junk _).trans (acceptAll_pBuffer c ks)

/-- Whatever bytes arrive, the frames that a call takes out of the buffer for a
message end at the first FIN bit, and their opcodes other than 0 are all the type
of the message. -/
theorem removed_takenAsFragments (acts : List CacheAct) (c : WsMsgCache)
    (hrun : Machine.exec WsMsgCache.step (.fresh []) acts = some c) (junk : ℕ → UInt8) (ret : DecodeRet)
    (hcall : decodeMsg 64 (callFuel c) junk c none = some ret) (g : List (List UInt8)) (hg : Removed c ret g) :
    ∃ m, ret.pWsMsg = some m ∧ TakenAsFragments g m := by
  obtain ⟨fs, rest, h⟩ := runInv_exec hrun
  obtain ⟨ret', hcall', hret⟩ := h.result junk
  obtain rfl := Option.some.inj (hcall'.symm.trans hcall)
  obtain ⟨hgroup, hno, hm⟩ := h.removed hret hg
  exact ⟨_, hm, hgroup, fun u hu => opcode_eq_type hno hu, messageOf_type g⟩

theorem removed_takenAsFragments_text :
    ∃ m, (some ⟨[97, 98], wsFrameText⟩ : Option WsMsg) = some m ∧ TakenAsFragments [[0x01, 1, 97], [0x80, 1, 98]] m := by
  have hrun : Machine.exec WsMsgCache.step (.fresh []) [.append [0x01, 1, 97, 0x80, 1, 98]] =
      some (.fresh [0x01, 1, 97, 0x80, 1, 98]) := by decide
  have hremoved : Removed (.fresh [0x01, 1, 97, 0x80, 1, 98]) ⟨1, .fresh [], some ⟨[97, 98], wsFrameText⟩⟩
      [[0x01, 1, 97], [0x80, 1, 98]] := ⟨by decide, by decide, by decide⟩
  exact removed_takenAsFragments _ _ hrun (fun _ => 0) ⟨1, .fresh [], some ⟨[97, 98], wsFrameText⟩⟩ (by decide) _
    hremoved

/-- A call on a fresh cache takes the frames `g` for the message `m`, which they are not. -/
def TakenWrongly (g : List (List UInt8)) (m : WsMsg) : Prop :=
  decodeMsg 64 (callFuel (.fresh g.flatten)) (fun _ => 0) (.fresh g.flatten) none = some ⟨1, .fresh [], some m⟩ ∧
    Removed (.fresh g.flatten) ⟨1, .fresh [], some m⟩ g ∧ ¬Fragments g m

/-- A second TEXT frame behind a TEXT fragment, a continuation frame without a
message, a TEXT frame behind such a one, and a PING in two fragments. -/
theorem not_fragments :
    TakenWrongly [[0x01, 1, 97], [0x81, 1, 98]] ⟨[97, 98], wsFrameText⟩ ∧
    TakenWrongly [[0x80, 1, 97]] ⟨[97], wsFrameContinuation⟩ ∧
    TakenWrongly [[0x00, 1, 97], [0x81, 1, 98]] ⟨[97, 98], wsFrameText⟩ ∧
    TakenWrongly [[0x09, 1, 97], [0x80, 1, 98]] ⟨[97, 98], wsFramePing⟩ := by
  refine ⟨⟨by decide, ⟨by decide, by decide, by decide⟩, ?_⟩, ⟨by decide, ⟨by decide, by decide, by decide⟩, ?_⟩,
    ⟨by decide, ⟨by decide, by decide, by decide⟩, ?_⟩, ⟨by decide, ⟨by decide, by decide, by decide⟩, ?_⟩⟩
  · rintro ⟨_, u, us, he, _, hcont, _⟩
    obtain ⟨rfl, rfl⟩ := List.cons.inj he
    exact absurd (hcont _ List.mem_cons_self) (by decide)
  · rintro ⟨_, u, us, he, hne, _⟩
    obtain ⟨rfl, rfl⟩ := List.cons.inj he
    exact hne (by decide)
  · rintro ⟨_, u, us, he, _, _, _, htype⟩
    obtain ⟨rfl, rfl⟩ := List.cons.inj he
    exact absurd htype (by decide)
  · rintro ⟨_, u, us, he, _, _, hcontrol, _⟩
    obtain ⟨rfl, rfl⟩ := List.cons.inj he
    exact absurd (hcontrol (by decide)) (by decide)

end SrWebSocket
