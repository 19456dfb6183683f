import SrWebSocket.Parse.HandedOut
import SrWebSocket.Stream.ReceiveLoop

/-! # Loops that are never left

After a conflict the loop of `ParseMsg` calls `DecodeMsg` on the same buffer again.
A header behind the whole frames of the buffer ends the loop: a call remembers its
length and the next one is turned away, or a call returns 0 at its empty payload. With
fewer than two bytes behind the frames nothing ends it.
-/
namespace SrWebSocket

/-- The bytes are whole frames and fewer than two bytes behind them. -/
def EndsShort (s : List UInt8) : Prop :=
  ∃ (us : List (List UInt8)) (t : List UInt8), s = us.flatten ++ t ∧ (∀ u ∈ us, frameUnits.Whole u) ∧ t.length < 2

/-- A loop that calls `DecodeMsg` on this cache is never left. -/
structure Endless (c : WsMsgCache) : Prop where
  looks : ¬Stalled c
  conflict : Conflict c.pBuffer
  short : EndsShort c.pBuffer

/-- No more calls than this can return non-zero before the loop is left. -/
def WsMsgCache.unread (c : WsMsgCache) : ℕ := if Stalled c then 0 else c.pBuffer.length - c.iCurFrameIndex + 1

variable {c c' : WsMsgCache} {fs g ks : List (List UInt8)} {rest s t : List UInt8} {junk : ℕ → UInt8} {ret : DecodeRet}

/-! ## The bytes of the buffer -/

theorem size_eq_none_of_short (h : t.length < 2) : frameUnits.size t = none := by
  refine size_eq_none.mpr fun hc => ?_
  have hle := hc.headerLen_le
  have htwo := two_le_headerLen (bytesOf t)
  omega

theorem endsShort_append_iff (hks : ∀ u ∈ ks, frameUnits.Whole u) : EndsShort (ks.flatten ++ t) ↔ EndsShort t := by
  constructor
  · rintro ⟨us, r, he, hus, hr⟩
    obtain ⟨ws, rfl, rfl⟩ := Framing.parse_maximal hks hus he (size_eq_none_of_short hr)
    exact ⟨ws, r, rfl, fun u hu => hus u (List.mem_append_right _ hu), hr⟩
  · rintro ⟨us, r, rfl, hus, hr⟩
    exact ⟨ks ++ us, r, by simp, List.forall_mem_append.mpr ⟨hks, hus⟩, hr⟩

theorem endsShort_iff (h : frameUnits.size t = none) : EndsShort t ↔ t.length < 2 := by
  constructor
  · rintro ⟨us, r, rfl, hus, hr⟩
    cases us with
    | nil => exact hr
    | cons u us =>
      have hu := (hus u List.mem_cons_self).size_append (us.flatten ++ r)
      rw [List.flatten_cons, List.append_assoc, hu] at h
      cases h
  · exact fun hlt => ⟨[], t, rfl, by simp, hlt⟩

/-- Where the first message is whole, only the messages behind it can conflict. -/
theorem conflict_append_iff (hg : FrameGroup g) (hno : ¬Clash g) : Conflict (g.flatten ++ t) ↔ Conflict t := by
  constructor
  · rintro ⟨gs, h, r, he, hgs, hh, hc⟩
    cases gs with
    | nil =>
      have hfront : FrontGroup (g.flatten ++ t) h r := ⟨he, hh.whole, hh.group⟩
      obtain ⟨rfl, _⟩ := hfront.unique ⟨rfl, hg.whole, hg.group⟩
      exact absurd hc hno
    | cons k gs =>
      obtain ⟨hk, hgs⟩ := List.forall_mem_cons.mp hgs
      have hfront : FrontGroup (g.flatten ++ t) k (gs.flatten.flatten ++ (h.flatten ++ r)) :=
        ⟨he.trans (by simp), hk.whole, hk.group⟩
      obtain ⟨_, rfl⟩ := hfront.unique ⟨rfl, hg.whole, hg.group⟩
      exact ⟨gs, h, r, rfl, hgs, hh, hc⟩
  · rintro ⟨gs, h, r, rfl, hgs, hh, hc⟩
    exact ⟨g :: gs, h, r, by simp, List.forall_mem_cons.mpr ⟨hg, hgs⟩, hh, hc⟩

theorem ClashFirst.conflict (h : ClashFirst fs) (hfs : ∀ u ∈ fs, frameUnits.Whole u) : Conflict (fs.flatten ++ t) := by
  obtain ⟨g, ws, rfl, hg, hc⟩ := h
  exact ⟨[], g, ws.flatten ++ t, by simp, by simp, ⟨fun u hu => hfs u (List.mem_append_left _ hu), hg⟩, hc⟩

/-! ## One call -/

theorem Scanned.unread_eq (h : Scanned c fs rest) (hst : ¬Stalled c) : c.unread = rest.length + 1 := by
  rw [WsMsgCache.unread, if_neg hst, h.length_eq, Nat.add_sub_cancel_left]

theorem Scanned.not_stalled (h : Scanned c fs rest) (hlen : c.iCurFrameLen = 0) : ¬Stalled c := by
  have he := h.length_eq
  unfold Stalled
  omega

theorem Scanned.buffer_append (h : Scanned c fs (ks.flatten ++ t)) : c.pBuffer = (fs ++ ks).flatten ++ t := by
  rw [h.buffer, List.flatten_append, List.append_assoc]

/-- A call in a loop: it changes nothing about whether the loop is ever left, and it
brings a loop that will be left closer to its end. -/
structure LoopCall (c : WsMsgCache) (ret : DecodeRet) : Prop where
  keeps : ret.iRet ≠ 0 → (Endless ret.pMsgCache ↔ Endless c)
  goesOn : Endless c → ret.iRet ≠ 0
  less : ¬Endless c → ret.iRet ≠ 0 → ret.pMsgCache.unread < c.unread

/-- A whole message leaves the buffer. -/
theorem RunInv.loopCall_message (h : RunInv c fs (ks.flatten ++ t)) (hst : ¬Stalled c) (hks : ∀ u ∈ ks, frameUnits.Whole u)
    (hg : Group isFin ks) (hno : ¬Clash (fs ++ ks)) : LoopCall c ⟨1, .fresh t, some (messageOf (fs ++ ks))⟩ := by
  have hrunning : c.iComplete = false := by
    by_contra hc
    exact hno ((h.clashed (by simpa using hc)).append ks)
  have hfront := h.frontGroup hrunning hks hg
  have hgroup : FrameGroup (fs ++ ks) := ⟨hfront.whole, hfront.group⟩
  have hfresh : ¬Stalled (.fresh t) := (scanned_fresh h.scanned.length_rest_lt).not_stalled rfl
  refine ⟨fun _ => ⟨fun he => ⟨hst, ?_, ?_⟩, fun he => ⟨hfresh, ?_, ?_⟩⟩, fun _ => one_ne_zero, fun _ _ => ?_⟩
  · rw [hfront.buffer]
    exact (conflict_append_iff hgroup hno).mpr he.conflict
  · rw [hfront.buffer]
    exact (endsShort_append_iff hgroup.whole).mpr he.short
  · exact (conflict_append_iff hgroup hno).mp (hfront.buffer ▸ he.conflict)
  · exact (endsShort_append_iff hgroup.whole).mp (hfront.buffer ▸ he.short)
  · have hlen := flatten_length_ge hks
    have hpos := List.length_pos_iff.mpr hg.ne_nil
    have hnext : (WsMsgCache.fresh t).unread = t.length + 1 :=
      (scanned_fresh h.scanned.length_rest_lt).unread_eq hfresh
    rw [hnext, h.scanned.unread_eq hst, List.length_append]
    omega

/-- The cursor moves over frames whose opcodes clash, and the buffer stays. -/
theorem RunInv.loopCall_clash (h : RunInv c fs (ks.flatten ++ t)) (hst : ¬Stalled c) (hks : ∀ u ∈ ks, frameUnits.Whole u)
    (hg : Group isFin ks) (m : WsMsg) : LoopCall c ⟨1, { c.acceptAll ks with iComplete := true }, some m⟩ := by
  have hacc : Scanned { c.acceptAll ks with iComplete := true } (fs ++ ks) t := (h.scanned.acceptAll hks).complete
  have hlook : ¬Stalled { c.acceptAll ks with iComplete := true } :=
    hacc.not_stalled ((acceptAll_iCurFrameLen c ks).trans (if_neg hg.ne_nil))
  have hbuf : ({ c.acceptAll ks with iComplete := true } : WsMsgCache).pBuffer = c.pBuffer := acceptAll_pBuffer c ks
  refine ⟨fun _ => ⟨fun he => ⟨hst, ?_, ?_⟩, fun he => ⟨hlook, ?_, ?_⟩⟩, fun _ => one_ne_zero, fun _ _ => ?_⟩
  · exact hbuf ▸ he.conflict
  · exact hbuf ▸ he.short
  · exact hbuf.symm ▸ he.conflict
  · exact hbuf.symm ▸ he.short
  · have hlen := flatten_length_ge hks
    have hpos := List.length_pos_iff.mpr hg.ne_nil
    change WsMsgCache.unread { c.acceptAll ks with iComplete := true } < c.unread
    rw [hacc.unread_eq hlook, h.scanned.unread_eq hst, List.length_append]
    omega

/-- A call that has failed the assertion on the opcodes before and finds no other FIN bit. -/
theorem RunInv.loopCall_again (h : RunInv c fs (ks.flatten ++ t)) (hst : ¬Stalled c) (hks : ∀ u ∈ ks, frameUnits.Whole u)
    (hnone : frameUnits.size t = none) (hc : c.iComplete = true) (junk : ℕ → UInt8) :
    LoopCall c (clashedRet (fs ++ ks) (SrWebSocket.scanStop junk (c.acceptAll ks))) := by
  have hacc := h.scanned.acceptAll hks
  have hbuf := acceptAll_pBuffer c ks
  have hlen := hacc.length_eq
  have hconflict : Conflict c.pBuffer := by
    rw [h.scanned.buffer]
    exact (h.closed hc).conflict h.scanned.whole
  have hshort : EndsShort c.pBuffer ↔ t.length < 2 := by
    rw [h.scanned.buffer_append, endsShort_append_iff hacc.whole, endsShort_iff hnone]
  rcases scanStop_cases junk (c.acceptAll ks) with ⟨hlt, he⟩ | ⟨hle, he, _⟩ | ⟨hle, he, hpos⟩
  · have hlook : ¬Stalled (c.acceptAll ks) := by
      by_cases hnil : ks = []
      · subst hnil
        exact hst
      · exact hacc.not_stalled ((acceptAll_iCurFrameLen c ks).trans (if_neg hnil))
    have hends : Endless c := ⟨hst, hconflict, hshort.mpr (by omega)⟩
    rw [he]
    exact ⟨fun _ => iff_of_true ⟨hlook, hbuf.symm ▸ hconflict, hbuf.symm ▸ hends.short⟩ hends, fun _ => one_ne_zero,
      fun hno => absurd hends hno⟩
  · have hends : ¬Endless c := fun hends => absurd (hshort.mp hends.short) (by omega)
    rw [he]
    exact ⟨fun hne => absurd rfl hne, fun hyes => absurd hyes hends, fun _ hne => absurd rfl hne⟩
  · -- the call remembers a length, and the next one is turned away
    have hends : ¬Endless c := fun hends => absurd (hshort.mp hends.short) (by omega)
    rw [he]
    rw [hacc.header junk] at hpos ⊢
    have hlarge : t.length < frameSize (memory t fun i => junk ((c.acceptAll ks).iCurFrameIndex + i)) := by
      by_contra hle
      exact size_eq_none.mp hnone ((completeIn_memory t _).mp ⟨hpos, by omega⟩)
    have hstalled : Stalled ((c.acceptAll ks).remember
        (frameSize (memory t fun i => junk ((c.acceptAll ks).iCurFrameIndex + i)))) := by
      change (c.acceptAll ks).pBuffer.length < frameSize _ + (c.acceptAll ks).iCurFrameIndex
      omega
    refine ⟨fun _ => iff_of_false (fun hyes => hyes.looks hstalled) hends, fun hyes => absurd hyes hends, fun _ _ => ?_⟩
    change WsMsgCache.unread (WsMsgCache.remember _ _) < _
    rw [WsMsgCache.unread, if_pos hstalled, h.scanned.unread_eq hst]
    exact Nat.succ_pos _

theorem RunInv.loopCall (h : RunInv c fs rest) (hret : CallResult c fs rest junk ret) : LoopCall c ret := by
  cases hret with
  | stalled hst he =>
    subst he
    exact ⟨fun hne => absurd rfl hne, fun hends => absurd hst hends.looks, fun _ hne => absurd rfl hne⟩
  | message hst ks t hrest hks hg hno he =>
    subst he hrest
    exact h.loopCall_message hst hks hg hno
  | clash hst ks t hrest hks hg hc he =>
    subst he hrest
    exact h.loopCall_clash hst hks hg _
  | waiting hst ks t hrest hks ho hnone hcomplete he =>
    subst he hrest
    have hacc := h.acceptAll hks ho
    have hopen : (c.acceptAll ks).iComplete = false := (acceptAll_iComplete c ks).trans hcomplete
    have hrow : c.pBuffer = ([] : List (List (List UInt8))).flatten.flatten ++ ((fs ++ ks).flatten ++ t) :=
      h.scanned.buffer_append
    have hno : ¬Conflict c.pBuffer :=
      not_conflict_of_groups hrow (by simp) hacc.scanned.whole (hacc.opened hopen) hnone
    exact ⟨fun hne => absurd rfl hne, fun hends => absurd hends.conflict hno, fun _ hne => absurd rfl hne⟩
  | again hst ks t hrest hks ho hnone hcomplete he =>
    subst he hrest
    exact h.loopCall_again hst hks hnone hcomplete junk

/-! ## The loop -/

/-- What holds of a receiver in every run, also after a conflict. -/
structure LoopInv (r : Receiver) : Prop where
  cache : ∃ fs rest, RunInv r.mstMsgCache fs rest
  pending : r.mpMsg = none

variable {r r' : Receiver} {acts : List RecvAct} {a : RecvAct} {chunk : List UInt8}

theorem loopInv_start : LoopInv .start := ⟨⟨[], [], runInv_fresh (Nat.two_pow_pos 63)⟩, rfl⟩

/-- Each call returns, and the loop goes on exactly if it hands out a message. -/
theorem LoopInv.decode (h : LoopInv r) (hp : r.parsing = true) (junk : ℕ → UInt8) :
    ∃ ret, r.step (.decode junk) = some (r.afterCall ret) ∧ LoopCall r.mstMsgCache ret ∧ LoopInv (r.afterCall ret) ∧
      (ret.iRet = 0 ∨ ret.iRet ≠ 0 ∧ ∃ m, ret.pWsMsg = some m) := by
  obtain ⟨fs, rest, hinv⟩ := h.cache
  obtain ⟨ret, hcall, hret⟩ := hinv.result junk
  obtain ⟨ret', _, _, hcall', _, hout⟩ := hinv.call junk
  obtain rfl := Option.some.inj (hcall.symm.trans hcall')
  rw [← h.pending] at hcall
  have hnext : ∃ fs' rest', RunInv ret.pMsgCache fs' rest' := by
    obtain ⟨ks, t, _, ⟨hnext, _⟩ | ⟨hnext, _⟩⟩ := hinv.next hret
    · exact ⟨_, _, hnext⟩
    · exact ⟨_, _, hnext⟩
  refine ⟨ret, step_decode hp hcall, hinv.loopCall hret, ?_, ?_⟩
  · unfold Receiver.afterCall
    rcases hout with ⟨h0, hnone⟩ | ⟨h1, _⟩
    · rw [if_pos h0]
      exact ⟨hnext, hnone⟩
    · rw [if_neg (by omega)]
      exact ⟨hnext, rfl⟩
  · rcases hout with ⟨h0, _⟩ | ⟨h1, m, _, hm, _⟩
    · exact Or.inl h0
    · exact Or.inr ⟨by omega, m, hm⟩

theorem LoopInv.append (h : LoopInv r) (hlen : r.mstMsgCache.pBuffer.length + chunk.length < 2 ^ 63) (parsing : Bool) :
    LoopInv { r with mstMsgCache := r.mstMsgCache.append chunk, parsing := parsing } := by
  obtain ⟨fs, rest, hinv⟩ := h.cache
  exact ⟨⟨fs, rest ++ chunk, hinv.append hlen⟩, h.pending⟩

theorem LoopInv.step (h : LoopInv r) (hs : r.step a = some r') : LoopInv r' := by
  cases a with
  | recv chunk =>
    obtain ⟨⟨_, hlen⟩, rfl⟩ := step_recv_eq_some.mp hs
    exact h.append hlen _
  | decode junk =>
    have hp : r.parsing = true := (Option.ite_none_right_eq_some.mp hs).1
    obtain ⟨ret, hret, _, hnext, _⟩ := h.decode hp junk
    exact Option.some.inj (hret.symm.trans hs) ▸ hnext

theorem loopInv_exec (h : Machine.exec Receiver.step .start acts = some r) : LoopInv r :=
  Machine.exec_invariant LoopInv (fun _ _ _ hi hs => hi.step hs) loopInv_start h

/-- One call in a loop that is never left hands out one message. -/
theorem LoopInv.decode_endless (h : LoopInv r) (hp : r.parsing = true) (he : Endless r.mstMsgCache) (junk : ℕ → UInt8) :
    ∃ r', r.step (.decode junk) = some r' ∧ LoopInv r' ∧ r'.parsing = true ∧ Endless r'.mstMsgCache ∧
      r'.delivered.length = r.delivered.length + 1 := by
  obtain ⟨ret, hstep, hloop, hnext, hout⟩ := h.decode hp junk
  have hne := hloop.goesOn he
  obtain ⟨_, m, hm⟩ := hout.resolve_left hne
  refine ⟨_, hstep, hnext, ?_⟩
  rw [Receiver.afterCall, if_neg hne]
  exact ⟨hp, (hloop.keeps hne).mpr he, by simp [hm]⟩

theorem LoopInv.exec_endless (h : LoopInv r) (hp : r.parsing = true) (he : Endless r.mstMsgCache) (junks : List (ℕ → UInt8)) :
    ∃ r', Machine.exec Receiver.step r (junks.map .decode) = some r' ∧ r'.parsing = true ∧
      r'.delivered.length = r.delivered.length + junks.length := by
  induction junks generalizing r with
  | nil => exact ⟨r, rfl, hp, rfl⟩
  | cons junk junks ih =>
    obtain ⟨u, hu, hnext, hpu, heu, hdel⟩ := h.decode_endless hp he junk
    obtain ⟨r', hrun, hp', hdel'⟩ := ih hnext hpu heu
    refine ⟨r', Machine.exec_cons_eq_some.mpr ⟨u, hu, hrun⟩, hp', ?_⟩
    rw [hdel', hdel, List.length_cons]
    omega

/-- Every other loop is left, whatever memory its calls find. -/
theorem LoopInv.exists_left (h : LoopInv r) (hp : r.parsing = true) (he : ¬Endless r.mstMsgCache) (junks : ℕ → ℕ → UInt8) :
    ∃ n ≤ r.mstMsgCache.unread + 1, ∃ r',
      Machine.exec Receiver.step r ((List.range n).map fun i => .decode (junks i)) = some r' ∧ r'.parsing = false := by
  induction hn : r.mstMsgCache.unread using Nat.strongRecOn generalizing r junks with
  | _ n ih =>
    obtain ⟨ret, hstep, hloop, hnext, hout⟩ := h.decode hp (junks 0)
    rcases hout with h0 | ⟨hne, _⟩
    · refine ⟨1, by omega, r.afterCall ret, Machine.exec_one hstep, ?_⟩
      rw [Receiver.afterCall, if_pos h0]
    · have hafter : r.afterCall ret =
          { r with mstMsgCache := ret.pMsgCache, mpMsg := none, delivered := r.delivered ++ ret.pWsMsg.toList } := if_neg hne
      have hcache : (r.afterCall ret).mstMsgCache = ret.pMsgCache := by rw [hafter]
      have hless := hloop.less he hne
      obtain ⟨k, hk, r', hrun, hleft⟩ := ih _ (hn ▸ hcache ▸ hless) hnext (by rw [hafter]; exact hp)
        (by rw [hcache]; exact fun hyes => he ((hloop.keeps hne).mp hyes)) (fun i => junks (i + 1)) rfl
      refine ⟨k + 1, ?_, r', ?_, hleft⟩
      · rw [hcache] at hk
        omega
      · rw [List.range_succ_eq_map, List.map_cons, List.map_map]
        exact Machine.exec_cons_eq_some.mpr ⟨_, hstep, hrun⟩

/-- A loop that calls `DecodeMsg` is never left, and hands out a message with each call,
if the buffer holds a conflict and ends less than two bytes behind its whole frames; all
others are left after at most one call for each byte behind the cursor and two more. -/
theorem loop_endless_or_left (acts : List RecvAct) (r : Receiver) (hrun : Machine.exec Receiver.step .start acts = some r)
    (hp : r.parsing = true) :
    (Endless r.mstMsgCache → ∀ junks, ∃ r', Machine.exec Receiver.step r (List.map .decode junks) = some r' ∧
      r'.parsing = true ∧ r'.delivered.length = r.delivered.length + junks.length) ∧
    (¬Endless r.mstMsgCache → ∀ junks : ℕ → ℕ → UInt8,
      ∃ n ≤ r.mstMsgCache.pBuffer.length - r.mstMsgCache.iCurFrameIndex + 2, ∃ r',
        Machine.exec Receiver.step r ((List.range n).map fun i => .decode (junks i)) = some r' ∧ r'.parsing = false) := by
  have h := loopInv_exec hrun
  refine ⟨fun he junks => h.exec_endless hp he junks, fun he junks => ?_⟩
  obtain ⟨n, hn, hleft⟩ := h.exists_left hp he junks
  refine ⟨n, hn.trans ?_, hleft⟩
  unfold WsMsgCache.unread
  split <;> omega

/-- A PING between the fragments of a TEXT message, and nothing behind it. -/
theorem endless_pingInText : Endless (.fresh pingInText) where
  looks := by decide
  conflict := by
    have hgroup : FrameGroup [[0x01, 1, 97], [0x89, 1, 98]] :=
      ⟨by decide, [[0x01, 1, 97]], [0x89, 1, 98], rfl, by decide, by decide⟩
    have hclash : Clash [[0x01, 1, 97], [0x89, 1, 98]] :=
      ⟨[0x01, 1, 97], by decide, [0x89, 1, 98], by decide, by decide, by decide, by decide⟩
    exact ⟨[], _, [], rfl, by simp, hgroup, hclash⟩
  short := ⟨[[0x01, 1, 97], [0x89, 1, 98]], [], rfl, by decide, by decide⟩

/-- The header of one more frame ends the loop. -/
theorem not_endless_pingInText : ¬Endless (.fresh (pingInText ++ [0x81, 1])) := by
  intro he
  have hwhole : ∀ u ∈ [[0x01, 1, 97], [0x89, 1, 98]], frameUnits.Whole u := by decide
  have hshort : EndsShort ([[0x01, 1, 97], [0x89, 1, 98]].flatten ++ [0x81, 1]) := he.short
  exact absurd ((endsShort_iff (by decide)).mp ((endsShort_append_iff hwhole).mp hshort)) (by decide)

theorem loop_endless_or_left_ping :
    (∃ r, Machine.exec Receiver.step .start [.recv pingInText] = some r ∧
      ∀ junks, ∃ r', Machine.exec Receiver.step r (List.map .decode junks) = some r' ∧ r'.parsing = true ∧
        r'.delivered.length = junks.length) ∧
    ∃ r, Machine.exec Receiver.step .start [.recv (pingInText ++ [0x81, 1])] = some r ∧
      ∀ junks : ℕ → ℕ → UInt8, ∃ n ≤ 10, ∃ r',
        Machine.exec Receiver.step r ((List.range n).map fun i => .decode (junks i)) = some r' ∧ r'.parsing = false := by
  have hrecv (chunk : List UInt8) (h0 : 0 < chunk.length) (hlen : chunk.length < 2 ^ 63) :
      Machine.exec Receiver.step .start [.recv chunk] = some ⟨.fresh chunk, none, true, []⟩ := by
    refine Machine.exec_one (step_recv_eq_some.mpr ⟨⟨rfl, ?_⟩, ?_⟩)
    · exact (Nat.zero_add _).trans_lt hlen
    · exact congrArg (fun p => Receiver.mk (.fresh chunk) none p []) (decide_eq_true h0).symm
  have hping := hrecv pingInText (by decide) (by decide)
  have hmore := hrecv (pingInText ++ [0x81, 1]) (by decide) (by decide)
  refine ⟨⟨_, hping, fun junks => ?_⟩, ⟨_, hmore, (loop_endless_or_left _ _ hmore rfl).2 not_endless_pingInText⟩⟩
  obtain ⟨r', hrun, hp, hdel⟩ := (loop_endless_or_left _ _ hping rfl).1 endless_pingInText junks
  exact ⟨r', hrun, hp, hdel.trans (Nat.zero_add _)⟩

end SrWebSocket
