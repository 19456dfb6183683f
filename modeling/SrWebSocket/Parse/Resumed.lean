import SrWebSocket.Parse.CacheRuns

/-! # The scan that is taken up again

A call goes on behind the frames that earlier calls have counted, with what they left in
the cache. It hands out what a decoder would that keeps the bytes only and scans them from
their start at each call; the one thing it may do less is to return 0 without a look.
-/
namespace SrWebSocket

/-- A cache and the messages that calls on it have handed out. -/
structure Decoder where
  cache : WsMsgCache
  delivered : List WsMsg

def Decoder.start : Decoder where
  cache := .fresh []
  delivered := []

/-- In sizes of `w` bits. No buffer outgrows half of the address space. -/
def Decoder.step (w : ℕ) (d : Decoder) : CacheAct → Option Decoder
  | .append chunk =>
    if d.cache.pBuffer.length + chunk.length < 2 ^ (w - 1) then some { d with cache := d.cache.append chunk } else none
  | .decode junk =>
    (decodeMsg w (callFuel d.cache) junk d.cache none).map fun ret =>
      { cache := ret.pMsgCache, delivered := d.delivered ++ ret.pWsMsg.toList }

/-- A decoder that has no cursor. -/
structure PlainDecoder where
  bytes : List UInt8
  delivered : List WsMsg

def PlainDecoder.start : PlainDecoder where
  bytes := []
  delivered := []

/-- Each call scans the bytes from their start. -/
def PlainDecoder.step (d : PlainDecoder) : CacheAct → Option PlainDecoder
  | .append chunk =>
    if d.bytes.length + chunk.length < 2 ^ 63 then some { d with bytes := d.bytes ++ chunk } else none
  | .decode junk =>
    (decodeMsg 64 (callFuel (.fresh d.bytes)) junk (.fresh d.bytes) none).map fun ret =>
      { bytes := ret.pMsgCache.pBuffer, delivered := d.delivered ++ ret.pWsMsg.toList }

/-- What the two have in common. -/
def Decoder.plain (d : Decoder) : PlainDecoder where
  bytes := d.cache.pBuffer
  delivered := d.delivered

/-- A call that looks at the buffer, before which no assertion on the opcodes has failed. -/
def Decoder.Looks (d : Decoder) : CacheAct → Prop
  | .append _ => True
  | .decode _ => ¬Stalled d.cache ∧ d.cache.iComplete = false

def CacheAct.isAppend : CacheAct → Bool
  | .append _ => true
  | .decode _ => false

/-- The call hands out and removes what a scan from the start does. -/
def AgreesPlain (c : WsMsgCache) (junk : ℕ → UInt8) (ret : DecodeRet) : Prop :=
  ∃ ret', decodeMsg 64 (callFuel (.fresh c.pBuffer)) junk (.fresh c.pBuffer) none = some ret' ∧
    ret'.iRet = ret.iRet ∧ ret'.pWsMsg = ret.pWsMsg ∧ ret'.pMsgCache.pBuffer = ret.pMsgCache.pBuffer

variable {c : WsMsgCache} {d d' : Decoder} {fs g ks ws : List (List UInt8)} {rest t : List UInt8} {junk : ℕ → UInt8}
  {ret : DecodeRet} {a : CacheAct}

/-! ## Messages of clashing frames -/

theorem assemble_stop {m m' : WsMsg} (h : assemble m g = (m', false)) (ws : List (List UInt8)) :
    assemble m (g ++ ws) = (m', false) := by
  induction g generalizing m with
  | nil => simp [assemble] at h
  | cons u g ih =>
    rw [List.cons_append, assemble]
    rw [assemble] at h
    by_cases hj : m.Joins u
    · rw [if_pos hj] at h ⊢
      exact ih h
    · rw [if_neg hj] at h ⊢
      exact h

/-- What is behind two frames that clash does not get into the message. -/
theorem Clash.messageOf_append (h : Clash g) (ws : List (List UInt8)) : messageOf (g ++ ws) = messageOf g :=
  congrArg Prod.fst ((assemble_stop (assemble_empty_of_clash h) ws).trans (assemble_empty_of_clash h).symm)

/-! ## One call -/

section Plain
variable {bytes : List UInt8} (hsmall : bytes.length < 2 ^ 63) (hw : ∀ u ∈ g, frameUnits.Whole u)
  (hb : bytes = g.flatten ++ t)
include hsmall hw hb

theorem plain_group (hg : Group isFin g) (junk : ℕ → UInt8) :
    decodeMsg 64 (callFuel (.fresh bytes)) junk (.fresh bytes) none = some (assembleRet 1
      { (WsMsgCache.fresh bytes).acceptAll g with iComplete := true } t (assemble WsMsg.empty g)) := by
  have hfresh : Scanned (.fresh bytes) [] (g.flatten ++ t) := hb ▸ scanned_fresh hsmall
  exact decodeMsg_group hfresh hfresh.length_lt hw hg (not_turnedAway (Nat.zero_le _)) le_rfl junk

theorem plain_message (hg : Group isFin g) (hno : ¬Clash g) (junk : ℕ → UInt8) :
    decodeMsg 64 (callFuel (.fresh bytes)) junk (.fresh bytes) none = some ⟨1, .fresh t, some (messageOf g)⟩ := by
  rw [plain_group hsmall hw hb hg, assemble_empty_of_not_clash hno]
  rfl

theorem plain_clash (hg : Group isFin g) (hc : Clash g) (junk : ℕ → UInt8) :
    ∃ c, decodeMsg 64 (callFuel (.fresh bytes)) junk (.fresh bytes) none = some ⟨1, c, some (messageOf g)⟩ ∧
      c.pBuffer = bytes := by
  refine ⟨{ (WsMsgCache.fresh bytes).acceptAll g with iComplete := true }, ?_, acceptAll_pBuffer (.fresh bytes) g⟩
  rw [plain_group hsmall hw hb hg, assemble_empty_of_clash hc]
  rfl

theorem plain_open (ho : ∀ u ∈ g, isFin u = false) (hnone : frameUnits.size t = none) (junk : ℕ → UInt8) :
    ∃ c, decodeMsg 64 (callFuel (.fresh bytes)) junk (.fresh bytes) none = some ⟨0, c, none⟩ ∧ c.pBuffer = bytes := by
  have hfresh : Scanned (.fresh bytes) [] (g.flatten ++ t) := hb ▸ scanned_fresh hsmall
  refine ⟨_, decodeMsg_open hfresh hw ho hnone rfl (not_turnedAway (Nat.zero_le _)) le_rfl junk, ?_⟩
  rw [scanStop_pBuffer, acceptAll_pBuffer]
  rfl

end Plain

/-- A failed assertion fails again in a scan from the start. -/
theorem RunInv.plain_clashFirst (h : RunInv c fs rest) (hfirst : ClashFirst fs) (ws : List (List UInt8))
    (junk : ℕ → UInt8) :
    ∃ c', decodeMsg 64 (callFuel (.fresh c.pBuffer)) junk (.fresh c.pBuffer) none =
      some ⟨1, c', some (messageOf (fs ++ ws))⟩ ∧ c'.pBuffer = c.pBuffer := by
  obtain ⟨g, vs, rfl, hg, hc⟩ := hfirst
  have hwhole := (List.forall_mem_append.mp h.scanned.whole).1
  have hb : c.pBuffer = g.flatten ++ (vs.flatten ++ rest) := by simp [h.scanned.buffer]
  rw [List.append_assoc, hc.messageOf_append]
  exact plain_clash h.scanned.small hwhole hb hg hc junk

/-- A call that the first test or a failed assertion does not end returns what a scan
from the start does. -/
theorem RunInv.agrees (h : RunInv c fs rest) (hret : CallResult c fs rest junk ret) :
    AgreesPlain c junk ret ∨
      (Stalled c ∨ c.iComplete = true) ∧ ret.pWsMsg = none ∧ ret.pMsgCache.pBuffer = c.pBuffer := by
  have hsmall := h.scanned.small
  cases hret with
  | stalled hst he =>
    subst he
    exact Or.inr ⟨Or.inl hst, rfl, rfl⟩
  | message hst ks t hrest hks hg hno he =>
    subst he hrest
    have hopen : c.iComplete = false := by
      by_contra hc
      obtain ⟨g, vs, rfl, _, hclash⟩ := h.closed (Bool.eq_true_of_not_eq_false hc)
      exact hno (List.append_assoc g vs ks ▸ hclash.append (vs ++ ks))
    have hfront : Group isFin (fs ++ ks) := Group.append_open (h.opened hopen) hg
    have hb : c.pBuffer = (fs ++ ks).flatten ++ t := by simp [h.scanned.buffer]
    have hw : ∀ u ∈ fs ++ ks, frameUnits.Whole u := List.forall_mem_append.mpr ⟨h.scanned.whole, hks⟩
    exact Or.inl ⟨_, plain_message hsmall hw hb hfront hno junk, rfl, rfl, rfl⟩
  | clash hst ks t hrest hks hg hclash he =>
    subst he hrest
    have hacc := h.toCacheInv.acceptAll hks
    have hall : RunInv { c.acceptAll ks with iComplete := true } (fs ++ ks) t :=
      ⟨⟨hacc.scanned.complete, hacc.remembered, fun _ => hclash⟩, by simp, fun _ => h.clashFirst hg hclash⟩
    obtain ⟨c', hcall, hbuf⟩ := hall.plain_clashFirst (h.clashFirst hg hclash) [] junk
    have hsame : ({ c.acceptAll ks with iComplete := true } : WsMsgCache).pBuffer = c.pBuffer := acceptAll_pBuffer c ks
    rw [List.append_nil, hsame] at hcall
    exact Or.inl ⟨_, hcall, rfl, rfl, hbuf⟩
  | waiting hst ks t hrest hks ho hnone hcomplete he =>
    subst he hrest
    have hw : ∀ u ∈ fs ++ ks, frameUnits.Whole u := List.forall_mem_append.mpr ⟨h.scanned.whole, hks⟩
    have hopen : ∀ u ∈ fs ++ ks, isFin u = false := List.forall_mem_append.mpr ⟨h.opened hcomplete, ho⟩
    have hb : c.pBuffer = (fs ++ ks).flatten ++ t := by simp [h.scanned.buffer]
    obtain ⟨c', hcall, hbuf⟩ := plain_open hsmall hw hb hopen hnone junk
    refine Or.inl ⟨_, hcall, rfl, rfl, ?_⟩
    rw [hbuf, scanStop_pBuffer, acceptAll_pBuffer]
  | again hst ks t hrest hks ho hnone hcomplete he =>
    subst he hrest
    have hbuf : (SrWebSocket.scanStop junk (c.acceptAll ks)).cache.pBuffer = c.pBuffer := by
      rw [scanStop_pBuffer, acceptAll_pBuffer]
    obtain ⟨c', hcall, hsame⟩ := h.plain_clashFirst (h.closed hcomplete) ks junk
    cases he : SrWebSocket.scanStop junk (c.acceptAll ks) with
    | leave iRet e =>
      rw [he] at hbuf
      exact Or.inl ⟨_, hcall, rfl, rfl, hsame.trans hbuf.symm⟩
    | assertFailed e =>
      rw [he] at hbuf
      exact Or.inr ⟨Or.inr hcomplete, rfl, hbuf⟩

/-! ## Runs -/

theorem Decoder.step_cache (hs : d.step 64 a = some d') : d.cache.step a = some d'.cache := by
  cases a with
  | append chunk =>
    obtain ⟨hlen, he⟩ := Option.ite_none_right_eq_some.mp hs
    cases he
    exact if_pos hlen
  | decode junk =>
    obtain ⟨ret, hcall, rfl⟩ := Option.map_eq_some_iff.mp hs
    exact Option.map_eq_some_iff.mpr ⟨ret, hcall, rfl⟩

theorem Decoder.step_plain (h : RunInv d.cache fs rest) (hs : d.step 64 a = some d') :
    d.plain.step a = some d'.plain ∨ ¬d.Looks a ∧ d'.plain = d.plain := by
  cases a with
  | append chunk =>
    obtain ⟨hlen, he⟩ := Option.ite_none_right_eq_some.mp hs
    cases he
    exact Or.inl (if_pos hlen)
  | decode junk =>
    obtain ⟨ret, hcall, rfl⟩ := Option.map_eq_some_iff.mp hs
    obtain ⟨ret', hcall', hret⟩ := h.result junk
    obtain rfl := Option.some.inj (hcall.symm.trans hcall')
    rcases h.agrees hret with ⟨plain, hplain, _, hmsg, hbuf⟩ | ⟨hwhy, hnone, hbuf⟩
    · refine Or.inl (Option.map_eq_some_iff.mpr ⟨plain, hplain, ?_⟩)
      rw [hmsg, hbuf]
      rfl
    · refine Or.inr ⟨fun ⟨hst, hc⟩ => hwhy.elim hst fun ht => absurd (hc.symm.trans ht) (by decide), ?_⟩
      simp [Decoder.plain, hnone, hbuf]

theorem Decoder.looks_append (h : a.isAppend = true) : d.Looks a := by
  cases a with
  | append chunk => trivial
  | decode junk => cases h

/-- Whatever arrives and however the calls are placed, the messages handed out and the
bytes kept are those of a decoder without a cursor, in a run in which all appends are made
and some of the calls are left out; and none of them when every call looks at the buffer
and no assertion on the opcodes has failed before it. -/
theorem resumed_run (acts : List CacheAct) (d : Decoder) (hrun : Machine.exec (Decoder.step 64) .start acts = some d) :
    ∃ bs, bs.Sublist acts ∧ bs.filter CacheAct.isAppend = acts.filter CacheAct.isAppend ∧
      Machine.exec PlainDecoder.step .start bs = some d.plain ∧
      (Machine.EachStep (Decoder.step 64) Decoder.Looks .start acts → bs = acts) := by
  have hstart : RunInv (.fresh []) [] [] := runInv_fresh (Nat.two_pow_pos 63)
  obtain ⟨bs, _, hsub, happends, hplain, rfl, hall⟩ := Machine.exec_sublist (fun d => ∃ fs rest, RunInv d.cache fs rest)
    Decoder.Looks CacheAct.isAppend (fun d p => Decoder.plain d = p)
    (fun _ _ _ ⟨_, _, h⟩ hs => h.step (Decoder.step_cache hs))
    (fun _ _ h => Decoder.looks_append h)
    (fun d a d' p ⟨_, _, h⟩ hp hs => by
      subst hp
      exact (Decoder.step_plain h hs).imp (fun hs' => ⟨_, hs', rfl⟩) id)
    ⟨[], [], hstart⟩ rfl hrun
  exact ⟨bs, hsub, happends, hplain, hall⟩

/-- A frame in three pieces; the call behind the second one is turned away. -/
def threePieces : List CacheAct :=
  [.append [0x81, 3], .decode fun _ => 0, .append [97], .decode fun _ => 0, .append [98, 99], .decode fun _ => 0]

theorem resumed_run_three :
    ∃ d bs, Machine.exec (Decoder.step 64) .start threePieces = some d ∧ bs.Sublist threePieces ∧
      Machine.exec PlainDecoder.step .start bs = some ⟨[], [⟨[97, 98, 99], wsFrameText⟩]⟩ := by
  have hrun : (Machine.exec (Decoder.step 64) .start threePieces).map (fun d => (d.cache.pBuffer, d.delivered)) =
      some ([], [⟨[97, 98, 99], wsFrameText⟩]) := by decide +kernel
  obtain ⟨d, hd, he⟩ := Option.map_eq_some_iff.mp hrun
  obtain ⟨hbytes, hdelivered⟩ := Prod.mk.inj he
  obtain ⟨bs, hsub, _, hplain, _⟩ := resumed_run threePieces d hd
  rw [Decoder.plain, hbytes, hdelivered] at hplain
  exact ⟨d, bs, hd, hsub, hplain⟩

end SrWebSocket
