import SrWebSocket.Wire.DecodeStream

/-! # Control frames around the fragments of a message

A control frame before or after a fragmented message is a message of its own.
Between two fragments its FIN bit ends the scan, the reassembly meets its opcode
among those of the data message, and every further call hands out the part of
the message that came before it.
-/
namespace SrWebSocket

/-- A control frame: FIN, one of the opcodes 8, 9 and 10, and 1 to 125 bytes. -/
structure ControlFrame where
  opcode : UInt8
  control : opcode = wsFrameClosing ∨ opcode = wsFramePing ∨ opcode = wsFramePong
  body : Fragment
  small : body.payload.length ≤ 125

def ControlFrame.bytes (k : ControlFrame) : List UInt8 := wireFrame true k.opcode k.body

/-- A TEXT or BINARY message of at least two fragments, with control frames
before it, in front of each later fragment, and after it. -/
structure Interleaved where
  opcode : UInt8
  data : opcode = wsFrameText ∨ opcode = wsFrameBinary
  before : List ControlFrame
  first : Fragment
  later : List (List ControlFrame × Fragment)
  later_ne : later ≠ []
  after : List ControlFrame

/-- The fragments from `f` on, each with the control frames in front of the next. -/
def weave : UInt8 → Fragment → List (List ControlFrame × Fragment) → List (List UInt8)
  | op, f, [] => [wireFrame true op f]
  | op, f, (ks, g) :: later => wireFrame false op f :: (ks.map ControlFrame.bytes ++ weave 0 g later)

namespace Interleaved

theorem opcode_ne (m : Interleaved) : m.opcode ≠ 0 := by
  rcases m.data with h | h <;> rw [h] <;> decide

theorem opcode_lt (m : Interleaved) : m.opcode.toNat < 16 := by
  rcases m.data with h | h <;> rw [h] <;> decide

def plain (m : Interleaved) : WireMsg where
  opcode := m.opcode
  opcode_ne := m.opcode_ne
  opcode_lt := m.opcode_lt
  first := m.first
  more := m.later.map Prod.snd

def wire (m : Interleaved) : List UInt8 :=
  (m.before.map ControlFrame.bytes).flatten ++
    ((weave m.opcode m.first m.later).flatten ++ (m.after.map ControlFrame.bytes).flatten)

end Interleaved

/-- The messages handed out by repeated calls on a cache, until a call returns 0,
and by no more than `n` calls. -/
def deliveredBy : (ℕ → ℕ → UInt8) → WsMsgCache → ℕ → List WsMsg
  | _, _, 0 => []
  | junk, c, n + 1 =>
    match decodeMsg 64 (callFuel c) (junk 0) c none with
    | none => []
    | some ret =>
      if ret.iRet = 0 then [] else ret.pWsMsg.toList ++ deliveredBy (fun i => junk (i + 1)) ret.pMsgCache n

def dataOf (ms : List WsMsg) : List WsMsg :=
  ms.filter fun m => m.frameType = wsFrameText ∨ m.frameType = wsFrameBinary

/-- On any memory, repeated calls on both buffers hand out the same TEXT and BINARY messages. -/
def SameData (s t : List UInt8) : Prop :=
  ∀ junk junk', ∃ N, ∀ n ≥ N, dataOf (deliveredBy junk (.fresh s) n) = dataOf (deliveredBy junk' (.fresh t) n)

variable {c : WsMsgCache} {gs : List (List (List UInt8))} {fs g us : List (List UInt8)} {t : List UInt8}
  {op : UInt8} {n : ℕ} {junk : ℕ → ℕ → UInt8}

theorem deliveredBy_succ {m : WsMsg} {c' : WsMsgCache}
    (h : decodeMsg 64 (callFuel c) (junk 0) c none = some ⟨1, c', some m⟩) (n : ℕ) :
    deliveredBy junk c (n + 1) = m :: deliveredBy (fun i => junk (i + 1)) c' n := by simp [deliveredBy, h]

theorem deliveredBy_groups (hgs : ∀ g ∈ gs, (∀ u ∈ g, frameUnits.Whole u) ∧ Group isFin g ∧ ¬Clash g)
    (hlen : (gs.flatten.flatten ++ t).length < 2 ^ 63) (junk : ℕ → ℕ → UInt8) :
    ∃ junk', ∀ n, deliveredBy junk (.fresh (gs.flatten.flatten ++ t)) (gs.length + n) =
      gs.map messageOf ++ deliveredBy junk' (.fresh t) n := by
  induction gs generalizing junk with
  | nil => exact ⟨junk, fun n => by simp⟩
  | cons g gs ih =>
    obtain ⟨hw, hg, hc⟩ := hgs g List.mem_cons_self
    have hS : (g :: gs).flatten.flatten ++ t = g.flatten ++ (gs.flatten.flatten ++ t) := by simp
    rw [hS] at hlen ⊢
    have hcall := decodeMsg_group (scanned_fresh hlen) (scanned_fresh hlen).length_lt hw hg
      (not_turnedAway (Nat.zero_le _)) le_rfl (junk 0)
    rw [List.nil_append, assemble_empty_of_not_clash hc] at hcall
    have hlen' : (gs.flatten.flatten ++ t).length < 2 ^ 63 := by
      rw [List.length_append] at hlen
      omega
    obtain ⟨junk', hrest⟩ := ih (fun h hh => hgs h (List.mem_cons_of_mem _ hh)) hlen' fun i => junk (i + 1)
    refine ⟨junk', fun n => ?_⟩
    rw [List.length_cons, Nat.add_right_comm, deliveredBy_succ hcall, hrest]
    rfl

theorem deliveredBy_nil (junk : ℕ → ℕ → UInt8) (n : ℕ) : deliveredBy junk (.fresh []) n = [] := by
  cases n with
  | zero => rfl
  | succ n =>
    have hS : Scanned (.fresh []) [] (([] : List (List UInt8)).flatten ++ []) := scanned_fresh (Nat.two_pow_pos 63)
    have hcall := decodeMsg_open hS (by simp) (by simp) Framing.size_nil rfl (not_turnedAway (Nat.zero_le _)) le_rfl (junk 0)
    simp [deliveredBy, hcall]

/-! ## After a failed opcode assertion -/

/-- A cache whose scanned frames clash; the first of them has opcode `op`, and only whole frames follow. -/
structure Wedged (op : UInt8) (c : WsMsgCache) (u : List UInt8) (fs us : List (List UInt8)) : Prop where
  scanned : Scanned c (u :: fs) us.flatten
  whole : ∀ v ∈ us, frameUnits.Whole v
  complete : c.iComplete = true
  clash : Clash (u :: fs)
  named : opcode u = op
  forgot : c.iCurFrameLen = 0

theorem acceptAll_forgot (h : c.iCurFrameLen = 0) (gs : List (List UInt8)) : (c.acceptAll gs).iCurFrameLen = 0 := by
  rw [acceptAll_iCurFrameLen]
  split
  · exact h
  · rfl

/-- A call after a failed assertion hands out a message of the first opcode and fails again. -/
theorem Wedged.call {u : List UInt8} (h : Wedged op c u fs us) (hop : op ≠ 0) (junk : ℕ → UInt8) :
    ∃ c' m fs' us', decodeMsg 64 (callFuel c) junk c none = some ⟨1, c', some m⟩ ∧ m.frameType = op ∧
      Wedged op c' u fs' us' := by
  have hS := h.scanned
  have hlen := hS.length_eq
  have hst : c.iCurFrameLen + c.iCurFrameIndex ≤ c.pBuffer.length := by
    rw [h.forgot]
    omega
  have hname : ∀ ks, (messageOf (u :: (fs ++ ks))).frameType = op := fun ks =>
    (messageOf_frameType (h.named ▸ hop) _).trans h.named
  obtain ⟨gs, o, rfl, hgs, ho⟩ := exists_groups isFin us
  cases gs with
  | nil =>
    rw [List.flatten_nil, List.nil_append] at hS
    have hw : ∀ v ∈ o, frameUnits.Whole v := fun v hv => h.whole v (by simpa using hv)
    have hS' : Scanned c (u :: fs) (o.flatten ++ []) := by simpa using hS
    have hacc := hS'.acceptAll hw
    have hcall := decodeMsg_clashed hS' hw ho Framing.size_nil h.complete h.clash (not_turnedAway hst) le_rfl junk
    rw [scanStop_nil hacc] at hcall
    refine ⟨_, _, fs ++ o, [], hcall, hname o, hacc, by simp, (acceptAll_iComplete _ _).trans h.complete,
      h.clash.append o, h.named, acceptAll_forgot h.forgot o⟩
  | cons g gs =>
    have hw : ∀ v ∈ g, frameUnits.Whole v := fun v hv => h.whole v (by simp [hv])
    have hS' : Scanned c (u :: fs) (g.flatten ++ (gs.flatten ++ o).flatten) := by simpa using hS
    have hcall := decodeMsg_group hS' hS'.length_lt hw (hgs g List.mem_cons_self) (not_turnedAway hst) le_rfl junk
    rw [assemble_empty_of_clash (h.clash.append g)] at hcall
    refine ⟨_, _, fs ++ g, gs.flatten ++ o, hcall, hname g, ?_⟩
    refine ⟨(hS'.acceptAll hw).complete, ?_, rfl, h.clash.append g, h.named, acceptAll_forgot h.forgot g⟩
    exact fun v hv => h.whole v (by rw [List.flatten_cons, List.append_assoc]; exact List.mem_append_right _ hv)

theorem Wedged.deliveredBy {u : List UInt8} (h : Wedged op c u fs us) (hop : op ≠ 0) (junk : ℕ → ℕ → UInt8) (n : ℕ) :
    (deliveredBy junk c n).length = n ∧ ∀ m ∈ deliveredBy junk c n, m.frameType = op := by
  induction n generalizing c fs us junk with
  | zero => exact ⟨rfl, by simp [SrWebSocket.deliveredBy]⟩
  | succ n ih =>
    obtain ⟨c', m, fs', us', hcall, hm, h'⟩ := h.call hop (junk 0)
    obtain ⟨hlen, htype⟩ := ih h' fun i => junk (i + 1)
    rw [deliveredBy_succ hcall]
    refine ⟨by rw [List.length_cons, hlen], ?_⟩
    intro m' hm'
    rcases List.mem_cons.mp hm' with rfl | hm'
    · exact hm
    · exact htype m' hm'

/-- A buffer that starts with a clashing group hands out a message of its first
opcode at every call. -/
theorem deliveredBy_clash {u : List UInt8} (hw : ∀ v ∈ u :: fs, frameUnits.Whole v) (hg : Group isFin (u :: fs))
    (hc : Clash (u :: fs)) (hop : opcode u ≠ 0) (hus : ∀ v ∈ us, frameUnits.Whole v)
    (hlen : ((u :: fs).flatten ++ us.flatten).length < 2 ^ 63) (junk : ℕ → ℕ → UInt8) (n : ℕ) :
    (deliveredBy junk (.fresh ((u :: fs).flatten ++ us.flatten)) n).length = n ∧
      ∀ m ∈ deliveredBy junk (.fresh ((u :: fs).flatten ++ us.flatten)) n, m.frameType = opcode u := by
  cases n with
  | zero => exact ⟨rfl, by simp [deliveredBy]⟩
  | succ n =>
    have hS := scanned_fresh hlen
    have hcall := decodeMsg_group hS hS.length_lt hw hg (not_turnedAway (Nat.zero_le _)) le_rfl (junk 0)
    rw [List.nil_append, assemble_empty_of_clash hc] at hcall
    have hwedged : Wedged (opcode u) { (WsMsgCache.fresh ((u :: fs).flatten ++ us.flatten)).acceptAll (u :: fs) with
        iComplete := true } u fs us :=
      ⟨(hS.acceptAll hw).complete, hus, rfl, hc, rfl, acceptAll_forgot rfl _⟩
    obtain ⟨hl, ht⟩ := hwedged.deliveredBy hop (fun i => junk (i + 1)) n
    rw [deliveredBy_succ hcall]
    refine ⟨congrArg (· + 1) hl, ?_⟩
    intro m hm
    rcases List.mem_cons.mp hm with rfl | hm
    · exact messageOf_frameType hop fs
    · exact ht m hm

/-! ## Frames of an interleaved message -/

namespace ControlFrame
variable (k : ControlFrame)

theorem opcode_lt : k.opcode.toNat < 16 := by
  rcases k.control with h | h | h <;> rw [h] <;> decide

theorem whole : frameUnits.Whole k.bytes := whole_wireFrame _ _ _

theorem opcode_bytes : SrWebSocket.opcode k.bytes = k.opcode := opcode_wireFrame _ k.opcode_lt _

theorem isFin_bytes : isFin k.bytes = true := isFin_wireFrame _ k.opcode_lt _

theorem not_data : k.opcode ≠ 0 ∧ k.opcode ≠ wsFrameText ∧ k.opcode ≠ wsFrameBinary := by
  rcases k.control with h | h | h <;> rw [h] <;> decide

theorem group : (∀ u ∈ [k.bytes], frameUnits.Whole u) ∧ Group isFin [k.bytes] ∧ ¬Clash [k.bytes] := by
  refine ⟨fun u hu => List.mem_singleton.mp hu ▸ k.whole, Group.singleton k.isFin_bytes, ?_⟩
  rintro ⟨u, hu, v, hv, _, _, huv⟩
  rw [List.mem_singleton.mp hu, List.mem_singleton.mp hv] at huv
  exact huv rfl

theorem messageOf_frameType : (messageOf [k.bytes]).frameType = k.opcode := by
  rw [SrWebSocket.messageOf_frameType (k.opcode_bytes ▸ k.not_data.1), k.opcode_bytes]

end ControlFrame

def controlGroups (ks : List ControlFrame) : List (List (List UInt8)) := ks.map fun k => [k.bytes]

theorem flatten_controlGroups (ks : List ControlFrame) :
    (controlGroups ks).flatten.flatten = (ks.map ControlFrame.bytes).flatten := by
  induction ks with
  | nil => rfl
  | cons k ks ih => simpa [controlGroups] using ih

theorem controlGroups_group (ks : List ControlFrame) :
    ∀ g ∈ controlGroups ks, (∀ u ∈ g, frameUnits.Whole u) ∧ Group isFin g ∧ ¬Clash g := by
  intro g hg
  obtain ⟨k, _, rfl⟩ := List.mem_map.mp hg
  exact k.group

@[simp] theorem dataOf_append (xs ys : List WsMsg) : dataOf (xs ++ ys) = dataOf xs ++ dataOf ys :=
  List.filter_append _ _

theorem dataOf_controlGroups (ks : List ControlFrame) : dataOf ((controlGroups ks).map messageOf) = [] := by
  unfold dataOf controlGroups
  rw [List.filter_eq_nil_iff]
  intro m hm
  obtain ⟨g, hg, rfl⟩ := List.mem_map.mp hm
  obtain ⟨k, _, rfl⟩ := List.mem_map.mp hg
  have hk := k.not_data
  simp [k.messageOf_frameType, hk.2.1, hk.2.2]

variable {f : Fragment} {later : List (List ControlFrame × Fragment)}

theorem weave_whole (op : UInt8) (f : Fragment) (later : List (List ControlFrame × Fragment)) :
    ∀ u ∈ weave op f later, frameUnits.Whole u := by
  induction later generalizing op f with
  | nil =>
    intro u hu
    exact List.mem_singleton.mp hu ▸ whole_wireFrame _ _ _
  | cons p later ih =>
    obtain ⟨ks, g⟩ := p
    intro u hu
    rcases List.mem_cons.mp hu with rfl | hu
    · exact whole_wireFrame _ _ _
    · rcases List.mem_append.mp hu with hu | hu
      · obtain ⟨k, _, rfl⟩ := List.mem_map.mp hu
        exact k.whole
      · exact ih 0 g u hu

theorem weave_plain (h : ∀ p ∈ later, p.1 = []) : weave op f later = framesFrom op f (later.map Prod.snd) := by
  induction later generalizing op f with
  | nil => rfl
  | cons p later ih =>
    obtain ⟨ks, g⟩ := p
    obtain rfl : ks = [] := h _ List.mem_cons_self
    rw [weave, List.map_nil, List.nil_append, ih fun p hp => h p (List.mem_cons_of_mem _ hp)]
    rfl

theorem weave_control (op : UInt8) (f : Fragment) (h : ∃ p ∈ later, p.1 ≠ []) :
    ∃ init k rest, weave op f later = wireFrame false op f :: (init ++ [ControlFrame.bytes k]) ++ rest ∧
      ∀ u ∈ init, isFin u = false := by
  induction later generalizing op f with
  | nil =>
    obtain ⟨p, hp, _⟩ := h
    exact absurd hp List.not_mem_nil
  | cons p later ih =>
    obtain ⟨ks, g⟩ := p
    cases ks with
    | cons k ks => exact ⟨[], k, ks.map ControlFrame.bytes ++ weave 0 g later, by simp [weave], by simp⟩
    | nil =>
      have h' : ∃ p ∈ later, p.1 ≠ [] := by
        obtain ⟨p, hp, hne⟩ := h
        rcases List.mem_cons.mp hp with rfl | hp
        · exact absurd rfl hne
        · exact ⟨p, hp, hne⟩
      obtain ⟨init, k, rest, he, hinit⟩ := ih 0 g h'
      refine ⟨wireFrame false 0 g :: init, k, rest, by rw [weave, he]; simp, ?_⟩
      intro u hu
      rcases List.mem_cons.mp hu with rfl | hu
      · exact isFin_wireFrame g (by decide) false
      · exact hinit u hu

theorem length_framesFrom_le (op : UInt8) (f : Fragment) (later : List (List ControlFrame × Fragment)) :
    (framesFrom op f (later.map Prod.snd)).flatten.length ≤ (weave op f later).flatten.length := by
  induction later generalizing op f with
  | nil => exact le_rfl
  | cons p later ih =>
    have := ih 0 p.2
    simp only [List.map_cons, framesFrom, weave, List.flatten_cons, List.flatten_append, List.length_append]
    omega

namespace Interleaved
variable (m : Interleaved)

theorem length_plain_le : m.plain.wire.length ≤ m.wire.length := by
  have := length_framesFrom_le m.opcode m.first m.later
  unfold wire
  simp only [List.length_append]
  exact le_trans this (by omega)

theorem dataOf_plain (hlen : m.wire.length < 2 ^ 63) (junk : ℕ → ℕ → UInt8) (n : ℕ) :
    dataOf (deliveredBy junk (.fresh m.plain.wire) (n + 1)) = [m.plain.message] := by
  have hle := m.length_plain_le
  have hw : m.plain.wire ++ [] = m.plain.wire := List.append_nil _
  have hcall := decodeMsg_wire m.plain [] (by rw [hw]; omega) (junk 0)
  rw [hw] at hcall
  rw [deliveredBy_succ hcall, deliveredBy_nil]
  have hdata : m.plain.message.frameType = wsFrameText ∨ m.plain.message.frameType = wsFrameBinary := m.data
  simp [dataOf, hdata]

theorem sameData (h : ∀ p ∈ m.later, p.1 = []) (hlen : m.wire.length < 2 ^ 63) : SameData m.wire m.plain.wire := by
  intro junk junk'
  have hframes : weave m.opcode m.first m.later = m.plain.frames := weave_plain h
  obtain ⟨gs, hgs⟩ : ∃ gs, gs = controlGroups m.before ++ m.plain.frames :: controlGroups m.after := ⟨_, rfl⟩
  have hsplit : m.wire = gs.flatten.flatten ++ [] := by
    rw [hgs, wire, hframes, ← flatten_controlGroups, ← flatten_controlGroups]
    simp
  have hgroup : ∀ g ∈ gs, (∀ u ∈ g, frameUnits.Whole u) ∧ Group isFin g ∧ ¬Clash g := by
    intro g hg
    rw [hgs] at hg
    rcases List.mem_append.mp hg with hg | hg
    · exact controlGroups_group _ g hg
    · rcases List.mem_cons.mp hg with rfl | hg
      · exact ⟨m.plain.frames_whole, m.plain.frames_group, m.plain.frames_not_clash⟩
      · exact controlGroups_group _ g hg
  have hdata : dataOf (gs.map messageOf) = [m.plain.message] := by
    have hd : m.plain.message.frameType = wsFrameText ∨ m.plain.message.frameType = wsFrameBinary := m.data
    have hcons : m.plain.frames :: controlGroups m.after = [m.plain.frames] ++ controlGroups m.after := rfl
    rw [hgs, hcons, List.map_append, List.map_append, dataOf_append, dataOf_append, dataOf_controlGroups,
      dataOf_controlGroups, List.map_singleton, m.plain.messageOf_frames]
    simp [dataOf, hd]
  obtain ⟨junk₁, hall⟩ := deliveredBy_groups hgroup (hsplit ▸ hlen) junk
  rw [← hsplit] at hall
  refine ⟨gs.length + 1, fun n hn => ?_⟩
  obtain ⟨d, rfl⟩ := Nat.exists_eq_add_of_le hn
  have hplain := m.dataOf_plain hlen junk' (gs.length + d)
  rw [Nat.add_right_comm, hplain, Nat.add_assoc, hall, deliveredBy_nil, List.append_nil, hdata]

theorem exists_clash (h : ∃ p ∈ m.later, p.1 ≠ []) :
    ∃ (u : List UInt8) (fs us : List (List UInt8)),
      m.wire = (controlGroups m.before).flatten.flatten ++ ((u :: fs).flatten ++ us.flatten) ∧
      (∀ v ∈ u :: fs, frameUnits.Whole v) ∧ Group isFin (u :: fs) ∧ Clash (u :: fs) ∧
      SrWebSocket.opcode u = m.opcode ∧ ∀ v ∈ us, frameUnits.Whole v := by
  obtain ⟨init, k, rest, he, hinit⟩ := weave_control m.opcode m.first h
  have hall := weave_whole m.opcode m.first m.later
  rw [he] at hall
  have hopcode : SrWebSocket.opcode (wireFrame false m.opcode m.first) = m.opcode := opcode_wireFrame _ m.opcode_lt _
  refine ⟨wireFrame false m.opcode m.first, init ++ [k.bytes], rest ++ m.after.map ControlFrame.bytes, ?_,
    fun v hv => hall v (List.mem_append_left _ hv), ?_, ?_, hopcode, ?_⟩
  · rw [wire, he, flatten_controlGroups]
    simp
  · refine ⟨wireFrame false m.opcode m.first :: init, k.bytes, by simp, ?_, k.isFin_bytes⟩
    intro u hu
    rcases List.mem_cons.mp hu with rfl | hu
    · exact isFin_wireFrame _ m.opcode_lt false
    · exact hinit u hu
  · refine ⟨_, List.mem_cons_self, k.bytes, by simp, ?_, ?_, ?_⟩
    · rw [hopcode]
      exact m.opcode_ne
    · rw [k.opcode_bytes]
      exact k.not_data.1
    · rw [hopcode, k.opcode_bytes]
      rcases m.data with hd | hd <;> rw [hd]
      · exact k.not_data.2.1.symm
      · exact k.not_data.2.2.symm
  · intro u hu
    rcases List.mem_append.mp hu with hu | hu
    · exact hall u (List.mem_append_right _ hu)
    · obtain ⟨k, _, rfl⟩ := List.mem_map.mp hu
      exact k.whole

/-- A control frame between two fragments makes the calls hand out part of the message without end. -/
theorem not_sameData (h : ∃ p ∈ m.later, p.1 ≠ []) (hlen : m.wire.length < 2 ^ 63) : ¬SameData m.wire m.plain.wire := by
  obtain ⟨u, fs, us, hsplit, hw, hg, hc, hu, hus⟩ := m.exists_clash h
  have hlen' := hsplit ▸ hlen
  intro hsame
  obtain ⟨N, hN⟩ := hsame (fun _ _ => 0) fun _ _ => 0
  obtain ⟨junk, hdel⟩ := deliveredBy_groups (controlGroups_group m.before) hlen' fun _ _ => 0
  rw [List.length_append] at hlen'
  obtain ⟨hcount, htype⟩ := deliveredBy_clash hw hg hc (hu ▸ m.opcode_ne) hus (by omega) junk (N + 2)
  have heq := hN ((controlGroups m.before).length + (N + 2)) (by omega)
  have hone := m.dataOf_plain hlen (fun _ _ => 0) ((controlGroups m.before).length + (N + 1))
  rw [Nat.add_assoc] at hone
  rw [hone, hsplit, hdel, dataOf_append] at heq
  have hkeep : dataOf (deliveredBy junk (.fresh ((u :: fs).flatten ++ us.flatten)) (N + 2)) =
      deliveredBy junk (.fresh ((u :: fs).flatten ++ us.flatten)) (N + 2) := by
    apply List.filter_eq_self.mpr
    intro w hw
    rw [htype w hw, hu]
    simpa using m.data
  have := congrArg List.length (hkeep ▸ heq)
  rw [List.length_append, hcount, List.length_singleton] at this
  omega

end Interleaved

/-- Control frames make no difference to the TEXT and BINARY messages exactly when
none of them stands between the first and the last fragment. -/
theorem interleaved_sameData_iff (m : Interleaved) (hlen : m.wire.length < 2 ^ 63) :
    SameData m.wire m.plain.wire ↔ ∀ p ∈ m.later, p.1 = [] := by
  constructor
  · intro hsame p hp
    by_contra hne
    exact m.not_sameData ⟨p, hp, hne⟩ hlen hsame
  · exact fun h => m.sameData h hlen

def pingFrame : ControlFrame where
  opcode := wsFramePing
  control := by decide
  body := ⟨.short, none, [98], by decide, by decide, by decide⟩
  small := by decide

/-- Two TEXT fragments with control frames around and, for `ks`, between them. -/
def pingedText (ks : List ControlFrame) : Interleaved where
  opcode := wsFrameText
  data := by decide
  before := [pingFrame]
  first := letterA
  later := [(ks, ⟨.short, none, [99], by decide, by decide, by decide⟩)]
  later_ne := List.cons_ne_nil _ _
  after := [pingFrame]

theorem sameData_pingedText : SameData (pingedText []).wire (pingedText []).plain.wire :=
  (interleaved_sameData_iff (pingedText []) (by decide)).mpr (by simp [pingedText])

/-- With a PING frame between its fragments only the first fragment is ever
handed out, and it is handed out again by every call. -/
theorem pingedText_differs :
    ¬SameData (pingedText [pingFrame]).wire (pingedText [pingFrame]).plain.wire ∧
    deliveredBy (fun _ => fun _ => 0) (.fresh (pingedText [pingFrame]).wire) 4 =
      [⟨[98], wsFramePing⟩, ⟨[97], wsFrameText⟩, ⟨[97], wsFrameText⟩, ⟨[97], wsFrameText⟩] :=
  ⟨(pingedText [pingFrame]).not_sameData ⟨_, List.mem_singleton.mpr rfl, by decide⟩ (by decide), by decide⟩

end SrWebSocket
