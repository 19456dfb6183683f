import SrWebSocket.Stream.Cuts
import SrWebSocket.Stream.ReceiveLoop
import SrWebSocket.Wire.FrameBoundary
import SrWebSocket.Wire.ReferenceDecoder

/-! # Streams under a decoder of the wire format

`decodeFrame` reads a stream frame by frame, and a message goes on until a frame
with the FIN bit. On a row of frames that are not empty and shorter than 2^32
bytes this is what the receive loop does, however the row arrives.
-/
namespace SrWebSocket

/-- At most `n` frames from the head of a stream. -/
def framesUpTo : ℕ → List UInt8 → List RefFrame
  | 0, _ => []
  | n + 1, s =>
    match decodeFrame s with
    | none => []
    | some (f, t) => f :: framesUpTo n t

/-- The frames of the wire format that have arrived whole. -/
def framesOf (s : List UInt8) : List RefFrame := framesUpTo s.length s

/-- The message `m` after one more frame. -/
def WsMsg.add (m : WsMsg) (f : RefFrame) : WsMsg where
  pBuffer := m.pBuffer ++ f.payload
  frameType := if m.frameType = 0 then f.opcode else m.frameType

/-- The messages that end in a row of frames, of which `m` has arrived before. -/
def messagesFrom : WsMsg → List RefFrame → List WsMsg
  | _, [] => []
  | m, f :: fs => if f.fin then m.add f :: messagesFrom .empty fs else messagesFrom (m.add f) fs

/-- The messages of the wire format that have arrived whole. -/
def messagesOf (s : List UInt8) : List WsMsg := messagesFrom .empty (framesOf s)

variable {n : ℕ} {s t r xs : List UInt8} {f : RefFrame}

/-! ## The decoder and its rest -/

theorem splitBytes_some (h : splitBytes n s = some (xs, r)) : s = xs ++ r ∧ xs.length = n := by
  obtain ⟨hle, he⟩ := Option.ite_none_right_eq_some.mp h
  cases he
  exact ⟨(List.take_append_drop n s).symm, List.length_take_of_le hle⟩

theorem splitBytes_more (h : splitBytes n s = some (xs, r)) (t : List UInt8) :
    splitBytes n (s ++ t) = some (xs, r ++ t) := by
  obtain ⟨rfl, hlen⟩ := splitBytes_some h
  rw [List.append_assoc]
  exact splitBytes_append hlen.symm (r ++ t)

theorem readLength_more {code : ℕ} (h : readLength code s = some (n, r)) (t : List UInt8) :
    readLength code (s ++ t) = some (n, r ++ t) ∧ r.length ≤ s.length := by
  have hread (k : ℕ) (hk : (splitBytes k s).map (fun r => (ofBigEndian r.1, r.2)) = some (n, r)) :
      (splitBytes k (s ++ t)).map (fun r => (ofBigEndian r.1, r.2)) = some (n, r ++ t) ∧ r.length ≤ s.length := by
    obtain ⟨⟨xs, r'⟩, hs, he⟩ := Option.map_eq_some_iff.mp hk
    obtain ⟨rfl, rfl⟩ := Prod.mk.inj he
    have hlen := congrArg List.length (splitBytes_some hs).1
    rw [List.length_append] at hlen
    rw [splitBytes_more hs t]
    exact ⟨rfl, Nat.le.intro (Nat.add_comm xs.length _ ▸ hlen.symm)⟩
  unfold readLength at h ⊢
  by_cases hm : code = 126
  · rw [if_pos hm] at h ⊢
    exact hread 2 h
  · rw [if_neg hm] at h ⊢
    by_cases hl : code = 127
    · rw [if_pos hl] at h ⊢
      exact hread 8 h
    · rw [if_neg hl] at h ⊢
      obtain ⟨rfl, rfl⟩ := Prod.mk.inj (Option.some.inj h)
      exact ⟨rfl, le_rfl⟩

/-- What `decodeFrame` finds does not depend on what follows, and it takes the fixed
bytes at least. -/
theorem decodeFrame_more (h : decodeFrame s = some (f, r)) (t : List UInt8) :
    decodeFrame (s ++ t) = some (f, r ++ t) ∧ r.length + 2 ≤ s.length := by
  match s, h with
  | b₀ :: b₁ :: s, h =>
    simp only [decodeFrame, Option.bind_eq_bind, Option.bind_eq_some_iff, Option.some.injEq, Prod.mk.injEq] at h
    obtain ⟨⟨n, s₁⟩, hlen, ⟨key, s₂⟩, hkey, ⟨raw, s₃⟩, hraw, hf, rfl⟩ := h
    obtain ⟨hlen', hle₁⟩ := readLength_more hlen t
    have hkey' := splitBytes_more hkey t
    have hraw' := splitBytes_more hraw t
    have hle₂ := congrArg List.length (splitBytes_some hkey).1
    have hle₃ := congrArg List.length (splitBytes_some hraw).1
    simp only [List.length_append] at hle₂ hle₃
    refine ⟨?_, by simp only [List.length_cons]; omega⟩
    simp only [List.cons_append, decodeFrame, hlen', hkey', hraw', Option.bind_eq_bind, Option.bind_some, hf]

theorem framesUpTo_nil (n : ℕ) : framesUpTo n [] = [] := by
  cases n with
  | zero => rfl
  | succ n => rfl

/-- The bound does not matter once it is the length of the stream. -/
theorem framesUpTo_congr {m : ℕ} (hn : s.length ≤ n) (hm : s.length ≤ m) : framesUpTo n s = framesUpTo m s := by
  induction n generalizing s m with
  | zero =>
    rw [List.length_eq_zero_iff.mp (Nat.le_zero.mp hn), framesUpTo_nil, framesUpTo_nil]
  | succ n ih =>
    cases m with
    | zero =>
      rw [List.length_eq_zero_iff.mp (Nat.le_zero.mp hm), framesUpTo_nil, framesUpTo_nil]
    | succ m =>
      rw [framesUpTo, framesUpTo]
      cases hd : decodeFrame s with
      | none => rfl
      | some p =>
        obtain ⟨f, t⟩ := p
        have hlen := (decodeFrame_more hd []).2
        exact congrArg _ (ih (by omega) (by omega))

theorem framesOf_cons (h : decodeFrame s = some (f, t)) : framesOf s = f :: framesOf t := by
  have hlen := (decodeFrame_more h []).2
  have hone : framesUpTo (s.length + 1) s = f :: framesUpTo s.length t := by rw [framesUpTo, h]
  rw [framesOf, framesUpTo_congr le_rfl (Nat.le_succ _), hone, framesUpTo_congr (by omega) le_rfl]
  rfl

theorem framesOf_none (h : decodeFrame s = none) : framesOf s = [] := by
  have hone : framesUpTo (s.length + 1) s = [] := by rw [framesUpTo, h]
  rw [framesOf, framesUpTo_congr le_rfl (Nat.le_succ _), hone]

/-- More bytes leave the frames that are there. -/
theorem framesOf_prefix (s t : List UInt8) : framesOf s <+: framesOf (s ++ t) := by
  induction hn : s.length using Nat.strongRecOn generalizing s with
  | _ n ih =>
    cases hd : decodeFrame s with
    | none =>
      rw [framesOf_none hd]
      exact List.nil_prefix
    | some p =>
      obtain ⟨f, r⟩ := p
      obtain ⟨hmore, hlen⟩ := decodeFrame_more hd t
      rw [framesOf_cons hd, framesOf_cons hmore]
      exact List.cons_prefix_cons.mpr ⟨rfl, ih r.length (by omega) r rfl⟩

/-! ## Frames of the decoder and of the wire format -/

def payloadOf (s : List UInt8) : List UInt8 :=
  let raw := (s.drop (headerLen (bytesOf s) + maskLen (bytesOf s))).take (wireLen (bytesOf s))
  if bytesOf s 1 &&& 0x80 ≠ 0 then applyMask (fun i => bytesOf s (headerLen (bytesOf s) + i)) raw else raw

theorem exists_eight : ∀ {x : List UInt8}, x.length = 8 →
    ∃ c₀ c₁ c₂ c₃ c₄ c₅ c₆ c₇, x = [c₀, c₁, c₂, c₃, c₄, c₅, c₆, c₇]
  | [_, _, _, _, _, _, _, _], _ => ⟨_, _, _, _, _, _, _, _, rfl⟩

theorem readLength_eq (b₀ b₁ : UInt8) (s : List UInt8) :
    readLength (b₁.toNat % 128) s =
      if headerLen (bytesOf (b₀ :: b₁ :: s)) ≤ (b₀ :: b₁ :: s).length then
        some (wireLen (bytesOf (b₀ :: b₁ :: s)), (b₀ :: b₁ :: s).drop (headerLen (bytesOf (b₀ :: b₁ :: s))))
      else none := by
  have hcode : (bytesOf (b₀ :: b₁ :: s) 1 &&& 0x7f).toNat = b₁.toNat % 128 := toNat_and_7f b₁
  unfold readLength wireLen headerLen
  rw [hcode]
  by_cases hm : b₁.toNat % 128 = 126
  · rw [if_pos hm, if_pos hm, if_pos hm]
    rcases s with _ | ⟨x, _ | ⟨y, s⟩⟩
    · rfl
    · rfl
    · simp [splitBytes, ofBigEndian, ntohs, bytesOf, memory]
  · rw [if_neg hm, if_neg hm, if_neg hm]
    by_cases hl : b₁.toNat % 128 = 127
    · rw [if_pos hl, if_pos hl, if_pos hl]
      by_cases h8 : 8 ≤ s.length
      · obtain ⟨x, hx, r, rfl⟩ : ∃ x, List.length x = 8 ∧ ∃ r, s = x ++ r :=
          ⟨s.take 8, by simp [h8], s.drop 8, by simp⟩
        obtain ⟨c₀, c₁, c₂, c₃, c₄, c₅, c₆, c₇, rfl⟩ := exists_eight hx
        simp [splitBytes, ofBigEndian, ntohll, ntohl, bytesOf, memory]
        omega
      · rw [splitBytes, if_neg h8, if_neg (by simp only [List.length_cons]; omega)]
        rfl
    · rw [if_neg hl, if_neg hl, if_neg hl, if_pos (by simp)]
      rfl

theorem splitBytes_drop {k : ℕ} (hk : k ≤ s.length) :
    splitBytes n (s.drop k) = if k + n ≤ s.length then some ((s.drop k).take n, s.drop (k + n)) else none := by
  have hfit : n ≤ s.length - k ↔ k + n ≤ s.length := by omega
  rw [splitBytes, List.length_drop, if_congr hfit rfl rfl, List.drop_drop]

theorem getD_key (s : List UInt8) (h : ℕ) {i : ℕ} (hi : i < 4) : ((s.drop h).take 4).getD i 0 = bytesOf s (h + i) := by
  simp [bytesOf, memory, List.getD_eq_getElem?_getD, hi]

/-- A frame is found when all its bytes are there. -/
theorem decodeFrame_eq (s : List UInt8) :
    decodeFrame s =
      if wireSize (bytesOf s) ≤ s.length then
        some ({ fin := isFin s, opcode := opcode s, payload := payloadOf s }, s.drop (wireSize (bytesOf s)))
      else none := by
  have h2 := two_le_headerLen (bytesOf s)
  match s with
  | [] => exact (if_neg (by simp only [wireSize, List.length_nil]; omega)).symm
  | [b] => exact (if_neg (by simp only [wireSize, List.length_singleton]; omega)).symm
  | b₀ :: b₁ :: s =>
    have hread := readLength_eq b₀ b₁ s
    have hfin : isFin (b₀ :: b₁ :: s) = decide (128 ≤ b₀.toNat) := decide_eq_decide.mpr (and_80_eq b₀)
    have hmask : bytesOf (b₀ :: b₁ :: s) 1 &&& 0x80 ≠ 0 ↔ 128 ≤ b₁.toNat := and_80_ne_zero b₁
    have hkey : maskLen (bytesOf (b₀ :: b₁ :: s)) = if 128 ≤ b₁.toNat then 4 else 0 := if_congr hmask rfl rfl
    unfold wireSize payloadOf
    simp only [decodeFrame, Option.bind_eq_bind, hread, hfin, hmask]
    rw [← hkey]
    by_cases hh : headerLen (bytesOf (b₀ :: b₁ :: s)) ≤ (b₀ :: b₁ :: s).length
    · rw [if_pos hh, Option.bind_some, splitBytes_drop hh]
      by_cases hk : headerLen (bytesOf (b₀ :: b₁ :: s)) + maskLen (bytesOf (b₀ :: b₁ :: s)) ≤ (b₀ :: b₁ :: s).length
      · rw [if_pos hk, Option.bind_some, splitBytes_drop hk]
        split
        · rw [Option.bind_some]
          by_cases hb : 128 ≤ b₁.toNat
          · rw [if_pos hb] at hkey
            rw [if_pos hb, if_pos hb, hkey, applyMask_congr fun i hi => getD_key _ _ hi]
            rfl
          · rw [if_neg hb, if_neg hb]
            rfl
        · rfl
      · rw [if_neg hk, if_neg (by omega)]
        rfl
    · rw [if_neg hh, if_neg (by omega)]
      rfl

/-! ## Rows of frames -/

/-- A row of frames of the wire format, none of them empty or of 2^32 bytes or more. -/
inductive FrameRow : List UInt8 → List RefFrame → Prop
  | nil : FrameRow [] []
  | cons {s t : List UInt8} {f : RefFrame} {fs : List RefFrame} (h : decodeFrame s = some (f, t))
      (hne : f.payload ≠ []) (hlt : f.payload.length < 2 ^ 32) (ht : FrameRow t fs) : FrameRow s (f :: fs)

/-- What the wire format finds in a unit. -/
def refFrame (u : List UInt8) : RefFrame where
  fin := isFin u
  opcode := opcode u
  payload := payload u

theorem length_payloadOf (h : wireSize (bytesOf s) ≤ s.length) : (payloadOf s).length = wireLen (bytesOf s) := by
  unfold wireSize at h
  have hraw : ((s.drop (headerLen (bytesOf s) + maskLen (bytesOf s))).take (wireLen (bytesOf s))).length =
      wireLen (bytesOf s) := by
    rw [List.length_take, List.length_drop]
    omega
  unfold payloadOf
  split <;> simp only [length_applyMask, hraw]

theorem payloadOf_append {u : List UInt8} (hu : frameUnits.Whole u) (hlt : wireLen (bytesOf u) < 2 ^ 32)
    (t : List UInt8) : payloadOf (u ++ t) = payload u := by
  have hsize := (whole_iff.mp hu).2
  have hlen : codedLen (bytesOf u) = wireLen (bytesOf u) := by rw [codedLen_eq_mod, Nat.mod_eq_of_lt hlt]
  have hsame : ∀ i < u.length, bytesOf (u ++ t) i = bytesOf u i := fun i hi => memory_append_left hi
  have h3 := three_le_length hu
  have hh : headerLen (bytesOf (u ++ t)) = headerLen (bytesOf u) := headerLen_congr (hsame 1 (by omega))
  have hm : maskLen (bytesOf (u ++ t)) = maskLen (bytesOf u) := maskLen_congr (hsame 1 (by omega))
  unfold frameSize at hsize
  have hw : wireLen (bytesOf (u ++ t)) = wireLen (bytesOf u) := wireLen_congr fun i hi => hsame i (by omega)
  have hraw : ((u ++ t).drop (headerLen (bytesOf u) + maskLen (bytesOf u))).take (wireLen (bytesOf u)) =
      u.drop (headerLen (bytesOf u) + maskLen (bytesOf u)) := by
    rw [List.drop_append_of_le_length (by omega)]
    exact List.take_left' (by rw [List.length_drop]; omega)
  unfold payloadOf payload
  rw [hh, hm, hw, hraw, hsame 1 (by omega)]
  by_cases hb : bytesOf u 1 &&& 0x80 ≠ 0
  · have h4 : maskLen (bytesOf u) = 4 := if_pos hb
    rw [if_pos hb, if_pos hb]
    exact applyMask_congr (fun i hi => hsame _ (by omega)) _
  · rw [if_neg hb, if_neg hb]

theorem decodeFrame_unit {u : List UInt8} (hu : frameUnits.Whole u) (hlt : wireLen (bytesOf u) < 2 ^ 32)
    (t : List UInt8) : decodeFrame (u ++ t) = some (refFrame u, t) := by
  have hsize := (whole_iff.mp hu).2
  have hlen : codedLen (bytesOf u) = wireLen (bytesOf u) := by rw [codedLen_eq_mod, Nat.mod_eq_of_lt hlt]
  have hwire : wireSize (bytesOf u) = u.length := by rw [← hsize, wireSize, frameSize, hlen]
  have hnil : decodeFrame u = some (refFrame u, []) := by
    have hpay := payloadOf_append hu hlt []
    rw [List.append_nil] at hpay
    rw [decodeFrame_eq, hwire, if_pos le_rfl, List.drop_length, hpay]
    rfl
  exact (decodeFrame_more hnil t).1

/-- A frame that is neither empty nor too long is a unit of the decoder. -/
theorem exists_unit (h : decodeFrame s = some (f, t)) (hne : f.payload ≠ []) (hlt : f.payload.length < 2 ^ 32) :
    ∃ u, s = u ++ t ∧ frameUnits.Whole u ∧ wireLen (bytesOf u) < 2 ^ 32 ∧ f = refFrame u := by
  have hfound := h
  rw [decodeFrame_eq] at h
  obtain ⟨hfit, he⟩ := Option.ite_none_right_eq_some.mp h
  cases he
  have hpay := length_payloadOf hfit
  have hpos : 0 < (payloadOf s).length := List.length_pos_iff.mpr hne
  have hbelow : (payloadOf s).length < 2 ^ 32 := hlt
  have hlen : codedLen (bytesOf s) = wireLen (bytesOf s) := by rw [codedLen_eq_mod, Nat.mod_eq_of_lt (by omega)]
  have hwire : frameSize (bytesOf s) = wireSize (bytesOf s) := by rw [wireSize, frameSize, hlen]
  have hsize : frameUnits.size s = some (wireSize (bytesOf s)) := by
    rw [← hwire]
    exact if_pos ⟨by omega, by omega⟩
  obtain ⟨u, t, hs, hu, hul⟩ := Framing.exists_whole_of_size hsize
  have hsame : ∀ i < u.length, bytesOf s i = bytesOf u i := fun i hi => by rw [hs]; exact memory_append_left hi
  have hlt' : wireLen (bytesOf u) < 2 ^ 32 := by
    rw [← wireLen_congr fun i hi => hsame i (by unfold wireSize at hul; omega)]
    omega
  have hdrop : s.drop (wireSize (bytesOf s)) = t := by
    rw [← hul, hs, List.drop_left]
  rw [hs, decodeFrame_unit hu hlt', ← hs, hdrop] at hfound
  rw [hdrop]
  exact ⟨u, hs, hu, hlt', (Prod.mk.inj (Option.some.inj hfound)).1.symm⟩

/-- A unit that the wire format measures as the decoder does. -/
def PlainUnit (u : List UInt8) : Prop := frameUnits.Whole u ∧ wireLen (bytesOf u) < 2 ^ 32

variable {S P : List UInt8} {fs : List RefFrame} {u : List UInt8} {us vs g o : List (List UInt8)}
  {gs : List (List (List UInt8))} {m m' : WsMsg}

theorem FrameRow.units (h : FrameRow S fs) :
    ∃ us : List (List UInt8), S = us.flatten ∧ (∀ u ∈ us, PlainUnit u) ∧ fs = us.map refFrame := by
  induction h with
  | nil => exact ⟨[], rfl, by simp, rfl⟩
  | cons h hne hlt _ ih =>
    obtain ⟨us, rfl, hus, rfl⟩ := ih
    obtain ⟨u, rfl, hu, hul, rfl⟩ := exists_unit h hne hlt
    exact ⟨u :: us, rfl, List.forall_mem_cons.mpr ⟨⟨hu, hul⟩, hus⟩, rfl⟩

theorem decodeFrame_nil : decodeFrame [] = none := rfl

theorem PlainUnit.decodeFrame_part (h : PlainUnit (r ++ t)) (ht : t ≠ []) : decodeFrame r = none := by
  cases hd : decodeFrame r with
  | none => rfl
  | some p =>
    have hall := decodeFrame_unit h.1 h.2 []
    rw [List.append_nil, (decodeFrame_more hd t).1] at hall
    exact absurd (List.append_eq_nil_iff.mp (Prod.mk.inj (Option.some.inj hall)).2).2 ht

/-- The units of what has arrived of a row, and the part of a unit behind them. -/
theorem exists_units (hus : ∀ u ∈ us, PlainUnit u) (hP : P <+: us.flatten) :
    ∃ (vs : List (List UInt8)) (r : List UInt8), P = vs.flatten ++ r ∧ (∀ u ∈ vs, PlainUnit u) ∧
      frameUnits.size r = none ∧ decodeFrame r = none := by
  obtain ⟨more, hmore⟩ := hP
  obtain ⟨vs, r, rfl, hvs, hr⟩ := Framing.exists_parse (F := frameUnits) P
  have he : vs.flatten ++ (r ++ more) = us.flatten ++ [] := by simpa using hmore
  have hlen := congrArg List.length he
  simp only [List.length_append, List.length_nil] at hlen
  obtain ⟨ws, rfl, hws⟩ := Framing.parse_prefix hvs (fun u hu => (hus u hu).1) he (by omega)
  refine ⟨vs, r, rfl, fun u hu => hus u (List.mem_append_left _ hu), hr, ?_⟩
  cases ws with
  | nil =>
    rw [(List.append_eq_nil_iff.mp hws).1]
    exact decodeFrame_nil
  | cons u ws =>
    have hu : PlainUnit u := hus u (by simp)
    rw [List.append_nil, List.flatten_cons] at hws
    rcases List.append_eq_append_iff.mp hws with ⟨missing, rfl, _⟩ | ⟨extra, rfl, _⟩
    · by_cases hnil : missing = []
      · rw [hnil, List.append_nil] at hu
        exact absurd (hr.symm.trans hu.1) (by simp)
      · exact hu.decodeFrame_part hnil
    · rw [hu.1.size_append] at hr
      exact absurd hr (by simp)

theorem framesUpTo_units (hvs : ∀ u ∈ vs, PlainUnit u) (hr : decodeFrame r = none) (hn : vs.length ≤ n) :
    framesUpTo n (vs.flatten ++ r) = vs.map refFrame := by
  induction vs generalizing n with
  | nil =>
    cases n with
    | zero => rfl
    | succ n => simp [framesUpTo, hr]
  | cons u vs ih =>
    obtain ⟨k, rfl⟩ := Nat.exists_eq_add_of_le hn
    have hu := hvs u List.mem_cons_self
    have hrest := ih (fun v hv => hvs v (List.mem_cons_of_mem _ hv)) (Nat.le_add_right vs.length k)
    rw [List.length_cons, Nat.add_right_comm, framesUpTo, List.flatten_cons, List.append_assoc,
      decodeFrame_unit hu.1 hu.2]
    exact congrArg _ hrest

theorem framesOf_units (hvs : ∀ u ∈ vs, PlainUnit u) (hr : decodeFrame r = none) :
    framesOf (vs.flatten ++ r) = vs.map refFrame := by
  have hlen := flatten_length_ge fun u hu => (hvs u hu).1
  exact framesUpTo_units hvs hr (by rw [List.length_append]; omega)

/-! ## Messages -/

theorem messagesFrom_open (ho : ∀ u ∈ o, isFin u = false) (m : WsMsg) : messagesFrom m (o.map refFrame) = [] := by
  induction o generalizing m with
  | nil => rfl
  | cons u o ih =>
    have hu : (refFrame u).fin = false := ho u List.mem_cons_self
    rw [List.map_cons, messagesFrom, hu, if_neg Bool.false_ne_true]
    exact ih (fun v hv => ho v (List.mem_cons_of_mem _ hv)) _

theorem assemble_cons (h : assemble m (u :: us) = (m', true)) : assemble (m.add (refFrame u)) us = (m', true) := by
  rw [assemble] at h
  by_cases hj : m.Joins u
  · rwa [if_pos hj] at h
  · rw [if_neg hj] at h
    exact absurd (Prod.mk.inj h).2 Bool.false_ne_true

theorem messagesFrom_group {init : List (List UInt8)} (hinit : ∀ u ∈ init, isFin u = false) (hu : isFin u = true)
    (h : assemble m (init ++ [u]) = (m', true)) (fs : List RefFrame) :
    messagesFrom m ((init ++ [u]).map refFrame ++ fs) = m' :: messagesFrom .empty fs := by
  induction init generalizing m with
  | nil =>
    have hfin : (refFrame u).fin = true := hu
    have hm : m.add (refFrame u) = m' := (Prod.mk.inj (assemble_cons h)).1
    rw [List.nil_append, List.map_singleton, List.singleton_append, messagesFrom, hfin, if_pos rfl, hm]
  | cons v init ih =>
    have hv : (refFrame v).fin = false := hinit v List.mem_cons_self
    rw [List.cons_append, List.map_cons, List.cons_append, messagesFrom, hv, if_neg Bool.false_ne_true]
    exact ih (fun w hw => hinit w (List.mem_cons_of_mem _ hw)) (assemble_cons h)

theorem messagesFrom_groups (hgs : ∀ g ∈ gs, Group isFin g ∧ ¬Clash g) (ho : ∀ u ∈ o, isFin u = false) :
    messagesFrom .empty ((gs.flatten ++ o).map refFrame) = gs.map messageOf := by
  induction gs with
  | nil => exact messagesFrom_open ho _
  | cons g gs ih =>
    obtain ⟨⟨init, l, rfl, hinit, hl⟩, hno⟩ := hgs g List.mem_cons_self
    have hrest := ih fun h hh => hgs h (List.mem_cons_of_mem _ hh)
    rw [List.flatten_cons, List.append_assoc, List.map_append,
      messagesFrom_group hinit hl (assemble_empty_of_not_clash hno), hrest]
    rfl

/-- The messages of a stream, from its units in groups. -/
theorem messagesOf_groups (hvs : ∀ u ∈ gs.flatten ++ o, PlainUnit u) (hgs : ∀ g ∈ gs, Group isFin g ∧ ¬Clash g)
    (ho : ∀ u ∈ o, isFin u = false) (hr : decodeFrame r = none) :
    messagesOf ((gs.flatten ++ o).flatten ++ r) = gs.map messageOf := by
  rw [messagesOf, framesOf_units hvs hr, messagesFrom_groups hgs ho]

/-! ## Runs -/

/-- What a receiver that has been sent a part of a row of units has handed out. -/
theorem Follows.reference {sent : List (List UInt8)} {c : Receiver} {gfs : List (List UInt8)} {rest : List UInt8}
    (hf : Follows sent c gs gfs rest) (hus : ∀ u ∈ us, PlainUnit u) (hpre : sent.flatten <+: us.flatten)
    (hno : ¬Conflict sent.flatten) :
    c.delivered <+: messagesOf sent.flatten ∧
      (c.parsing = false → ¬Stalled c.mstMsgCache → c.delivered = messagesOf sent.flatten) := by
  obtain ⟨vs, r, hP, hvs, hnone, hr⟩ := exists_units hus hpre
  have ht := hf.tracks
  have hrow : (gs.flatten ++ gfs).flatten ++ rest = vs.flatten ++ r := by
    have := ht.stream.symm.trans hP
    simpa using this
  obtain ⟨ws, rfl, rfl⟩ := Framing.parse_maximal (fun u hu => ht.whole_of_mem hu) (fun u hu => (hvs u hu).1) hrow hnone
  obtain ⟨hs, o, hgo, hhs, ho⟩ := exists_groups isFin (gfs ++ ws)
  have hunits : gs.flatten ++ gfs ++ ws = (gs ++ hs).flatten ++ o := by
    rw [List.append_assoc, hgo, List.flatten_append, List.append_assoc]
  have hunit : ∀ u ∈ ws, frameUnits.Whole u := fun u hu => (hvs u (List.mem_append_right _ hu)).1
  rw [hunits] at hvs hP
  have hgroup : ∀ h ∈ gs ++ hs, FrameGroup h := fun h hh => by
    refine ⟨fun u hu => (hvs u (List.mem_append_left _ (List.mem_flatten_of_mem hh hu))).1, ?_⟩
    rcases List.mem_append.mp hh with hh | hh
    · exact (ht.groups h hh).1.group
    · exact hhs h hh
  have hclash : ∀ h ∈ gs ++ hs, ¬Clash h := by
    intro h hh hc
    obtain ⟨done, later, he⟩ := List.append_of_mem hh
    rw [he] at hP hgroup
    refine hno ⟨done, h, (later.flatten ++ o).flatten ++ r, by simp [hP], ?_, ?_, hc⟩
    · exact fun k hk => hgroup k (List.mem_append_left _ hk)
    · exact hgroup h (by simp)
  have hall : messagesOf sent.flatten = (gs ++ hs).map messageOf := by
    rw [hP]
    exact messagesOf_groups hvs (fun h hh => ⟨(hgroup h hh).group, hclash h hh⟩) ho hr
  rw [hall, List.map_append, ht.delivered]
  refine ⟨List.prefix_append _ _, fun hidle hst => ?_⟩
  have hsize := (hf.idle hidle).resolve_left hst
  have hws : ws = [] := by
    cases ws with
    | nil => rfl
    | cons u ws =>
      rw [List.flatten_cons, List.append_assoc, (hunit u (by simp)).size_append] at hsize
      exact absurd hsize (by simp)
  cases hs with
  | nil => exact (List.append_nil _).symm
  | cons h hs =>
    -- a further message would have its last frame among the open ones
    obtain ⟨init, l, rfl, _, hl⟩ := hhs h List.mem_cons_self
    have hmem : l ∈ gfs := by
      rw [hws, List.append_nil] at hgo
      rw [hgo]
      simp
    exact absurd (ht.opened l hmem) (by simp [hl])

/-- What the receiver has handed out of a row of frames is what a decoder of the
wire format finds at its head; and it is all of that when the last `ParseMsg` is
over and the cache does not wait for a remembered length. -/
theorem delivered_reference (S : List UInt8) (fs : List RefFrame) (hrow : FrameRow S fs) (acts : List RecvAct)
    (c : Receiver) (hrun : Machine.exec Receiver.step .start acts = some c) (hpre : (received acts).flatten <+: S)
    (hno : ¬Conflict (received acts).flatten) :
    c.delivered <+: messagesOf (received acts).flatten ∧
      (c.parsing = false → ¬Stalled c.mstMsgCache → c.delivered = messagesOf (received acts).flatten) := by
  obtain ⟨us, rfl, hus, _⟩ := hrow.units
  obtain ⟨gs, gfs, rest, hf⟩ := follows_start.exec hrun (by rwa [List.nil_append])
  rw [List.nil_append] at hf
  exact hf.reference hus hpre hno

theorem frameRow_letters : FrameRow [0x81, 1, 97, 0x82, 1, 98] [⟨true, 1, [97]⟩, ⟨true, 2, [98]⟩] :=
  .cons rfl (by decide) (by decide) (.cons rfl (by decide) (by decide) .nil)

/-- The row has arrived up to the length of its second frame. -/
theorem delivered_reference_letters :
    ∃ c, Machine.exec Receiver.step .start [.recv [0x81, 1, 97, 0x82, 1], .decode zeros, .decode zeros] = some c ∧
      c.parsing = false ∧ c.delivered <+: messagesOf [0x81, 1, 97, 0x82, 1] := by
  have hrun : (Machine.exec Receiver.step .start [.recv [0x81, 1, 97, 0x82, 1], .decode zeros, .decode zeros]).map
      (fun c => c.parsing) = some false := by decide
  obtain ⟨c, hc, hidle⟩ := Option.map_eq_some_iff.mp hrun
  have hall := delivered_reference _ _ frameRow_letters _ c hc ⟨[98], rfl⟩
    fun h => absurd (Conflict.length h) (by decide)
  exact ⟨c, hc, hidle, hall.1⟩

end SrWebSocket
