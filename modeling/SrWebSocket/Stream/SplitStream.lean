import SrWebSocket.Stream.Cuts
import SrWebSocket.Stream.ReceiveLoop

/-! # How cutting the stream changes what is delivered

A stream of messages is delivered in full however it is cut, unless a cut falls
into a length field and the bytes of the length that are still missing, read from
memory, can make a length that passes the end of the stream. Then a run exists
that waits for that length for ever.
-/
namespace SrWebSocket

def DeliversLikeWhole (chunks : List (List UInt8)) : Prop :=
  ∀ r r', Feeds chunks r → Feeds [chunks.flatten] r' → r.delivered = r'.delivered

variable {sent chunks pre post : List (List UInt8)} {r r' : Receiver} {gs : List (List (List UInt8))}
  {fs us done more : List (List UInt8)} {rest part u c : List UInt8}

theorem exists_feeds (hno : ¬Conflict chunks.flatten) (hlen : chunks.flatten.length < 2 ^ 63) :
    ∃ r, Feeds chunks r := by
  obtain ⟨acts, r, hr, ⟨hrec, gs, fs, rest, hrest⟩ | ⟨_, hc, _⟩⟩ := exists_patient_run chunks hlen
  · exact ⟨r, acts, hrec, hr, hrest.idle⟩
  · exact absurd hc hno

theorem cutsSafe_of_header (hus : ∀ u ∈ us, frameUnits.Whole u)
    (h : ∀ done u more pre post part, us = done ++ u :: more → chunks = pre ++ post →
      pre.flatten = done.flatten ++ part → part <+: u → part.length < 2 ∨ headerLen (bytesOf u) ≤ part.length) :
    CutsSafe us chunks := by
  intro done u more pre post part hrow hchunks hpre hpart h2
  have hhead := (h done u more pre post part hrow hchunks hpre hpart).resolve_left (by omega)
  rw [frameSize_of_header (hus u (by rw [hrow]; simp)) hpart hhead, List.flatten_cons, List.length_append]
  omega

theorem cutsSafe_whole (hus : ∀ u ∈ us, frameUnits.Whole u) : CutsSafe us [us.flatten] := by
  apply cutsSafe_of_header hus
  intro done u more pre post part hrow hchunks hpre hpart
  cases pre with
  | nil =>
    have hnil : part = [] := (List.append_eq_nil_iff.mp hpre.symm).2
    exact Or.inl (by rw [hnil]; decide)
  | cons p pre =>
    rw [List.cons_append, List.cons.injEq] at hchunks
    have hpre0 : pre = [] := (List.append_eq_nil_iff.mp hchunks.2.symm).1
    rw [hpre0, ← hchunks.1, hrow] at hpre
    have hend : part = u ++ more.flatten := by simpa using hpre.symm
    have hle := headerLen_le (hus u (by rw [hrow]; simp))
    rw [hend, List.length_append]
    exact Or.inr (by omega)

theorem exists_first_cut {D : List UInt8} (hpre : pre.flatten = D ++ part) (h2 : 2 ≤ part.length) :
    ∃ before c after part' more, pre = before ++ c :: after ∧ (before ++ [c]).flatten = D ++ part' ∧
      2 ≤ part'.length ∧ part = part' ++ more ∧ before.flatten.length < D.length + 2 := by
  induction pre using List.reverseRecOn generalizing part with
  | nil =>
    have hnil : part = [] := (List.append_eq_nil_iff.mp hpre.symm).2
    rw [hnil] at h2
    exact absurd h2 (by decide)
  | append_singleton pre c ih =>
    by_cases hlt : pre.flatten.length < D.length + 2
    · exact ⟨pre, c, [], part, [], rfl, hpre, h2, by simp, hlt⟩
    · rw [List.flatten_append, List.flatten_singleton] at hpre
      obtain ⟨part₁, hpre₁⟩ : D <+: pre.flatten :=
        List.prefix_of_prefix_length_le ⟨part, rfl⟩ ⟨c, hpre⟩ (by omega)
      have hpart : part = part₁ ++ c := by
        rw [← hpre₁, List.append_assoc] at hpre
        exact (List.append_cancel_left hpre).symm
      have h2' : 2 ≤ part₁.length := by
        have := congrArg List.length hpre₁
        rw [List.length_append] at this
        omega
      obtain ⟨before, d, after, part', rest, rfl, hb, hp', hpp, hlt'⟩ := ih hpre₁.symm h2'
      exact ⟨before, d, after ++ [c], part', rest ++ c, by simp, hb, hp', by rw [hpart, hpp, List.append_assoc], hlt'⟩

theorem Feeds.stalled_step (h : Feeds sent r) (ht : Tracks sent.flatten r gs fs rest)
    (hbig : (rest ++ c).length < r.mstMsgCache.iCurFrameLen) (hlen : (sent ++ [c]).flatten.length < 2 ^ 63) :
    ∃ r', Feeds (sent ++ [c]) r' ∧ Tracks (sent ++ [c]).flatten r' gs fs (rest ++ c) ∧
      r'.mstMsgCache.iCurFrameLen = r.mstMsgCache.iCurFrameLen ∧ r'.delivered = r.delivered := by
  have hle := ht.length_le
  have htf : (sent ++ [c]).flatten = sent.flatten ++ c := by simp
  rw [htf, List.length_append] at hlen
  rw [htf]
  obtain ⟨acts, hrec, hrun, hidle⟩ := h
  have hfit : r.mstMsgCache.pBuffer.length + c.length < 2 ^ 63 := by omega
  have hstep := step_recv_eq_some.mpr ⟨⟨hidle, hfit⟩, rfl⟩
  have ht' := ht.recv hstep
  by_cases hp : 0 < (r.mstMsgCache.append c).pBuffer.length
  · have hlen' := ht'.scanned.length_eq
    have hst : Stalled (r.mstMsgCache.append c) := by
      change (r.mstMsgCache.append c).pBuffer.length <
        r.mstMsgCache.iCurFrameLen + (r.mstMsgCache.append c).iCurFrameIndex
      dsimp only at hlen'
      omega
    have hdec := ht'.decode_stalled (decide_eq_true hp) hst zeros
    exact ⟨{ r with mstMsgCache := r.mstMsgCache.append c, parsing := false },
      ⟨acts ++ [.recv c, .decode zeros], by simp [hrec, received],
        Machine.exec_append.mpr ⟨r, hrun, Machine.exec_cons_eq_some.mpr ⟨_, hstep,
          Machine.exec_cons_eq_some.mpr ⟨_, hdec, rfl⟩⟩⟩, rfl⟩, ht'.idle, rfl, rfl⟩
  · exact ⟨_, ⟨acts ++ [.recv c], by simp [hrec, received],
      Machine.exec_append.mpr ⟨r, hrun, Machine.exec_cons_eq_some.mpr ⟨_, hstep, rfl⟩⟩, decide_eq_false hp⟩,
      ht', rfl, rfl⟩

/-- A receiver that remembers too long a length takes nothing more from its stream. -/
theorem Feeds.stalled (h : Feeds sent r) (ht : Tracks sent.flatten r gs fs rest)
    (hbig : (rest ++ post.flatten).length < r.mstMsgCache.iCurFrameLen)
    (hlen : (sent ++ post).flatten.length < 2 ^ 63) : ∃ r', Feeds (sent ++ post) r' ∧ r'.delivered = r.delivered := by
  induction post generalizing sent r rest with
  | nil => exact ⟨r, by simpa using h, rfl⟩
  | cons c post ih =>
    rw [List.flatten_cons, ← List.append_assoc] at hbig
    have hlen' : ((sent ++ [c]) ++ post).flatten.length < 2 ^ 63 := by simpa using hlen
    have hbig' : (rest ++ c).length < r.mstMsgCache.iCurFrameLen := by
      rw [List.length_append] at hbig
      omega
    have hone : (sent ++ [c]).flatten.length < 2 ^ 63 := by
      rw [List.flatten_append, List.length_append] at hlen'
      omega
    obtain ⟨r₁, h₁, ht₁, hg, hdel⟩ := h.stalled_step ht hbig' hone
    obtain ⟨r', h', hdel'⟩ := ih h₁ ht₁ (by rw [hg]; exact hbig) hlen'
    exact ⟨r', by simpa using h', hdel'.trans hdel⟩

theorem Tracks.buffer_pos (ht : Tracks (done.flatten ++ part) r gs fs rest) (hdone : ∀ v ∈ done, frameUnits.Whole v)
    (hnone : frameUnits.size part = none) (hpart : part ≠ []) : 0 < r.mstMsgCache.pBuffer.length := by
  by_contra hp
  obtain ⟨hfs, hrest⟩ := ht.scanned.empty hp
  have hrow : gs.flatten.flatten ++ [] = done.flatten ++ part := by
    rw [ht.stream, hfs, hrest]
    rfl
  obtain ⟨_, hnil⟩ := Framing.parse_unique (fun v hv => ht.whole_of_mem (List.mem_append_left _ hv)) hdone hrow
    Framing.size_nil hnone
  exact hpart hnil.symm

/-- No length has been read while fewer than two bytes are behind the cursor. -/
theorem Tracks.iCurFrameLen_eq_zero (ht : Tracks sent.flatten r gs fs rest) (hno : ¬Conflict sent.flatten)
    {acts : List RecvAct} (hrun : Machine.exec Receiver.step .start acts = some r) (hrec : received acts = sent)
    (hshort : rest.length < 2) : r.mstMsgCache.iCurFrameLen = 0 := by
  rw [← hrec] at hno
  obtain ⟨_, _, rest', hf⟩ := follows_start.exec hrun hno
  apply hf.readAtCut.eq_zero
  rwa [hf.tracks.scanned.rest_eq.trans ht.scanned.rest_eq.symm]

theorem Emptied.not_stalled {P t : List UInt8} {ks : List (List UInt8)} (h : Emptied P r gs fs ks t)
    (h0 : ks = [] → r.mstMsgCache.iCurFrameLen = 0) : ¬Stalled r.mstMsgCache := by
  cases ks with
  | nil =>
    have hlen := h.tracks.scanned.length_eq
    have hzero := h0 rfl
    unfold Stalled
    omega
  | cons k ks =>
    apply h.tracks.not_stalled h.patient
    rw [List.flatten_cons, List.append_assoc, (h.whole k List.mem_cons_self).size_append]
    simp

/-- At the first cut at which a length can be read, it can be read with ones for its missing bytes. -/
theorem exists_read_ff {missing : List UInt8} (hno : ¬Conflict (pre ++ [c]).flatten)
    (hlen : (pre ++ [c]).flatten.length < 2 ^ 63) (hdone : ∀ v ∈ done, frameUnits.Whole v)
    (hpre : (pre ++ [c]).flatten = done.flatten ++ part) (hu : frameUnits.Whole u) (hpart : u = part ++ missing)
    (hne : missing ≠ []) (h2 : 2 ≤ part.length) (hfirst : pre.flatten.length < done.flatten.length + 2) :
    ∃ r gs fs, Feeds (pre ++ [c]) r ∧ Tracks (pre ++ [c]).flatten r gs fs part ∧ gs.flatten ++ fs = done ∧
      r.mstMsgCache.iCurFrameLen = frameSize (memory part fun _ => 0xff) := by
  have hflat : (pre ++ [c]).flatten = pre.flatten ++ c := by simp
  rw [hflat] at hno hlen hpre ⊢
  have hnone : frameUnits.size part = none := hu.size_prefix hpart hne
  rw [List.length_append] at hlen
  obtain ⟨acts, r, hr, ⟨hrec, gs, fs, rest, hrest⟩ | ⟨_, hc, _⟩⟩ := exists_patient_run pre (by omega)
  · have hle := hrest.tracks.length_le
    have hfit : r.mstMsgCache.pBuffer.length + c.length < 2 ^ 63 := by omega
    have hstep := step_recv_eq_some.mpr ⟨⟨hrest.idle, hfit⟩, rfl⟩
    have ht := hrest.tracks.recv hstep
    have hp : 0 < (r.mstMsgCache.append c).pBuffer.length := by
      rw [hpre] at ht
      exact ht.buffer_pos hdone hnone (List.length_pos_iff.mp (by omega))
    obtain ⟨n, q, hq, hqp, ⟨gs', fs', ks, t, hE, hlast⟩ | ⟨hc, _⟩⟩ :=
      ht.drain_open (decide_eq_true hp) (hrest.patient.append c)
    · have hE' := hE.tracks
      have hrow : (gs'.flatten ++ fs' ++ ks).flatten ++ t = done.flatten ++ part := by
        rw [← hpre, hE'.stream]
        simp
      obtain ⟨hdone', rfl⟩ := Framing.parse_unique
        (fun v hv => (List.mem_append.mp hv).elim (fun hv => hE'.whole_of_mem hv) (hE.whole v)) hdone hrow hE.used hnone
      have hst : ¬Stalled q.mstMsgCache := by
        refine hE.not_stalled fun hks => hlast.elim (fun hq' => ?_) id
        -- nothing has been taken, and before `c` came there were fewer than two bytes behind the frames
        subst hq' hks
        refine hrest.tracks.iCurFrameLen_eq_zero (fun hc => hno (hc.append c)) hr hrec ?_
        have hrt : rest ++ c = t := ht.scanned.rest_eq.trans hE'.scanned.rest_eq.symm
        have hl := congrArg List.length hpre
        have hl' := congrArg List.length hrt
        rw [List.length_append, List.length_append] at hl
        rw [List.length_append] at hl'
        omega
      have hdec := hE'.decode_open hqp hE.whole hE.opened hE.used hst fun _ => 0xff
      have ht₂ := hE'.scanStop hE.whole hE.opened fun _ => 0xff
      refine ⟨_, gs', fs' ++ ks,
        ⟨acts ++ .recv c :: (List.replicate n (.decode zeros) ++ [.decode fun _ => 0xff]), ?_, ?_, rfl⟩,
        ht₂, by rw [← hdone', List.append_assoc], ?_⟩
      · simp [received, received_replicate, hrec]
      · exact Machine.exec_append.mpr ⟨r, hr, Machine.exec_cons_eq_some.mpr ⟨_, hstep,
          Machine.exec_append.mpr ⟨q, hq, Machine.exec_cons_eq_some.mpr ⟨_, hdec, rfl⟩⟩⟩⟩
      · exact (hE'.scanned.acceptAll hE.whole).scanStop_reads h2 (length_le_ff hu hpart h2).2
    · exact absurd hc hno
  · exact absurd (hc.append c) hno

theorem Feeds.delivered_whole {ms : List WireMsg} (h : Feeds [ms.flatMap WireMsg.wire] r) :
    r.delivered = ms.map WireMsg.message := by
  apply h.delivered (by simp)
  have hwire : ms.flatMap WireMsg.wire = (ms.flatMap WireMsg.frames).flatten := by
    rw [flatMap_wire, List.flatMap_def]
  rw [hwire]
  exact cutsSafe_whole fun u hu => frames_whole_of_mem (by rwa [← List.flatMap_def])

/-- An unsafe cut loses a message on some memory. -/
theorem exists_lost {ms : List WireMsg} (hwire : chunks.flatten = ms.flatMap WireMsg.wire)
    (hlen : chunks.flatten.length < 2 ^ 63) (hcut : ¬CutsSafe (ms.flatMap WireMsg.frames) chunks) :
    ∃ r, Feeds chunks r ∧ r.delivered.length < ms.length := by
  unfold CutsSafe at hcut
  push Not at hcut
  obtain ⟨done, u, more, pre, post, part, hrow, rfl, hpre, hpart, h2, hlong⟩ := hcut
  have hall : ∀ v ∈ ms.flatMap WireMsg.frames, frameUnits.Whole v := fun v hv =>
    frames_whole_of_mem (by rwa [← List.flatMap_def])
  have hu : frameUnits.Whole u := hall u (by rw [hrow]; simp)
  obtain ⟨before, c, after, part', extra, rfl, hb, h2', rfl, hfirst⟩ := exists_first_cut hpre h2
  have hff : frameSize (memory (part' ++ extra) fun _ => 0xff) ≤ frameSize (memory part' fun _ => 0xff) := ff_anti h2'
  obtain ⟨rest, hrest⟩ := hpart
  rw [List.append_assoc] at hrest
  have hne : extra ++ rest ≠ [] := by
    intro hnil
    rw [hnil, List.append_nil] at hrest
    rw [hrest, frameSize_of_header hu List.prefix_rfl (headerLen_le hu)] at hff
    rw [hrest, List.flatten_cons, List.length_append] at hlong
    omega
  have hsplit : (before ++ c :: after) ++ post = (before ++ [c]) ++ (after ++ post) := by simp
  have hno : ¬Conflict (before ++ [c]).flatten := by
    intro hc
    apply not_conflict_wire ms
    rw [← hwire, hsplit, List.flatten_append]
    exact hc.append _
  rw [hsplit] at hwire hlen ⊢
  have hlenb : (before ++ [c]).flatten.length < 2 ^ 63 := by
    rw [List.flatten_append, List.length_append] at hlen
    omega
  obtain ⟨r, gs, fs, hr, ht, hdone, hg⟩ := exists_read_ff hno hlenb
    (fun v hv => hall v (by rw [hrow]; exact List.mem_append_left _ hv)) hb hu hrest.symm hne h2' hfirst
  have htotal : part' ++ (after ++ post).flatten = (u :: more).flatten := by
    have hl := hwire.trans (flatMap_wire ms)
    rw [List.flatten_append, hb, ← List.flatMap_def, hrow, List.append_assoc] at hl
    exact List.append_cancel_left (hl.trans List.flatten_append)
  have hbig : (part' ++ (after ++ post).flatten).length < r.mstMsgCache.iCurFrameLen := by
    rw [hg, htotal]
    omega
  obtain ⟨r', hr', hdel⟩ := hr.stalled ht hbig hlen
  refine ⟨r', hr', ?_⟩
  have hmsgs : (ms.map WireMsg.frames).flatten ++ [] = gs.flatten ++ fs ++ (u :: more) := by
    rw [List.append_nil, ← List.flatMap_def, hrow, hdone]
  obtain ⟨ms₁, ms₂, rfl, _, hdel₁, htail⟩ := ht.messages openFrames_nil hmsgs
  have h₂ : ms₂ ≠ [] := by
    rintro rfl
    simp at htail
  have := List.length_pos_iff.mpr h₂
  rw [hdel, hdel₁, List.length_map, List.length_append]
  omega

/-- Every receive loop on a stream of messages ends, and cutting the stream makes
no difference, on any memory, exactly when all of its cuts are safe. -/
theorem deliversLikeWhole_iff (ms : List WireMsg) (chunks : List (List UInt8))
    (hwire : chunks.flatten = ms.flatMap WireMsg.wire) (hlen : chunks.flatten.length < 2 ^ 63) :
    ReceiveLoopEnds chunks ∧ (DeliversLikeWhole chunks ↔ CutsSafe (ms.flatMap WireMsg.frames) chunks) := by
  have hno : ¬Conflict chunks.flatten := by
    rw [hwire]
    exact not_conflict_wire ms
  refine ⟨receiveLoopEnds_of_not_conflict hno, ?_, ?_⟩
  · intro hsame
    by_contra hcut
    obtain ⟨r, hr, hlost⟩ := exists_lost hwire hlen hcut
    obtain ⟨r', hr'⟩ : ∃ r', Feeds [chunks.flatten] r' := exists_feeds (by simpa using hno) (by simpa using hlen)
    have hdel := hsame r r' hr hr'
    rw [hwire] at hr'
    rw [hdel, hr'.delivered_whole, List.length_map] at hlost
    exact lt_irrefl _ hlost
  · intro hsafe r r' hr hr'
    rw [hwire] at hr'
    rw [hr.delivered hwire hsafe, hr'.delivered_whole]

theorem deliversLikeWhole_greeting : DeliversLikeWhole [greeting.wire.take 3, greeting.wire.drop 3] := by
  have hus : ∀ u ∈ [greeting].flatMap WireMsg.frames, frameUnits.Whole u := fun u hu => frames_whole_of_mem hu
  refine (deliversLikeWhole_iff [greeting] _ (by decide) (by decide)).2.mpr (cutsSafe_of_header hus ?_)
  intro done u more pre post part hrow hchunks hpre hpart
  have hu := headerLen_le (hus u (by rw [hrow]; simp))
  have htotal := congrArg (fun us => us.flatten.length) hrow
  have hlen := congrArg List.length hpre
  simp only [List.flatten_append, List.flatten_cons, List.length_append] at htotal hlen
  rcases pre with _ | ⟨a, _ | ⟨b, pre⟩⟩
  · exact Or.inl (by rw [List.flatten_nil, List.length_nil] at hlen; omega)
  · obtain ⟨rfl, _⟩ := List.cons.inj hchunks
    have hthree : (greeting.wire.take 3).length = 3 := by decide
    cases done with
    | nil =>
      obtain ⟨rfl, _⟩ := List.cons.inj hrow
      have htwo : headerLen (bytesOf (wireFrame false greeting.opcode greeting.first)) = 2 := by decide
      simp only [List.flatten_nil, List.length_nil, List.flatten_cons, List.length_append] at hlen
      exact Or.inr (by omega)
    | cons d done =>
      obtain ⟨rfl, _⟩ := List.cons.inj hrow
      have height : (wireFrame false greeting.opcode greeting.first).length = 8 := by decide
      simp only [List.flatten_nil, List.length_nil, List.flatten_cons, List.length_append] at hlen
      omega
  · obtain ⟨rfl, hrest⟩ := List.cons.inj hchunks
    obtain ⟨rfl, _⟩ := List.cons.inj hrest
    have hwire : ([greeting].flatMap WireMsg.frames).flatten.length =
        (greeting.wire.take 3).length + (greeting.wire.drop 3).length := by decide
    simp only [List.flatten_cons, List.length_append] at hlen
    exact Or.inr (by omega)

def longText : WireMsg where
  opcode := wsFrameText
  opcode_ne := greeting.opcode_ne
  opcode_lt := greeting.opcode_lt
  first := ⟨.medium, none, List.replicate 126 97, by simp, by simp, by simp [LenForm.Fits]⟩
  more := []

/-- The cache after a call on the first two bytes of `longText`, with 0xFF behind
them: it waits for 65535 payload bytes. -/
def longTextCache : WsMsgCache := (WsMsgCache.fresh [0x81, 0x7e]).remember 65539

/-- Cut after two bytes, `longText` is never delivered when those are followed by
0xFF in memory. -/
theorem longText_lost :
    (∃ r, Feeds [longText.wire.take 2, longText.wire.drop 2] r ∧ r.delivered = []) ∧
    ¬DeliversLikeWhole [longText.wire.take 2, longText.wire.drop 2] := by
  have hhead : longText.wire.take 2 = [0x81, 0x7e] := rfl
  have hlen : longText.wire.length = 130 := by simp [WireMsg.wire, WireMsg.frames, framesFrom, length_wireFrame,
    longText, LenForm.extended, Fragment.keyBytes]
  have htail : (longText.wire.drop 2).length = 128 := by rw [List.length_drop, hlen]
  have hlost : ∃ r, Feeds [longText.wire.take 2, longText.wire.drop 2] r ∧ r.delivered = [] := by
    let first : Receiver := ⟨.fresh [0x81, 0x7e], none, true, []⟩
    let waiting : Receiver := ⟨longTextCache, none, false, []⟩
    let second : Receiver := ⟨longTextCache.append (longText.wire.drop 2), none, true, []⟩
    have hfirst : Receiver.step .start (.recv [0x81, 0x7e]) = some first :=
      step_recv_eq_some.mpr ⟨⟨rfl, by decide⟩, rfl⟩
    have hwait : first.step (.decode fun _ => 0xff) = some waiting := by
      have hcall : decodeMsg 64 (callFuel (.fresh [0x81, 0x7e])) (fun _ => 0xff) (.fresh [0x81, 0x7e]) none =
          some ⟨0, longTextCache, none⟩ := by decide
      exact step_decode (r := first) rfl hcall
    have hused : second.mstMsgCache.pBuffer.length = 130 := by
      change ([0x81, 0x7e] ++ longText.wire.drop 2).length = 130
      rw [List.length_append, htail]
      rfl
    have hsecond : waiting.step (.recv (longText.wire.drop 2)) = some second := by
      refine step_recv_eq_some.mpr ⟨⟨rfl, ?_⟩, ?_⟩
      · rw [htail]
        decide
      · change second = ⟨second.mstMsgCache, none, decide (0 < second.mstMsgCache.pBuffer.length), []⟩
        rw [hused]
        rfl
    have hcall := decodeMsg_stalled (c := second.mstMsgCache) (by decide) (by rw [hused]; decide)
      (callFuel second.mstMsgCache) zeros none
    refine ⟨{ second with parsing := false }, ⟨[.recv [0x81, 0x7e], .decode fun _ => 0xff,
      .recv (longText.wire.drop 2), .decode zeros], rfl, ?_, rfl⟩, rfl⟩
    exact Machine.exec_cons_eq_some.mpr ⟨first, hfirst, Machine.exec_cons_eq_some.mpr ⟨waiting, hwait,
      Machine.exec_cons_eq_some.mpr ⟨second, hsecond, Machine.exec_cons_eq_some.mpr
        ⟨_, step_decode (r := second) rfl hcall, rfl⟩⟩⟩⟩
  refine ⟨hlost, fun hsame => ?_⟩
  obtain ⟨r, hr, hdel⟩ := hlost
  have hwhole : [longText.wire.take 2, longText.wire.drop 2].flatten = [longText].flatMap WireMsg.wire := by
    simp
  obtain ⟨r', hr'⟩ : ∃ r', Feeds [[longText].flatMap WireMsg.wire] r' :=
    exists_feeds (by simpa using not_conflict_wire [longText]) (by simp [hlen])
  have := hsame r r' hr (hwhole ▸ hr')
  rw [hdel, hr'.delivered_whole] at this
  exact absurd this (by simp)

end SrWebSocket
