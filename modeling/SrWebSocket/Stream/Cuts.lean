import SrWebSocket.Stream.PatientRun
import SrWebSocket.Wire.DecodeStream

/-! # The remembered length and the cuts of the stream

The cache remembers the length of a frame as soon as two bytes of it are there.
When the stream is cut inside the length field, the missing bytes of the length
are read from the memory behind the used bytes. A receiver stays behind its
stream only while it remembers a length read in front of such a cut.
-/
namespace SrWebSocket

/-- A run that has received these chunks and has returned from its last `ParseMsg`. -/
def Feeds (chunks : List (List UInt8)) (r : Receiver) : Prop :=
  ∃ acts, received acts = chunks ∧ Machine.exec Receiver.step .start acts = some r ∧ r.parsing = false

/-- The remembered length was read when the bytes behind the cursor ended at a cut. -/
def ReadAtCut (chunks : List (List UInt8)) (g : ℕ) (rest : List UInt8) : Prop :=
  g = 0 ∨ ∃ pre post part junk, chunks = pre ++ post ∧ rest = part ++ post.flatten ∧ 2 ≤ part.length ∧
    g = frameSize (memory part junk)

/-- No length that can be read in front of a cut passes the end of the stream. -/
def CutsSafe (us : List (List UInt8)) (chunks : List (List UInt8)) : Prop :=
  ∀ done u more pre post part, us = done ++ u :: more → chunks = pre ++ post →
    pre.flatten = done.flatten ++ part → part <+: u → 2 ≤ part.length →
    frameSize (memory part fun _ => 0xff) ≤ (u :: more).flatten.length

structure Follows (sent : List (List UInt8)) (r : Receiver) (gs : List (List (List UInt8)))
    (fs : List (List UInt8)) (rest : List UInt8) : Prop where
  tracks : Tracks sent.flatten r gs fs rest
  readAtCut : ReadAtCut sent r.mstMsgCache.iCurFrameLen rest
  idle : r.parsing = false → Stalled r.mstMsgCache ∨ frameUnits.size rest = none

variable {sent chunks : List (List UInt8)} {r r' : Receiver} {gs : List (List (List UInt8))}
  {fs us os : List (List UInt8)} {rest part chunk u : List UInt8} {g : ℕ} {junk : ℕ → UInt8}

theorem follows_start : Follows [] .start [] [] [] where
  tracks := tracks_start
  readAtCut := Or.inl rfl
  idle _ := Or.inr Framing.size_nil

theorem ReadAtCut.append (h : ReadAtCut sent g rest) (chunk : List UInt8) :
    ReadAtCut (sent ++ [chunk]) g (rest ++ chunk) := by
  rcases h with h0 | ⟨pre, post, part, junk, rfl, rfl, h2, hg⟩
  · exact Or.inl h0
  · exact Or.inr ⟨pre, post ++ [chunk], part, junk, by simp, by simp, h2, hg⟩

theorem ReadAtCut.eq_zero (h : ReadAtCut sent g rest) (hlen : rest.length < 2) : g = 0 := by
  rcases h with h0 | ⟨pre, post, part, junk, _, rfl, h2, _⟩
  · exact h0
  · rw [List.length_append] at hlen
    omega

theorem Follows.recv (h : Follows sent r gs fs rest) (he : r.step (.recv chunk) = some r') :
    Follows (sent ++ [chunk]) r' gs fs (rest ++ chunk) := by
  have ht := h.tracks.recv he
  obtain ⟨_, hr'⟩ := step_recv_eq_some.mp he
  refine ⟨by simpa using ht, ?_, ?_⟩
  · rw [hr']
    exact h.readAtCut.append chunk
  · intro hidle
    rw [hr'] at ht hidle
    rw [(ht.scanned.empty (of_decide_eq_false hidle)).2]
    exact Or.inr Framing.size_nil

theorem Follows.decode (h : Follows sent r gs fs rest) (hno : ¬Conflict sent.flatten)
    (he : r.step (.decode junk) = some r') : ∃ gs' fs' rest', Follows sent r' gs' fs' rest' := by
  have hp : r.parsing = true := by
    by_contra hp
    simp [Receiver.step, hp] at he
  have ht := h.tracks
  obtain ⟨q, hq, ho⟩ := ht.decode hp junk
  obtain rfl := Option.some.inj (he.symm.trans hq)
  cases ho with
  | stalled hst hr' =>
    subst hr'
    refine ⟨gs, fs, rest, ⟨?_, h.readAtCut, fun _ => Or.inl hst⟩⟩
    exact ⟨ht.stream, ht.groups, ht.delivered, ht.scanned, ht.opened, ht.complete, ht.remembered, ht.pending⟩
  | message _ ks t _ _ _ hr' ht' =>
    refine ⟨_, _, _, ⟨ht', Or.inl (by rw [hr']; rfl), fun hidle => ?_⟩⟩
    rw [hr'] at hidle
    exact absurd (hp.symm.trans hidle) (by simp)
  | clash _ ks t hrest hg hc _ =>
    exact absurd ⟨gs, fs ++ ks, t, by simp [ht.stream, hrest], fun k hk => (ht.groups k hk).1, hg, hc⟩ hno
  | waiting _ ks t hrest hks _ hnone hr' ht' =>
    refine ⟨gs, fs ++ ks, t, ⟨ht', ?_, fun _ => Or.inr hnone⟩⟩
    have hacc : Scanned (r.mstMsgCache.acceptAll ks) (fs ++ ks) t := (hrest ▸ ht.scanned).acceptAll hks
    have hold : ReadAtCut sent (r.mstMsgCache.acceptAll ks).iCurFrameLen t := by
      rw [acceptAll_iCurFrameLen]
      split
      · rename_i hnil
        simpa [hrest, hnil] using h.readAtCut
      · exact Or.inl rfl
    rw [hr']
    rcases scanStop_cases junk (r.mstMsgCache.acceptAll ks) with ⟨_, hs⟩ | ⟨_, hs, _⟩ | ⟨h2, hs, _⟩
    · rw [hs]
      exact hold
    · rw [hs]
      exact hold
    · rw [hs]
      have hlen := hacc.length_eq
      exact Or.inr ⟨sent, [], t, _, by simp, by simp, by omega, congrArg frameSize (hacc.header junk)⟩

theorem Follows.exec {acts : List RecvAct} (h : Follows sent r gs fs rest)
    (he : Machine.exec Receiver.step r acts = some r') (hno : ¬Conflict (sent ++ received acts).flatten) :
    ∃ gs' fs' rest', Follows (sent ++ received acts) r' gs' fs' rest' := by
  induction acts generalizing sent r gs fs rest with
  | nil =>
    cases he
    exact ⟨gs, fs, rest, by simpa [received] using h⟩
  | cons a acts ih =>
    obtain ⟨q, hq, hrun⟩ := Machine.exec_cons_eq_some.mp he
    cases a with
    | recv chunk =>
      have := ih (h.recv hq) hrun (by simpa [received] using hno)
      simpa [received] using this
    | decode junk =>
      have hnos : ¬Conflict sent.flatten := by
        intro hc
        rw [List.flatten_append] at hno
        exact hno (hc.append _)
      obtain ⟨gs', fs', rest', h'⟩ := h.decode hnos hq
      exact ih h' hrun hno

/-! ## Lengths read from whole headers -/

theorem headerLen_le (hu : frameUnits.Whole u) : headerLen (bytesOf u) ≤ u.length := by
  have := (whole_iff.mp hu).2
  unfold frameSize at this
  omega

theorem frameSize_eq_length (hu : frameUnits.Whole u) {p : ℕ → UInt8}
    (h : ∀ i < headerLen (bytesOf u), bytesOf u i = p i) : frameSize p = u.length :=
  (congrArg WsMsgFrame.expectsize (frameOf_congr h)).symm.trans (whole_iff.mp hu).2

theorem frameSize_of_header (hu : frameUnits.Whole u) (hpart : part <+: u)
    (hlen : headerLen (bytesOf u) ≤ part.length) : frameSize (memory part junk) = u.length := by
  apply frameSize_eq_length hu
  intro i hi
  obtain ⟨missing, rfl⟩ := hpart
  exact memory_append_left (by omega)

theorem frameSize_append (hu : frameUnits.Whole u) (more : List UInt8) :
    frameSize (memory (u ++ more) junk) = u.length :=
  frameSize_eq_length hu fun _ hi => (memory_append_left (hi.trans_le (headerLen_le hu))).symm

/-! ## Lengths read on memory full of ones -/

theorem frameSize_le_ff (h2 : 2 ≤ part.length) (junk : ℕ → UInt8) :
    frameSize (memory part junk) ≤ frameSize (memory part fun _ => 0xff) := by
  apply frameSize_mono (memory_congr (by omega))
  intro i _
  by_cases hi : i < part.length
  · rw [memory_congr hi]
  · have := UInt8.toNat_lt (memory part junk i)
    have hff : memory part (fun _ => 0xff) i = 0xff := memory_of_le (by omega)
    rw [hff]
    change _ ≤ 255
    omega

theorem length_le_ff {missing : List UInt8} (hu : frameUnits.Whole u) (he : u = part ++ missing)
    (h2 : 2 ≤ part.length) :
    u.length ≤ frameSize (memory part fun _ => 0xff) ∧ 0 < codedLen (memory part fun _ => 0xff) := by
  have hw := whole_iff.mp hu
  have hmem : bytesOf u = memory part (fun i => bytesOf u i) := by
    funext i
    by_cases hi : i < part.length
    · rw [he]
      exact memory_append_left hi
    · exact (memory_of_le (by omega)).symm
  have hsize := frameSize_le_ff h2 fun i => bytesOf u i
  rw [← hmem] at hsize
  refine ⟨hw.2 ▸ hsize, ?_⟩
  have h1 : bytesOf u 1 = memory part (fun _ => 0xff) 1 := by
    rw [hmem]
    exact memory_congr (by omega)
  unfold frameSize at hsize
  rw [headerLen_congr h1, maskLen_congr h1] at hsize
  omega

theorem ff_anti {more : List UInt8} (h2 : 2 ≤ part.length) :
    frameSize (memory (part ++ more) fun _ => 0xff) ≤ frameSize (memory part fun _ => 0xff) := by
  have hmem : memory (part ++ more) (fun _ => 0xff) =
      memory part (fun i => memory (part ++ more) (fun _ => 0xff) i) := by
    funext i
    by_cases hi : i < part.length
    · rw [memory_append_left hi]
    · exact (memory_of_le (by omega)).symm
  rw [hmem]
  exact frameSize_le_ff h2 _

/-! ## Streams of messages -/

theorem frameGroup_frames (m : WireMsg) : FrameGroup m.frames := ⟨m.frames_whole, m.frames_group⟩

theorem flatMap_wire (ms : List WireMsg) : ms.flatMap WireMsg.wire = (ms.map WireMsg.frames).flatten.flatten := by
  induction ms with
  | nil => rfl
  | cons m ms ih => simp [ih, WireMsg.wire]

/-- Whole frames of a message that is not finished. -/
def OpenFrames (os : List (List UInt8)) : Prop := ∀ u ∈ os, frameUnits.Whole u ∧ isFin u = false

theorem openFrames_nil : OpenFrames [] := by simp [OpenFrames]

theorem not_conflict_open (ms : List WireMsg) (ho : OpenFrames os) :
    ¬Conflict (ms.flatMap WireMsg.wire ++ os.flatten) := by
  have hrow : ms.flatMap WireMsg.wire ++ os.flatten = (ms.map WireMsg.frames).flatten.flatten ++ (os.flatten ++ []) := by
    simp [flatMap_wire]
  refine not_conflict_of_groups hrow ?_ (fun u hu => (ho u hu).1) (fun u hu => (ho u hu).2) Framing.size_nil
  intro g hg
  obtain ⟨m, _, rfl⟩ := List.mem_map.mp hg
  exact ⟨frameGroup_frames m, m.frames_not_clash⟩

theorem not_conflict_wire (ms : List WireMsg) : ¬Conflict (ms.flatMap WireMsg.wire) := by
  simpa using not_conflict_open ms openFrames_nil

theorem frames_whole_of_mem {ms : List WireMsg} (hu : u ∈ (ms.map WireMsg.frames).flatten) : frameUnits.Whole u := by
  obtain ⟨g, hg, hu⟩ := List.mem_flatten.mp hu
  obtain ⟨m, _, rfl⟩ := List.mem_map.mp hg
  exact m.frames_whole u hu

theorem Tracks.whole_of_mem {P : List UInt8} (h : Tracks P r gs fs rest) (hu : u ∈ gs.flatten ++ fs) :
    frameUnits.Whole u := by
  rcases List.mem_append.mp hu with hu | hu
  · obtain ⟨g, hg, hu⟩ := List.mem_flatten.mp hu
    exact (h.groups g hg).1.whole u hu
  · exact h.scanned.whole u hu

theorem Tracks.messages {ms : List WireMsg} {ws : List (List UInt8)} {P : List UInt8} (h : Tracks P r gs fs rest)
    (ho : OpenFrames os) (hrow : (ms.map WireMsg.frames).flatten ++ os = gs.flatten ++ fs ++ ws) :
    ∃ ms₁ ms₂, ms = ms₁ ++ ms₂ ∧ gs = ms₁.map WireMsg.frames ∧ r.delivered = ms₁.map WireMsg.message ∧
      fs ++ ws = (ms₂.map WireMsg.frames).flatten ++ os := by
  have hrow' : gs.flatten ++ (fs ++ ws) = (ms.map WireMsg.frames).flatten ++ os := by simpa using hrow.symm
  have hms : ∀ g ∈ ms.map WireMsg.frames, Group isFin g := by
    intro g hg
    obtain ⟨m, _, rfl⟩ := List.mem_map.mp hg
    exact m.frames_group
  obtain ⟨ks, hks, hws⟩ := groups_prefix (fun g hg => (h.groups g hg).1.group) hms (fun u hu => (ho u hu).2) hrow'
  obtain ⟨ms₁, ms₂, rfl, hgs, hks'⟩ := List.map_eq_append_iff.mp hks
  refine ⟨ms₁, ms₂, rfl, hgs.symm, ?_, by rw [hws, hks']⟩
  rw [h.delivered, ← hgs, List.map_map]
  exact List.map_congr_left fun m _ => m.messageOf_frames

/-- With safe cuts every receiver that has been fed the whole stream has handed
out all of its messages. -/
theorem Feeds.delivered_open {ms : List WireMsg} (ho : OpenFrames os)
    (hwire : chunks.flatten = ms.flatMap WireMsg.wire ++ os.flatten)
    (hsafe : CutsSafe (ms.flatMap WireMsg.frames ++ os) chunks) (h : Feeds chunks r) :
    r.delivered = ms.map WireMsg.message := by
  obtain ⟨acts, hrec, hrun, hidle⟩ := h
  have hno : ¬Conflict ([] ++ received acts).flatten := by
    rw [List.nil_append, hrec, hwire]
    exact not_conflict_open ms ho
  obtain ⟨gs, fs, rest, hf⟩ := follows_start.exec hrun hno
  rw [List.nil_append, hrec] at hf
  have ht := hf.tracks
  have hall : ∀ u ∈ ms.flatMap WireMsg.frames ++ os, frameUnits.Whole u := by
    intro u hu
    rcases List.mem_append.mp hu with hu | hu
    · exact frames_whole_of_mem (by rwa [← List.flatMap_def])
    · exact (ho u hu).1
  have hrow : (gs.flatten ++ fs).flatten ++ rest = (ms.flatMap WireMsg.frames ++ os).flatten ++ [] := by
    have := ht.stream.symm.trans hwire
    rw [flatMap_wire] at this
    simpa [List.flatMap_def] using this
  obtain ⟨ws, hws, hrest⟩ := Framing.parse_maximal (fun u hu => ht.whole_of_mem hu) hall hrow Framing.size_nil
  obtain ⟨ms₁, ms₂, hms, _, hdel, htail⟩ := ht.messages ho (by rwa [← List.flatMap_def])
  cases ws with
  | nil =>
    -- the open frames behind the last message hold no end of a message
    have hfs : fs = (ms₂.map WireMsg.frames).flatten ++ os := by simpa using htail
    cases ms₂ with
    | nil => rw [hdel, hms, List.append_nil]
    | cons m ms₂ =>
      obtain ⟨init, l, hl, _, hfin⟩ := m.frames_group
      have hmem : l ∈ fs := by rw [hfs]; simp [hl]
      exact absurd (ht.opened l hmem) (by simp [hfin])
  | cons u more =>
    rw [List.append_nil] at hrest
    have hu : frameUnits.Whole u := hall u (by rw [hws]; simp)
    have hsome : frameUnits.size rest ≠ none := by
      rw [hrest, List.flatten_cons, hu.size_append]
      simp
    have hst : Stalled r.mstMsgCache := (hf.idle hidle).resolve_right hsome
    have hlen := ht.scanned.length_eq
    unfold Stalled at hst
    rcases hf.readAtCut with h0 | ⟨pre, post, part, junk, hchunks, hpart, h2, hg⟩
    · omega
    · have hff := frameSize_le_ff h2 junk
      have hpre : pre.flatten = (gs.flatten ++ fs).flatten ++ part := by
        have he := ht.stream
        rw [hpart, hchunks, List.flatten_append, ← List.append_assoc, ← List.append_assoc] at he
        simpa using List.append_cancel_right he
      rcases List.append_eq_append_iff.mp (hpart.symm.trans (hrest.trans List.flatten_cons)) with
        ⟨missing, hpu, _⟩ | ⟨extra, hpu, _⟩
      · have := hsafe _ u more pre post part hws hchunks hpre ⟨missing, hpu.symm⟩ h2
        rw [← hrest] at this
        omega
      · have hul : u.length ≤ rest.length := by
          rw [hrest, List.flatten_cons, List.length_append]
          omega
        rw [hpu, frameSize_append hu] at hg
        omega

theorem Feeds.delivered {ms : List WireMsg} (hwire : chunks.flatten = ms.flatMap WireMsg.wire)
    (hsafe : CutsSafe (ms.flatMap WireMsg.frames) chunks) (h : Feeds chunks r) :
    r.delivered = ms.map WireMsg.message :=
  h.delivered_open openFrames_nil (by simpa using hwire) (by simpa using hsafe)

end SrWebSocket
