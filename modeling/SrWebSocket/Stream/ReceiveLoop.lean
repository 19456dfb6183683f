import SrWebSocket.Stream.PatientRun

/-! # When the receive loop ends

The loop of `ParseMsg` makes progress as long as no complete group of frames
mixes the opcodes of two messages. Such a group fails the opcode assertion of
the reassembly, which returns 1 and leaves the group, and `iComplete`, in place.
-/
namespace SrWebSocket

/-- The loop that `r` is in ends: each call returns, a call that returns non-zero
has removed bytes, and only so many calls can follow one another. -/
structure LoopEnds (r : Receiver) : Prop where
  returns : ∀ junk, ∃ r', r.step (.decode junk) = some r' ∧
    (r'.parsing = true → r'.mstMsgCache.pBuffer.length < r.mstMsgCache.pBuffer.length)
  bounded : ∀ (junks : List (ℕ → UInt8)) r', Machine.exec Receiver.step r (junks.map .decode) = some r' →
    junks.length ≤ r.mstMsgCache.pBuffer.length + 1

/-- In every run that receives these chunks, on any memory, every loop ends. -/
def ReceiveLoopEnds (chunks : List (List UInt8)) : Prop :=
  ∀ acts r, received acts <+: chunks → Machine.exec Receiver.step .start acts = some r →
    r.parsing = true → LoopEnds r

variable {P : List UInt8} {r r' : Receiver} {gs : List (List (List UInt8))} {fs : List (List UInt8)}
  {rest : List UInt8} {junk : ℕ → UInt8}

theorem CallOutcome.progress (h : Tracks P r gs fs rest) (hno : ¬Conflict P) (hp : r.parsing = true)
    (ho : CallOutcome P r gs fs rest junk r') :
    r'.parsing = false ∨ r'.parsing = true ∧ r'.mstMsgCache.pBuffer.length < r.mstMsgCache.pBuffer.length := by
  cases ho with
  | stalled _ he => exact Or.inl (by rw [he])
  | message _ ks t hrest hks hg he _ =>
    refine Or.inr ⟨by rw [he]; exact hp, ?_⟩
    have hk := flatten_length_ge hks
    have hpos := List.length_pos_iff.mpr hg.ne_nil
    have hb := congrArg List.length h.scanned.buffer
    rw [he]
    simp only [hrest, List.length_append, WsMsgCache.fresh] at hb ⊢
    omega
  | clash _ ks t hrest hg hc _ =>
    exact absurd ⟨gs, fs ++ ks, t, by simp [h.stream, hrest], fun k hk => (h.groups k hk).1, hg, hc⟩ hno
  | waiting _ ks t _ _ _ _ he _ => exact Or.inl (by rw [he])

theorem step_decode_idle (hp : r.parsing = false) (junk : ℕ → UInt8) : r.step (.decode junk) = none := by
  simp [Receiver.step, hp]

theorem Tracks.bounded (h : Tracks P r gs fs rest) (hno : ¬Conflict P) (hp : r.parsing = true)
    (junks : List (ℕ → UInt8)) (he : Machine.exec Receiver.step r (junks.map .decode) = some r') :
    junks.length ≤ r.mstMsgCache.pBuffer.length + 1 := by
  induction junks generalizing r gs fs rest with
  | nil => exact Nat.zero_le _
  | cons junk junks ih =>
    obtain ⟨q, hq, hrun⟩ := Machine.exec_cons_eq_some.mp he
    obtain ⟨q', hq', ho⟩ := h.decode hp junk
    obtain rfl := Option.some.inj (hq.symm.trans hq')
    rcases ho.progress h hno hp with hidle | ⟨hq, hlt⟩
    · cases junks with
      | nil => simp
      | cons junk' junks =>
        obtain ⟨s, hs, _⟩ := Machine.exec_cons_eq_some.mp hrun
        rw [step_decode_idle hidle] at hs
        cases hs
    · obtain ⟨gs', fs', rest', ht⟩ := ho.tracks h hno
      have := ih ht hq hrun
      rw [List.length_cons]
      omega

theorem Tracks.loopEnds (h : Tracks P r gs fs rest) (hno : ¬Conflict P) (hp : r.parsing = true) : LoopEnds r where
  returns junk := by
    obtain ⟨q, hq, ho⟩ := h.decode hp junk
    refine ⟨q, hq, fun hqp => ?_⟩
    rcases ho.progress h hno hp with hidle | ⟨_, hlt⟩
    · rw [hidle] at hqp
      cases hqp
    · exact hlt
  bounded junks _ he := h.bounded hno hp junks he

theorem Conflict.length (h : Conflict P) : 6 ≤ P.length := by
  obtain ⟨gs, g, t, rfl, _, hg, u, hu, v, hv, _, _, huv⟩ := h
  have hne : u ≠ v := fun he => huv (he ▸ rfl)
  have hlen : ∀ g' : List (List UInt8), (∀ w ∈ g', frameUnits.Whole w) → 3 * g'.length ≤ g'.flatten.length := by
    intro g' hg'
    induction g' with
    | nil => simp
    | cons w g' ih =>
      have h3 := three_le_length (hg' w List.mem_cons_self)
      have := ih fun x hx => hg' x (List.mem_cons_of_mem _ hx)
      simp only [List.length_cons, List.flatten_cons, List.length_append]
      omega
  have h2 : 2 ≤ g.length := by
    obtain ⟨s, t, rfl⟩ := List.append_of_mem hu
    rcases List.mem_append.mp hv with hv | hv
    · have := List.length_pos_of_mem hv
      simp only [List.length_append, List.length_cons]
      omega
    · have := List.length_pos_of_mem ((List.mem_cons.mp hv).resolve_left (Ne.symm hne))
      simp only [List.length_append, List.length_cons]
      omega
  have := hlen g hg.whole
  simp only [List.length_append]
  omega

theorem receiveLoopEnds_of_not_conflict {chunks : List (List UInt8)} (hno : ¬Conflict chunks.flatten) :
    ReceiveLoopEnds chunks := by
  intro acts r hpre he hp
  obtain ⟨rest, hrest⟩ := hpre
  have hnoP : ¬Conflict ([] ++ (received acts).flatten) := by
    intro hc
    rw [List.nil_append] at hc
    exact hno (by rw [← hrest, List.flatten_append]; exact hc.append _)
  obtain ⟨gs, fs, rest, ht⟩ := tracks_start.exec he hnoP
  exact ht.loopEnds hnoP hp

/-- The receive loop ends on every stream without a conflict, however it is cut
and whatever lies behind the used bytes; a stream with one, if it fits into
memory, keeps the loop from ending however it is cut. -/
theorem receiveLoopEnds_iff (chunks : List (List UInt8)) :
    (¬Conflict chunks.flatten → ReceiveLoopEnds chunks) ∧
    (chunks.flatten.length < 2 ^ 63 → ReceiveLoopEnds chunks → ¬Conflict chunks.flatten) := by
  refine ⟨receiveLoopEnds_of_not_conflict, ?_⟩
  intro hlen hends hc
  obtain ⟨acts, r, hr, ⟨_, gs, fs, rest, hrest⟩ | ⟨hrec, _, hp, r'', hs, hp'', hbuf⟩⟩ := exists_patient_run chunks hlen
  · exact hrest.tracks.not_conflict hrest.used hc
  · obtain ⟨q, hq, hlt⟩ := (hends acts r hrec hr hp).returns zeros
    obtain rfl := Option.some.inj (hs.symm.trans hq)
    have := hlt hp''
    rw [hbuf] at this
    exact lt_irrefl _ this

theorem receiveLoopEnds_text : ReceiveLoopEnds [[0x81, 1], [97]] :=
  (receiveLoopEnds_iff [[0x81, 1], [97]]).1 fun h => absurd h.length (by decide)

def pingInText : List UInt8 := [0x01, 1, 97, 0x89, 1, 98]

/-- The cache that a call on `pingInText` leaves, and that every further call leaves again. -/
def pingInTextCache : WsMsgCache where
  pBuffer := pingInText
  iCurFrameIndex := 6
  iCurFrameLen := 0
  iTotalFrameLen := 2
  iComplete := true

/-- The loop on these two frames never ends: each call returns 1, hands out the
half-built TEXT message and removes nothing. -/
theorem pingInText_loops :
    ¬ReceiveLoopEnds [pingInText] ∧
    ∀ n, ∃ r, Machine.exec Receiver.step .start (.recv pingInText :: List.replicate n (.decode zeros)) = some r ∧
      r.parsing = true ∧ r.mstMsgCache.pBuffer = pingInText ∧
      r.delivered = List.replicate n { pBuffer := [97], frameType := wsFrameText } := by
  let first : Receiver := ⟨.fresh pingInText, none, true, []⟩
  let later : List WsMsg → Receiver := fun ms => ⟨pingInTextCache, none, true, ms⟩
  have hrecv : Receiver.step .start (.recv pingInText) = some first :=
    step_recv_eq_some.mpr ⟨⟨rfl, by decide⟩, rfl⟩
  have hfirst : first.step (.decode zeros) = some (later [⟨[97], wsFrameText⟩]) := by
    have hcall : decodeMsg 64 (callFuel (.fresh pingInText)) zeros (.fresh pingInText) none =
        some ⟨1, pingInTextCache, some ⟨[97], wsFrameText⟩⟩ := by decide
    exact step_decode (r := first) rfl hcall
  have hlater : ∀ ms, (later ms).step (.decode zeros) = some (later (ms ++ [⟨[97], wsFrameText⟩])) := by
    intro ms
    have hcall : decodeMsg 64 (callFuel pingInTextCache) zeros pingInTextCache none =
        some ⟨1, pingInTextCache, some ⟨[97], wsFrameText⟩⟩ := by decide
    exact step_decode (r := later ms) rfl hcall
  have hloop : ∀ n k, Machine.exec Receiver.step (later (List.replicate k ⟨[97], wsFrameText⟩))
      (List.replicate n (.decode zeros)) = some (later (List.replicate (k + n) ⟨[97], wsFrameText⟩)) := by
    intro n
    induction n with
    | zero => intro k; rfl
    | succ n ih =>
      intro k
      refine Machine.exec_cons_eq_some.mpr ⟨_, hlater _, ?_⟩
      rw [← List.replicate_succ', Nat.add_comm n 1, ← Nat.add_assoc]
      exact ih (k + 1)
  constructor
  · intro h
    obtain ⟨q, hq, hlt⟩ := (h [.recv pingInText] first List.prefix_rfl
      (Machine.exec_cons_eq_some.mpr ⟨first, hrecv, rfl⟩) rfl).returns zeros
    obtain rfl := Option.some.inj (hfirst.symm.trans hq)
    exact absurd (hlt rfl) (lt_irrefl _)
  · intro n
    cases n with
    | zero => exact ⟨first, Machine.exec_cons_eq_some.mpr ⟨first, hrecv, rfl⟩, rfl, rfl, rfl⟩
    | succ n =>
      refine ⟨later (List.replicate (1 + n) ⟨[97], wsFrameText⟩), ?_, rfl, rfl, by rw [Nat.add_comm]⟩
      exact Machine.exec_cons_eq_some.mpr ⟨first, hrecv, Machine.exec_cons_eq_some.mpr ⟨_, hfirst, hloop n 1⟩⟩

end SrWebSocket
