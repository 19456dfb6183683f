import Mathlib.Data.List.Induction
import SrWebSocket.Stream.Receiver

/-! # Runs on memory that reads as zero

With zeros behind the used bytes the remembered length is never more than the
length of the frame that arrives, so a receiver is stalled only while that frame
is incomplete. Such runs exist for every stream and every way it is cut, and
they show that what can happen on other memory is due to that memory alone.
-/
namespace SrWebSocket

def zeros : ℕ → UInt8 := fun _ => 0

/-- However the stream goes on, the remembered length does not pass the end of its next frame. -/
def Patient (g : ℕ) (rest : List UInt8) : Prop :=
  ∀ more u t, rest ++ more = u ++ t → frameUnits.Whole u → g ≤ u.length

variable {P : List UInt8} {r r' : Receiver} {gs : List (List (List UInt8))} {fs ks : List (List UInt8)}
  {rest t u chunk : List UInt8} {g : ℕ}

theorem patient_zero (rest : List UInt8) : Patient 0 rest := fun _ _ _ _ _ => Nat.zero_le _

theorem Patient.append (h : Patient g rest) (chunk : List UInt8) : Patient g (rest ++ chunk) := by
  intro more u t he hu
  exact h (chunk ++ more) u t (by simpa using he) hu

theorem memory_of_append {more : List UInt8} {junk : ℕ → UInt8} {i : ℕ} (he : rest ++ more = u ++ t)
    (hi : i < rest.length) (hiu : i < u.length) : memory rest junk i = bytesOf u i := by
  have h1 : memory (rest ++ more) junk i = memory rest junk i := memory_append_left hi
  have h2 : memory (u ++ t) junk i = bytesOf u i := memory_append_left hiu
  rw [← h1, he, h2]

theorem patient_frameSize (h2 : 2 ≤ rest.length) : Patient (frameSize (memory rest zeros)) rest := by
  intro more u t he hu
  have h3 := three_le_length hu
  have h1 : memory rest zeros 1 = bytesOf u 1 := memory_of_append he (by omega) (by omega)
  have hsize := (whole_iff.mp hu).2
  rw [← hsize]
  apply frameSize_mono h1
  intro i hi
  have hiu : i < u.length := by
    rw [headerLen_congr h1] at hi
    unfold frameSize at hsize
    omega
  by_cases hir : i < rest.length
  · rw [memory_of_append he hir hiu]
  · rw [memory_of_le (by omega)]
    exact Nat.zero_le _

theorem Tracks.not_stalled (h : Tracks P r gs fs rest) (hpat : Patient r.mstMsgCache.iCurFrameLen rest)
    (hw : frameUnits.size rest ≠ none) : ¬Stalled r.mstMsgCache := by
  obtain ⟨n, hn⟩ := Option.ne_none_iff_exists'.mp hw
  obtain ⟨u, t, rfl, hu, _⟩ := Framing.exists_whole_of_size hn
  have hle := hpat [] u t (by simp) hu
  have hlen := h.scanned.length_eq
  rw [List.length_append] at hlen
  unfold Stalled
  omega

theorem not_conflict_of_groups (hP : P = gs.flatten.flatten ++ (fs.flatten ++ rest))
    (hgs : ∀ g ∈ gs, FrameGroup g ∧ ¬Clash g) (hfs : ∀ u ∈ fs, frameUnits.Whole u)
    (ho : ∀ u ∈ fs, isFin u = false) (hnone : frameUnits.size rest = none) : ¬Conflict P := by
  rintro ⟨hs, g, t, hP', hhs, hg, hc⟩
  have hw : ∀ u ∈ hs.flatten ++ g, frameUnits.Whole u := by
    intro u hu
    rcases List.mem_append.mp hu with hu | hu
    · obtain ⟨k, hk, hu⟩ := List.mem_flatten.mp hu
      exact (hhs k hk).whole u hu
    · exact hg.whole u hu
  have hw' : ∀ u ∈ gs.flatten ++ fs, frameUnits.Whole u := by
    intro u hu
    rcases List.mem_append.mp hu with hu | hu
    · obtain ⟨k, hk, hu⟩ := List.mem_flatten.mp hu
      exact (hgs k hk).1.whole u hu
    · exact hfs u hu
  have he : (hs.flatten ++ g).flatten ++ t = (gs.flatten ++ fs).flatten ++ rest := by
    have := hP'.symm.trans hP
    simpa using this
  obtain ⟨ws, hws, _⟩ := Framing.parse_maximal hw hw' he hnone
  have hgr : ∀ k ∈ hs ++ [g], Group isFin k := by
    intro k hk
    rcases List.mem_append.mp hk with hk | hk
    · exact (hhs k hk).group
    · exact List.mem_singleton.mp hk ▸ hg.group
  obtain ⟨ms, hms, _⟩ := groups_prefix (s := ws) (o := fs) hgr (fun k hk => (hgs k hk).1.group) ho
    (by simpa using hws.symm)
  exact (hgs g (by rw [hms]; simp)).2 hc

theorem Tracks.not_conflict (h : Tracks P r gs fs rest) (hnone : frameUnits.size rest = none) : ¬Conflict P :=
  not_conflict_of_groups h.stream h.groups h.scanned.whole h.opened hnone

structure AtRest (P : List UInt8) (r : Receiver) (gs : List (List (List UInt8))) (fs : List (List UInt8))
    (rest : List UInt8) : Prop where
  tracks : Tracks P r gs fs rest
  idle : r.parsing = false
  patient : Patient r.mstMsgCache.iCurFrameLen rest
  used : frameUnits.size rest = none

theorem patient_scanStop (h : Scanned r.mstMsgCache fs (ks.flatten ++ t)) (hks : ∀ u ∈ ks, frameUnits.Whole u)
    (hpat : Patient r.mstMsgCache.iCurFrameLen (ks.flatten ++ t)) :
    Patient (scanStop zeros (r.mstMsgCache.acceptAll ks)).cache.iCurFrameLen t := by
  have hacc := h.acceptAll hks
  have hold : Patient (r.mstMsgCache.acceptAll ks).iCurFrameLen t := by
    rw [acceptAll_iCurFrameLen]
    split
    · rename_i hnil
      simpa [hnil] using hpat
    · exact patient_zero t
  rcases scanStop_cases zeros (r.mstMsgCache.acceptAll ks) with ⟨_, he⟩ | ⟨_, he, _⟩ | ⟨h2, he, _⟩
  · rw [he]
    exact hold
  · rw [he]
    exact hold
  · rw [he]
    have hlen := hacc.length_eq
    have hread : Patient (frameSize (memory t zeros)) t := patient_frameSize (by omega)
    rw [hacc.header]
    exact hread

/-- The loop cannot go on: a call returned non-zero and removed nothing. -/
def StuckCall (r : Receiver) : Prop :=
  r.parsing = true ∧ ∃ r'', r.step (.decode zeros) = some r'' ∧ r''.parsing = true ∧
    r''.mstMsgCache.pBuffer = r.mstMsgCache.pBuffer

/-- A receiver that has handed out every message that has arrived: behind its
cursor are the frames `ks`, none of them a last one, and no further whole frame. -/
structure Emptied (P : List UInt8) (r : Receiver) (gs : List (List (List UInt8))) (fs ks : List (List UInt8))
    (t : List UInt8) : Prop where
  tracks : Tracks P r gs fs (ks.flatten ++ t)
  patient : Patient r.mstMsgCache.iCurFrameLen (ks.flatten ++ t)
  whole : ∀ u ∈ ks, frameUnits.Whole u
  opened : ∀ u ∈ ks, isFin u = false
  used : frameUnits.size t = none

/-- Inside the loop, calls on zero memory hand out all messages that have arrived,
or lead to a call that returns non-zero and removes nothing. -/
theorem Tracks.drain_open (h : Tracks P r gs fs rest) (hp : r.parsing = true)
    (hpat : Patient r.mstMsgCache.iCurFrameLen rest) :
    ∃ n r', Machine.exec Receiver.step r (List.replicate n (.decode zeros)) = some r' ∧ r'.parsing = true ∧
      ((∃ gs' fs' ks t, Emptied P r' gs' fs' ks t ∧ (r' = r ∨ r'.mstMsgCache.iCurFrameLen = 0)) ∨
        Conflict P ∧ StuckCall r') := by
  induction hn : r.mstMsgCache.pBuffer.length using Nat.strongRecOn generalizing r gs fs rest with
  | _ n ih =>
    obtain ⟨q, hq, ho⟩ := h.decode hp zeros
    cases ho with
    | stalled hst he =>
      have hnone : frameUnits.size rest = none := by
        by_contra hw
        exact h.not_stalled hpat hw hst
      exact ⟨0, r, rfl, hp, Or.inl ⟨gs, fs, [], rest, ⟨h, hpat, by simp, by simp, hnone⟩, Or.inl rfl⟩⟩
    | message hst ks t hrest hks hg he ht =>
      have hlen := h.scanned.buffer
      have hlt : q.mstMsgCache.pBuffer.length < n := by
        have hkl := flatten_length_ge hks
        have hk0 := List.length_pos_iff.mpr hg.ne_nil
        have := congrArg List.length hlen
        subst he
        simp only [WsMsgCache.fresh, hrest, List.length_append] at this ⊢
        omega
      have hqp : q.parsing = true := by rw [he]; exact hp
      have hq0 : q.mstMsgCache.iCurFrameLen = 0 := by rw [he]; rfl
      obtain ⟨m, r', hr', hp', hout⟩ := ih _ hlt ht hqp (hq0 ▸ patient_zero t) rfl
      refine ⟨m + 1, r', Machine.exec_cons_eq_some.mpr ⟨q, hq, hr'⟩, hp', ?_⟩
      rcases hout with ⟨gs', fs', ks', t', ht', hlast⟩ | hstuck
      · refine Or.inl ⟨gs', fs', ks', t', ht', Or.inr ?_⟩
        rcases hlast with rfl | h0
        · exact hq0
        · exact h0
      · exact Or.inr hstuck
    | clash hst ks t hrest hg hc he =>
      refine ⟨0, r, rfl, hp, Or.inr ⟨?_, hp, q, hq, ?_, ?_⟩⟩
      · exact ⟨gs, fs ++ ks, t, by simp [h.stream, hrest], fun k hk => (h.groups k hk).1, hg, hc⟩
      · rw [he]
        exact hp
      · rw [he]
        exact acceptAll_pBuffer _ _
    | waiting hst ks t hrest hks hopen hnone he ht =>
      subst hrest
      exact ⟨0, r, rfl, hp, Or.inl ⟨gs, fs, ks, t, ⟨h, hpat, hks, hopen, hnone⟩, Or.inl rfl⟩⟩

theorem Tracks.drain (h : Tracks P r gs fs rest) (hp : r.parsing = true)
    (hpat : Patient r.mstMsgCache.iCurFrameLen rest) :
    ∃ n r', Machine.exec Receiver.step r (List.replicate n (.decode zeros)) = some r' ∧
      ((∃ gs' fs' rest', AtRest P r' gs' fs' rest') ∨ Conflict P ∧ StuckCall r') := by
  obtain ⟨n, q, hq, hqp, ⟨gs', fs', ks, t, ⟨ht, hpat', hks, ho, hnone⟩, _⟩ | hstuck⟩ := h.drain_open hp hpat
  · have hlast : List.replicate (n + 1) (RecvAct.decode zeros) = List.replicate n (.decode zeros) ++ [.decode zeros] :=
      List.replicate_succ'
    by_cases hst : Stalled q.mstMsgCache
    · have hstep := ht.decode_stalled hqp hst zeros
      refine ⟨n + 1, { q with parsing := false }, ?_, Or.inl ⟨gs', fs', ks.flatten ++ t, ht.idle, rfl, hpat', ?_⟩⟩
      · rw [hlast]
        exact Machine.exec_append.mpr ⟨q, hq, Machine.exec_cons_eq_some.mpr ⟨_, hstep, rfl⟩⟩
      · by_contra hw
        exact ht.not_stalled hpat' hw hst
    · have hstep := ht.decode_open hqp hks ho hnone hst zeros
      have hend := ht.scanStop hks ho zeros
      refine ⟨n + 1, _, ?_, Or.inl ⟨gs', fs' ++ ks, t, hend, rfl, patient_scanStop ht.scanned hks hpat', hnone⟩⟩
      rw [hlast]
      exact Machine.exec_append.mpr ⟨q, hq, Machine.exec_cons_eq_some.mpr ⟨_, hstep, rfl⟩⟩
  · exact ⟨n, q, hq, Or.inr hstuck⟩

theorem received_replicate (n : ℕ) : received (List.replicate n (.decode zeros)) = [] := by
  induction n with
  | zero => rfl
  | succ n ih => exact ih

theorem Tracks.length_le (h : Tracks P r gs fs rest) : r.mstMsgCache.pBuffer.length ≤ P.length := by
  rw [h.scanned.buffer, h.stream]
  simp only [List.length_append]
  omega

/-- However a stream is cut, a run on zero memory uses all of it or meets a conflict. -/
theorem exists_patient_run (chunks : List (List UInt8)) (hlen : chunks.flatten.length < 2 ^ 63) :
    ∃ acts r, Machine.exec Receiver.step .start acts = some r ∧
      ((received acts = chunks ∧ ∃ gs fs rest, AtRest chunks.flatten r gs fs rest) ∨
        received acts <+: chunks ∧ Conflict chunks.flatten ∧ StuckCall r) := by
  induction chunks using List.reverseRecOn with
  | nil => exact ⟨[], .start, rfl, Or.inl ⟨rfl, [], [], [], tracks_start, rfl, patient_zero _, Framing.size_nil⟩⟩
  | append_singleton chunks chunk ih =>
    rw [List.flatten_append, List.flatten_singleton, List.length_append] at hlen
    obtain ⟨acts, r, hr, ⟨hrec, gs, fs, rest, hrest⟩ | ⟨hrec, hc, hstuck⟩⟩ := ih (by omega)
    · have hle := hrest.tracks.length_le
      have hfit : r.mstMsgCache.pBuffer.length + chunk.length < 2 ^ 63 := by omega
      have hstep := step_recv_eq_some.mpr ⟨⟨hrest.idle, hfit⟩, rfl⟩
      have ht := hrest.tracks.recv hstep
      have hpat := hrest.patient.append chunk
      by_cases hp : 0 < (r.mstMsgCache.append chunk).pBuffer.length
      · obtain ⟨n, r', hr', hout⟩ := ht.drain (decide_eq_true hp) hpat
        refine ⟨acts ++ .recv chunk :: List.replicate n (.decode zeros), r',
          Machine.exec_append.mpr ⟨r, hr, Machine.exec_cons_eq_some.mpr ⟨_, hstep, hr'⟩⟩, ?_⟩
        have hrec' : received (acts ++ .recv chunk :: List.replicate n (.decode zeros)) = chunks ++ [chunk] := by
          rw [received_append, received, received_replicate, hrec]
        rw [hrec', List.flatten_append, List.flatten_singleton]
        rcases hout with ⟨gs', fs', rest', hrest'⟩ | ⟨hc, hstuck⟩
        · exact Or.inl ⟨rfl, gs', fs', rest', hrest'⟩
        · exact Or.inr ⟨List.prefix_rfl, hc, hstuck⟩
      · have hnil : rest ++ chunk = [] := (ht.scanned.empty hp).2
        refine ⟨acts ++ [.recv chunk], _,
          Machine.exec_append.mpr ⟨r, hr, Machine.exec_cons_eq_some.mpr ⟨_, hstep, rfl⟩⟩, Or.inl ⟨?_, gs, fs, rest ++ chunk, ?_⟩⟩
        · rw [received_append, received, hrec]
          rfl
        · rw [List.flatten_append, List.flatten_singleton]
          exact ⟨ht, decide_eq_false hp, hpat, by rw [hnil]; exact Framing.size_nil⟩
    · refine ⟨acts, r, hr, Or.inr ⟨hrec.trans (List.prefix_append _ _), ?_, hstuck⟩⟩
      rw [List.flatten_append]
      exact hc.append _

end SrWebSocket
