import SrWebSocket.Parse.DecodeSpec

/-! # Where the scan loop stands

As long as the used length fits into `size_t`, the iterations of the scan start
behind whole frames without FIN, and behind every such row there is one. Nothing
else is visited unless a step moves on from bytes that begin no whole frame.
-/
namespace SrWebSocket

/-- The bytes `rest` begin with the whole frames `ks`, none of them with the FIN bit. -/
structure StartsOpen (rest : List UInt8) (ks : List (List UInt8)) (t : List UInt8) : Prop where
  rest_eq : rest = ks.flatten ++ t
  whole : ∀ u ∈ ks, frameUnits.Whole u
  opened : ∀ u ∈ ks, isFin u = false

variable {c c' : WsMsgCache} {fs ks : List (List UInt8)} {u rest t : List UInt8} {junk : ℕ → UInt8} {w : ℕ}

theorem startsOpen_nil (rest : List UInt8) : StartsOpen rest [] rest := ⟨rfl, by simp, by simp⟩

theorem StartsOpen.concat (h : StartsOpen rest ks (u ++ t)) (hu : frameUnits.Whole u) (ho : isFin u = false) :
    StartsOpen rest (ks ++ [u]) t where
  rest_eq := by simp [h.rest_eq]
  whole := List.forall_mem_append.mpr ⟨h.whole, List.forall_mem_singleton.mpr hu⟩
  opened := List.forall_mem_append.mpr ⟨h.opened, List.forall_mem_singleton.mpr ho⟩

theorem Scanned.acceptOpen (hS : Scanned c fs rest) (h : StartsOpen rest ks t) :
    Scanned (c.acceptAll ks) (fs ++ ks) t := by
  obtain ⟨rfl, hks, _⟩ := h
  exact hS.acceptAll hks

theorem Scanned.visits_acceptAll (hS : Scanned c fs rest) (hw : c.pBuffer.length < 2 ^ w) (h : StartsOpen rest ks t)
    (junk : ℕ → UInt8) : Iteration.Visits (scanStep w junk) c (c.acceptAll ks) := by
  obtain ⟨rfl, hks, ho⟩ := h
  induction ks generalizing c fs with
  | nil => exact .refl
  | cons u ks ih =>
    have hu := hks u List.mem_cons_self
    have hS' : Scanned c fs (u ++ (ks.flatten ++ t)) := by simpa using hS
    have hstep := scanStep_open hS' hw hu (ho u List.mem_cons_self) junk
    have hw' : (c.accept u).pBuffer.length < 2 ^ w := hw
    have hrest := ih hw' (fun v hv => hks v (List.mem_cons_of_mem _ hv)) (fun v hv => ho v (List.mem_cons_of_mem _ hv))
      (hS'.accept hu)
    rw [acceptAll_cons]
    exact .head hstep hrest

/-- The states in which the scan loop starts an iteration, when it does not move on
from bytes that begin no whole frame. -/
theorem Scanned.of_visits (hS : Scanned c fs rest) (hw : c.pBuffer.length < 2 ^ w)
    (hend : ∀ ks t, StartsOpen rest ks t → frameUnits.size t = none → ∀ c', scanStep w junk (c.acceptAll ks) ≠ .inl c')
    (hv : Iteration.Visits (scanStep w junk) c c') : ∃ ks t, StartsOpen rest ks t ∧ c' = c.acceptAll ks := by
  refine Iteration.visits_invariant (fun c' => ∃ ks t, StartsOpen rest ks t ∧ c' = c.acceptAll ks) ?_
    ⟨[], rest, startsOpen_nil rest, rfl⟩ hv
  rintro _ d ⟨ks, t, ho, rfl⟩ hstep
  cases ht : frameUnits.size t with
  | none => exact absurd hstep (hend ks t ho ht d)
  | some n =>
    obtain ⟨u, t', rfl, hu, _⟩ := frameUnits.exists_whole_of_size ht
    have hw' : (c.acceptAll ks).pBuffer.length < 2 ^ w := (acceptAll_pBuffer c ks).symm ▸ hw
    rw [scanStep_whole (hS.acceptOpen ho) hw' hu] at hstep
    split at hstep
    · cases hstep
    · rename_i hfin
      have hd : d = c.acceptAll (ks ++ [u]) := (Sum.inl.inj hstep).symm.trans (acceptAll_append c ks u).symm
      exact ⟨ks ++ [u], t', ho.concat hu (Bool.eq_false_iff.mpr hfin), hd⟩

theorem Scanned.of_visits_64 (hS : Scanned c fs rest) (hv : Iteration.Visits (scanStep 64 junk) c c') :
    ∃ ks t, StartsOpen rest ks t ∧ c' = c.acceptAll ks := by
  refine hS.of_visits hS.length_lt (fun ks t ho ht d hstep => ?_) hv
  rw [scanStep_stop (hS.acceptOpen ho) ht] at hstep
  cases hstep

end SrWebSocket
