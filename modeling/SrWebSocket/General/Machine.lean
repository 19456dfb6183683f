import Mathlib.Data.List.Basic

/-! # Finite runs of a partial step function

A machine takes one action at a time; `none` says that the action is not
enabled. Invariants are proved for one action and hold over every finite run.
-/
namespace SrWebSocket.Machine
variable {σ τ α β : Type*}

/-- Take the actions in order; `none` when one of them is not enabled. -/
def exec (step : σ → α → Option σ) : σ → List α → Option σ
  | s, [] => some s
  | s, a :: as => (step s a).bind fun t => exec step t as

variable {step : σ → α → Option σ}

@[simp] theorem exec_nil (s : σ) : exec step s [] = some s := rfl

theorem exec_cons (s : σ) (a : α) (as : List α) :
    exec step s (a :: as) = (step s a).bind fun t => exec step t as := rfl

theorem exec_cons_eq_some {s u : σ} {a : α} {as : List α} :
    exec step s (a :: as) = some u ↔ ∃ t, step s a = some t ∧ exec step t as = some u := by
  rw [exec_cons]
  exact Option.bind_eq_some_iff

theorem exec_one {s t : σ} {a : α} (h : step s a = some t) : exec step s [a] = some t :=
  exec_cons_eq_some.mpr ⟨t, h, rfl⟩

theorem exec_append {s u : σ} {as bs : List α} :
    exec step s (as ++ bs) = some u ↔ ∃ t, exec step s as = some t ∧ exec step t bs = some u := by
  induction as generalizing s with
  | nil => simp
  | cons a as ih =>
    rw [List.cons_append, exec_cons_eq_some]
    constructor
    · rintro ⟨t, ht, hu⟩
      obtain ⟨v, hv, hu⟩ := ih.mp hu
      exact ⟨v, exec_cons_eq_some.mpr ⟨t, ht, hv⟩, hu⟩
    · rintro ⟨v, hv, hu⟩
      obtain ⟨t, ht, hv⟩ := exec_cons_eq_some.mp hv
      exact ⟨t, ht, ih.mpr ⟨v, hv, hu⟩⟩

theorem exec_invariant (I : σ → Prop) (hstep : ∀ s a t, I s → step s a = some t → I t)
    {s t : σ} {as : List α} (hs : I s) (h : exec step s as = some t) : I t := by
  induction as generalizing s with
  | nil => cases h; exact hs
  | cons a as ih =>
    obtain ⟨u, hu, ht⟩ := exec_cons_eq_some.mp h
    exact ih (hstep s a u hs hu) ht

/-- Every action of a run meets the condition in the state where it is taken. -/
def EachStep (step : σ → α → Option σ) (C : σ → α → Prop) (s : σ) (as : List α) : Prop :=
  ∀ as₁ a as₂ t, as = as₁ ++ a :: as₂ → exec step s as₁ = some t → C t a

theorem eachStep_cons {C : σ → α → Prop} {s t : σ} {a : α} {as : List α} (h : step s a = some t) :
    EachStep step C s (a :: as) ↔ C s a ∧ EachStep step C t as := by
  constructor
  · intro hC
    refine ⟨hC [] a as s rfl rfl, fun as₁ b as₂ u he hu => ?_⟩
    exact hC (a :: as₁) b as₂ u (by rw [he, List.cons_append]) (exec_cons_eq_some.mpr ⟨t, h, hu⟩)
  · rintro ⟨ha, hC⟩ as₁ b as₂ u he hu
    cases as₁ with
    | nil =>
      obtain ⟨rfl, rfl⟩ := List.cons.inj he
      cases hu
      exact ha
    | cons c as₁ =>
      obtain ⟨rfl, htail⟩ := List.cons.inj he
      obtain ⟨v, hv, hu⟩ := exec_cons_eq_some.mp hu
      obtain rfl := Option.some.inj (h.symm.trans hv)
      exact hC as₁ b as₂ u htail hu

/-- Every state of a run, its first and last included. -/
def EachState (step : σ → α → Option σ) (P : σ → Prop) (s : σ) (as : List α) : Prop :=
  ∀ as₁ as₂ t, as = as₁ ++ as₂ → exec step s as₁ = some t → P t

/-- An invariant that only some actions keep holds in every state of a run of such actions. -/
theorem eachState_of_eachStep (I : σ → Prop) {C : σ → α → Prop} (hI : ∀ s a t, I s → C s a → step s a = some t → I t)
    {s : σ} {as : List α} (hs : I s) (hC : EachStep step C s as) : EachState step I s as := by
  intro as₁ as₂ t he ht
  induction as₁ generalizing s as with
  | nil =>
    cases ht
    exact hs
  | cons a as₁ ih =>
    subst he
    obtain ⟨u, hu, ht⟩ := exec_cons_eq_some.mp ht
    obtain ⟨ha, hC⟩ := (eachStep_cons hu).mp hC
    exact ih (hI s a u hs ha hu) hC rfl ht

/-- Two conditions on actions hold all through the same runs when they agree in
every state that they keep the run in. -/
theorem eachStep_iff (I : σ → Prop) {P Q : σ → α → Prop} (hPQ : ∀ s a t, I s → step s a = some t → (P s a ↔ Q s a))
    (hI : ∀ s a t, I s → P s a → step s a = some t → I t) {s t : σ} {as : List α} (hs : I s)
    (h : exec step s as = some t) : EachStep step P s as ↔ EachStep step Q s as := by
  induction as generalizing s with
  | nil => exact ⟨fun _ as₁ a as₂ u he => absurd he (by simp), fun _ as₁ a as₂ u he => absurd he (by simp)⟩
  | cons a as ih =>
    obtain ⟨u, hu, hrun⟩ := exec_cons_eq_some.mp h
    rw [eachStep_cons hu, eachStep_cons hu, ← hPQ s a u hs hu]
    exact and_congr_right fun hp => ih (hI s a u hs hp hu) hrun

theorem eachStep_cons_none {C : σ → α → Prop} {s : σ} {a : α} (h : step s a = none) (as : List α) :
    EachStep step C s (a :: as) ↔ C s a := by
  constructor
  · exact fun hC => hC [] a as s rfl rfl
  · intro ha as₁ b as₂ u he hu
    cases as₁ with
    | nil =>
      obtain ⟨rfl, rfl⟩ := List.cons.inj he
      cases hu
      exact ha
    | cons c as₁ =>
      obtain ⟨rfl, rfl⟩ := List.cons.inj he
      rw [exec_cons, h] at hu
      cases hu

/-- The same for conditions that agree whether or not the action is enabled; the
run may get stuck. -/
theorem eachStep_congr (I : σ → Prop) {P Q : σ → α → Prop} (hPQ : ∀ s a, I s → (P s a ↔ Q s a))
    (hI : ∀ s a t, I s → P s a → step s a = some t → I t) {s : σ} (hs : I s) (as : List α) :
    EachStep step P s as ↔ EachStep step Q s as := by
  induction as generalizing s with
  | nil => exact ⟨fun _ as₁ a as₂ u he => absurd he (by simp), fun _ as₁ a as₂ u he => absurd he (by simp)⟩
  | cons a as ih =>
    cases hu : step s a with
    | none => rw [eachStep_cons_none hu, eachStep_cons_none hu, hPQ s a hs]
    | some u =>
      rw [eachStep_cons hu, eachStep_cons hu, ← hPQ s a hs]
      exact and_congr_right fun hp => ih (hI s a u hs hp hu)

/-- A property that an action violates for good exactly when it breaks a condition
holds at the end of a run exactly when no action of the run breaks it. `J` is what
must hold of a state for its predecessor to have it as well. -/
theorem exec_iff (I J G : σ → Prop) (C : σ → α → Prop) (hI : ∀ s a t, I s → step s a = some t → I t)
    (hJ : ∀ s a t, step s a = some t → J s)
    (hG : ∀ s a t, I s → J t → step s a = some t → (G t ↔ G s ∧ C s a))
    {s t : σ} {as : List α} (hs : I s) (ht : J t) (h : exec step s as = some t) :
    G t ↔ G s ∧ EachStep step C s as := by
  induction as generalizing s with
  | nil =>
    cases h
    exact ⟨fun hg => ⟨hg, fun as₁ a as₂ u he => absurd he (by simp)⟩, And.left⟩
  | cons a as ih =>
    obtain ⟨u, hu, hrun⟩ := exec_cons_eq_some.mp h
    have hJu : J u := by
      cases as with
      | nil =>
        cases hrun
        exact ht
      | cons b as =>
        obtain ⟨v, hv, _⟩ := exec_cons_eq_some.mp hrun
        exact hJ u b v hv
    rw [ih (hI s a u hs hu) hrun, hG s a u hs hJu hu, eachStep_cons hu, and_assoc]

theorem exec_flatMap (f : β → List α) (s : σ) (bs : List β) :
    exec step s (bs.flatMap f) = exec (fun s b => exec step s (f b)) s bs := by
  induction bs generalizing s with
  | nil => rfl
  | cons b bs ih =>
    ext u
    rw [List.flatMap_cons, exec_append, exec_cons_eq_some]
    exact exists_congr fun t => and_congr_right fun _ => by rw [ih]

/-- A run of one machine is a run of another that mirrors every action, with
the actions the other does not see left out. -/
theorem exec_simulates {step' : τ → β → Option τ} (R : σ → τ → Prop) (f : α → List β)
    (hstep : ∀ s a t s', R s s' → step s a = some t → ∃ t', exec step' s' (f a) = some t' ∧ R t t')
    {s t : σ} {s' : τ} {as : List α} (hs : R s s') (h : exec step s as = some t) :
    ∃ t', exec step' s' (as.flatMap f) = some t' ∧ R t t' := by
  induction as generalizing s s' with
  | nil => cases h; exact ⟨s', rfl, hs⟩
  | cons a as ih =>
    obtain ⟨u, hu, ht⟩ := exec_cons_eq_some.mp h
    obtain ⟨u', hu', hR⟩ := hstep s a u s' hs hu
    obtain ⟨t', ht', hR'⟩ := ih hR ht
    exact ⟨t', by rw [List.flatMap_cons]; exact exec_append.mpr ⟨u', hu', ht'⟩, hR'⟩

/-- A run of one machine is matched by a run of another with the same observations,
when each action is matched by some actions with the same observations. -/
theorem exec_refines {step' : τ → β → Option τ} {γ : Type*} (R : σ → τ → Prop) (obs : α → List γ) (obs' : β → List γ)
    (hstep : ∀ s a t s', R s s' → step s a = some t →
      ∃ bs t', exec step' s' bs = some t' ∧ bs.flatMap obs' = obs a ∧ R t t')
    {s t : σ} {s' : τ} {as : List α} (hs : R s s') (h : exec step s as = some t) :
    ∃ bs t', exec step' s' bs = some t' ∧ bs.flatMap obs' = as.flatMap obs ∧ R t t' := by
  induction as generalizing s s' with
  | nil => cases h; exact ⟨[], s', rfl, rfl, hs⟩
  | cons a as ih =>
    obtain ⟨u, hu, ht⟩ := exec_cons_eq_some.mp h
    obtain ⟨bs, u', hu', hobs, hR⟩ := hstep s a u s' hs hu
    obtain ⟨cs, t', ht', hobs', hR'⟩ := ih hR ht
    refine ⟨bs ++ cs, t', exec_append.mpr ⟨u', hu', ht'⟩, ?_, hR'⟩
    rw [List.flatMap_append, List.flatMap_cons, hobs, hobs']

/-- Machines that agree on every step of a run that meets a condition agree on the run. -/
theorem exec_congr {step' : σ → α → Option σ} (I : σ → Prop) {C : σ → α → Prop}
    (hI : ∀ s a t, I s → C s a → step s a = some t → I t) (heq : ∀ s a, I s → C s a → step' s a = step s a)
    {s : σ} {as : List α} (hs : I s) (hC : EachStep step C s as) : exec step' s as = exec step s as := by
  induction as generalizing s with
  | nil => rfl
  | cons a as ih =>
    have ha : C s a := hC [] a as s rfl rfl
    rw [exec_cons, exec_cons, heq s a hs ha]
    cases hu : step s a with
    | none => rfl
    | some u => exact ih (hI s a u hs ha hu) ((eachStep_cons hu).mp hC).2

/-- A machine that does what another one does, or else nothing, makes runs of the other one
with some actions left out: none that must be done, and none at all when none of its steps
does nothing. -/
theorem exec_sublist {step' : τ → α → Option τ} (I : σ → Prop) (C : σ → α → Prop) (must : α → Bool) (R : σ → τ → Prop)
    (hI : ∀ s a t, I s → step s a = some t → I t) (hmust : ∀ s a, must a = true → C s a)
    (hstep : ∀ s a t s', I s → R s s' → step s a = some t →
      (∃ t', step' s' a = some t' ∧ R t t') ∨ ¬C s a ∧ R t s')
    {s t : σ} {s' : τ} {as : List α} (hi : I s) (hs : R s s') (h : exec step s as = some t) :
    ∃ bs t', bs.Sublist as ∧ bs.filter must = as.filter must ∧ exec step' s' bs = some t' ∧ R t t' ∧
      (EachStep step C s as → bs = as) := by
  induction as generalizing s s' with
  | nil =>
    cases h
    exact ⟨[], s', List.Sublist.refl _, rfl, rfl, hs, fun _ => rfl⟩
  | cons a as ih =>
    obtain ⟨u, hu, ht⟩ := exec_cons_eq_some.mp h
    rcases hstep s a u s' hi hs hu with ⟨u', hu', hR⟩ | ⟨hno, hR⟩
    · obtain ⟨bs, t', hsub, hkept, ht', hR', hall⟩ := ih (hI s a u hi hu) hR ht
      exact ⟨a :: bs, t', hsub.cons_cons a, by rw [List.filter_cons, List.filter_cons, hkept],
        exec_cons_eq_some.mpr ⟨u', hu', ht'⟩, hR', fun hC => by rw [hall ((eachStep_cons hu).mp hC).2]⟩
    · obtain ⟨bs, t', hsub, hkept, ht', hR', _⟩ := ih (hI s a u hi hu) hR ht
      have hskip : ¬must a = true := fun hm => hno (hmust s a hm)
      exact ⟨bs, t', hsub.cons a, hkept.trans (List.filter_cons_of_neg hskip).symm, ht', hR',
        fun hC => absurd ((eachStep_cons hu).mp hC).1 hno⟩

/-- A run into a property goes through a first step into it. -/
theorem exists_step_into {P : σ → Prop} {s t : σ} {as : List α} (hs : ¬P s) (ht : P t) (h : exec step s as = some t) :
    ∃ as₁ a as₂ u v, as = as₁ ++ a :: as₂ ∧ exec step s as₁ = some u ∧ EachStep step (fun s _ => ¬P s) s (as₁ ++ [a]) ∧
      step u a = some v ∧ P v ∧ exec step v as₂ = some t := by
  induction as generalizing s with
  | nil =>
    cases h
    exact absurd ht hs
  | cons a as ih =>
    obtain ⟨v, hv, hrun⟩ := exec_cons_eq_some.mp h
    by_cases hP : P v
    · refine ⟨[], a, as, s, v, rfl, rfl, (eachStep_cons hv).mpr ⟨hs, fun as₁ b as₂ t he => ?_⟩, hv, hP, hrun⟩
      cases as₁ <;> cases he
    · obtain ⟨as₁, b, as₂, u, w, rfl, hu, heach, hw, hPw, hend⟩ := ih hP hrun
      exact ⟨a :: as₁, b, as₂, u, w, rfl, exec_cons_eq_some.mpr ⟨v, hv, hu⟩, (eachStep_cons hv).mpr ⟨hs, heach⟩, hw, hPw,
        hend⟩

theorem EachStep.last {C : σ → α → Prop} {s u : σ} {as : List α} {a : α} (h : EachStep step C s (as ++ [a]))
    (hu : exec step s as = some u) : C u a := h as a [] u rfl hu

/-- A property that steps keep, and that does not hold at the end of a run, holds nowhere in it. -/
theorem eachStep_not {I P : σ → Prop} (hI : ∀ s a t, I s → step s a = some t → I t)
    (hP : ∀ s a t, I s → P s → step s a = some t → P t) {s t : σ} {as : List α} (hs : I s) (ht : ¬P t)
    (h : exec step s as = some t) : EachStep step (fun s _ => ¬P s) s as := by
  intro as₁ a as₂ u he hu hPu
  subst he
  obtain ⟨u', hu', hrest⟩ := exec_append.mp h
  obtain rfl := Option.some.inj (hu.symm.trans hu')
  have hIu := exec_invariant I hI hs hu
  exact ht (exec_invariant (fun s => I s ∧ P s) (fun s a t ⟨hi, hp⟩ hst => ⟨hI s a t hi hst, hP s a t hi hp hst⟩)
    ⟨hIu, hPu⟩ hrest).2

section Measure
variable {I : σ → Prop} {W : α → Prop} {μ : σ → ℕ} (hI : ∀ s a t, I s → W a → step s a = some t → I t)
  (hμ : ∀ s a t, I s → W a → step s a = some t → μ t < μ s)
include hI hμ

/-- A run of actions that all decrease a measure is no longer than the measure. -/
theorem exec_length_le {s t : σ} {as : List α} (hs : I s) (hW : ∀ a ∈ as, W a) (h : exec step s as = some t) :
    as.length + μ t ≤ μ s := by
  induction as generalizing s with
  | nil =>
    cases h
    simp
  | cons a as ih =>
    obtain ⟨u, hu, ht⟩ := exec_cons_eq_some.mp h
    obtain ⟨ha, hW⟩ := List.forall_mem_cons.mp hW
    have hlt := hμ s a u hs ha hu
    have hle := ih (hI s a u hs ha hu) hW ht
    rw [List.length_cons]
    omega

/-- Such actions lead to a state in which none of them is enabled. -/
theorem exists_exec_stuck {s : σ} (hs : I s) :
    ∃ as t, (∀ a ∈ as, W a) ∧ exec step s as = some t ∧ ∀ a, W a → step t a = none := by
  induction hn : μ s using Nat.strongRecOn generalizing s with
  | _ n ih =>
    by_cases hstuck : ∀ a, W a → step s a = none
    · exact ⟨[], s, by simp, rfl, hstuck⟩
    · simp only [not_forall] at hstuck
      obtain ⟨a, ha, hsome⟩ := hstuck
      obtain ⟨u, hu⟩ := Option.ne_none_iff_exists'.mp hsome
      have hlt := hμ s a u hs ha hu
      obtain ⟨as, t, hW, ht, hend⟩ := ih (μ u) (hn ▸ hlt) (hI s a u hs ha hu) rfl
      exact ⟨a :: as, t, List.forall_mem_cons.mpr ⟨ha, hW⟩, exec_cons_eq_some.mpr ⟨u, hu, ht⟩, hend⟩

end Measure

end SrWebSocket.Machine
