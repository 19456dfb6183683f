import Mathlib.Data.List.Nodup

/-! # The order of events in a trace

A trace is the list of what happened, oldest first. A walk over distinct keys
that logs some events for each of them puts the events of one key together.
-/
namespace SrWebSocket.Trace
open scoped List
variable {α κ : Type*} {a b : α} {l l' : List α}

/-- There is an `a` with a later `b`. -/
def Before (a b : α) (l : List α) : Prop := [a, b] <+ l

instance [DecidableEq α] (a b : α) (l : List α) : Decidable (Before a b l) := inferInstanceAs (Decidable (_ <+ _))

theorem Before.mem_left (h : Before a b l) : a ∈ l := h.subset (by simp)

theorem Before.mem_right (h : Before a b l) : b ∈ l := h.subset (by simp)

@[simp] theorem not_before_nil : ¬Before a b [] := by simp [Before]

theorem before_cons {c : α} : Before a b (c :: l) ↔ (a = c ∧ b ∈ l) ∨ Before a b l := by
  constructor
  · intro h
    rcases List.sublist_cons_iff.mp h with htail | ⟨r, hr, htail⟩
    · exact Or.inr htail
    · obtain ⟨rfl, rfl⟩ := List.cons.inj hr
      exact Or.inl ⟨rfl, List.singleton_sublist.mp htail⟩
  · rintro (⟨rfl, hb⟩ | h)
    · exact (List.singleton_sublist.mpr hb).cons_cons a
    · exact List.Sublist.cons c h

theorem before_append : Before a b (l ++ l') ↔ Before a b l ∨ (a ∈ l ∧ b ∈ l') ∨ Before a b l' := by
  induction l with
  | nil => simp
  | cons c l ih =>
    rw [List.cons_append, before_cons, before_cons, ih, List.mem_append, List.mem_cons, and_or_left, or_and_right]
    exact iff_of_eq (by ac_rfl)

theorem before_map {β : Type*} {g : α → β} (hg : g.Injective) : Before (g a) (g b) (l.map g) ↔ Before a b l := by
  induction l with
  | nil => simp
  | cons c l ih =>
    rw [List.map_cons, before_cons, before_cons, ih, hg.eq_iff, List.mem_map_of_injective hg]

/-- Some event meets the condition, given what was before it. -/
def Sometime (P : List α → α → Prop) (l : List α) : Prop := ∃ before a after, l = before ++ a :: after ∧ P before a

theorem not_sometime_nil {P : List α → α → Prop} : ¬Sometime P [] := by
  rintro ⟨before, a, after, he, _⟩
  cases before <;> cases he

theorem sometime_concat {P : List α → α → Prop} : Sometime P (l ++ [a]) ↔ Sometime P l ∨ P l a := by
  constructor
  · rintro ⟨before, b, after, he, hP⟩
    rcases List.eq_nil_or_concat after with rfl | ⟨after, c, rfl⟩
    · obtain ⟨rfl, hb⟩ := List.append_inj' he rfl
      cases hb
      exact Or.inr hP
    · rw [List.concat_eq_append, ← List.cons_append, ← List.append_assoc] at he
      exact Or.inl ⟨before, b, after, (List.append_inj' he rfl).1, hP⟩
  · rintro (⟨before, b, after, rfl, hP⟩ | hP)
    · exact ⟨before, b, after ++ [a], by simp, hP⟩
    · exact ⟨l, a, [], rfl, hP⟩

/-! ## Walks over distinct keys -/

variable {f : κ → List α} {k : κ} {ks : List κ}

theorem count_flatMap_key [DecidableEq α] [DecidableEq κ] (ha : ∀ j, a ∈ f j → j = k) (hks : ks.Nodup) :
    (ks.flatMap f).count a = if k ∈ ks then (f k).count a else 0 := by
  induction ks with
  | nil => rfl
  | cons j ks ih =>
    obtain ⟨hj, hks⟩ := List.nodup_cons.mp hks
    rw [List.flatMap_cons, List.count_append, ih hks]
    by_cases hjk : j = k
    · subst hjk
      simp [hj]
    · rw [List.count_eq_zero.mpr fun hm => hjk (ha j hm)]
      simp [Ne.symm hjk]

theorem before_flatMap_key (ha : ∀ j, a ∈ f j → j = k) (hb : ∀ j, b ∈ f j → j = k) (hks : ks.Nodup) :
    Before a b (ks.flatMap f) ↔ k ∈ ks ∧ Before a b (f k) := by
  induction ks with
  | nil => simp
  | cons j ks ih =>
    obtain ⟨hj, hks⟩ := List.nodup_cons.mp hks
    rw [List.flatMap_cons, before_append, ih hks, List.mem_cons]
    constructor
    · rintro (h | ⟨hm, hm'⟩ | ⟨hk, h⟩)
      · obtain rfl := ha j h.mem_left
        exact ⟨Or.inl rfl, h⟩
      · obtain ⟨i, hi, hbi⟩ := List.mem_flatMap.mp hm'
        have hij : i = j := (hb i hbi).trans (ha j hm).symm
        exact absurd (hij ▸ hi) hj
      · exact ⟨Or.inr hk, h⟩
    · rintro ⟨rfl | hk, h⟩
      · exact Or.inl h
      · exact Or.inr (Or.inr ⟨hk, h⟩)

end SrWebSocket.Trace
