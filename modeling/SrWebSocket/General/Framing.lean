import Mathlib.Data.List.Basic

/-! # Self-delimiting units in a stream

A framing measures the unit at the head of a stream once all of it has arrived,
and the measure does not depend on what follows. Whole units form a prefix code,
so a stream has one decomposition into units and an incomplete rest, however it
was cut on the way. Units may be gathered into groups, each closed by the first
unit that a predicate marks as its last.
-/
namespace SrWebSocket

/-- `size s` is the length of the unit at the head of `s`, if a whole one is there. -/
structure Framing (α : Type*) where
  size : List α → Option ℕ
  size_pos : ∀ {s n}, size s = some n → 0 < n
  size_le : ∀ {s n}, size s = some n → n ≤ s.length
  size_take : ∀ {s n}, size s = some n → size (s.take n) = some n
  size_append : ∀ {s n}, size s = some n → ∀ t, size (s ++ t) = some n

namespace Framing
variable {α : Type*} (F : Framing α)

def Whole (u : List α) : Prop := F.size u = some u.length

instance (u : List α) : Decidable (F.Whole u) := inferInstanceAs (Decidable (_ = _))

variable {F} {u v s t r : List α} {us vs : List (List α)}

theorem Whole.length_pos (h : F.Whole u) : 0 < u.length := F.size_pos h

theorem Whole.size_append (h : F.Whole u) (t : List α) : F.size (u ++ t) = some u.length :=
  F.size_append h t

theorem exists_whole_of_size {n : ℕ} (h : F.size s = some n) :
    ∃ u t, s = u ++ t ∧ F.Whole u ∧ u.length = n := by
  have hle := F.size_le h
  have hlen : (s.take n).length = n := by rw [List.length_take]; omega
  refine ⟨s.take n, s.drop n, (List.take_append_drop n s).symm, ?_, hlen⟩
  rw [Whole, hlen]
  exact F.size_take h

theorem Whole.unique (hu : F.Whole u) (hv : F.Whole v) (h : u ++ s = v ++ t) : u = v ∧ s = t := by
  have hlen : u.length = v.length := by
    have hs := hu.size_append s
    rw [h, hv.size_append t] at hs
    exact (Option.some.inj hs).symm
  exact List.append_inj h hlen

theorem Whole.size_prefix (hu : F.Whole u) (h : u = s ++ t) (ht : t ≠ []) : F.size s = none := by
  cases hs : F.size s with
  | none => rfl
  | some n =>
    have hn := F.size_append hs t
    rw [← h, hu] at hn
    have hlen := F.size_le hs
    have htl := List.length_pos_iff.mpr ht
    have hul : u.length = s.length + t.length := by rw [h, List.length_append]
    have := Option.some.inj hn
    omega

@[simp] theorem size_nil : F.size [] = none := by
  cases h : F.size ([] : List α) with
  | none => rfl
  | some n =>
    have hp := F.size_pos h
    have hl := F.size_le h
    simp only [List.length_nil] at hl
    omega

/-- Every stream is a row of whole units and a rest that starts with none. -/
theorem exists_parse (s : List α) :
    ∃ (us : List (List α)) (r : List α), s = us.flatten ++ r ∧ (∀ u ∈ us, F.Whole u) ∧ F.size r = none := by
  induction hn : s.length using Nat.strongRecOn generalizing s with
  | _ n ih =>
    cases hs : F.size s with
    | none => exact ⟨[], s, by simp, by simp, hs⟩
    | some k =>
      obtain ⟨u, t, rfl, hu, hk⟩ := exists_whole_of_size hs
      have hpos := hu.length_pos
      have hlt : t.length < n := by rw [← hn, List.length_append]; omega
      obtain ⟨us, r, rfl, hus, hr⟩ := ih t.length hlt t rfl
      refine ⟨u :: us, r, by simp, ?_, hr⟩
      intro v hv
      rcases List.mem_cons.mp hv with rfl | hv
      · exact hu
      · exact hus v hv

theorem parse_prefix (hus : ∀ u ∈ us, F.Whole u) (hvs : ∀ v ∈ vs, F.Whole v)
    (h : us.flatten ++ r = vs.flatten ++ t) (hle : us.flatten.length ≤ vs.flatten.length) :
    ∃ ws, vs = us ++ ws ∧ r = ws.flatten ++ t := by
  induction us generalizing vs with
  | nil => exact ⟨vs, rfl, by simpa using h⟩
  | cons u us ih =>
    have hu := hus u List.mem_cons_self
    cases vs with
    | nil =>
      have := hu.length_pos
      simp only [List.flatten_cons, List.length_append, List.flatten_nil, List.length_nil] at hle
      omega
    | cons v vs =>
      have hv := hvs v List.mem_cons_self
      simp only [List.flatten_cons, List.append_assoc] at h
      obtain ⟨rfl, hrest⟩ := hu.unique hv h
      simp only [List.flatten_cons, List.length_append] at hle
      obtain ⟨ws, rfl, hr⟩ := ih (fun w hw => hus w (List.mem_cons_of_mem _ hw))
        (fun w hw => hvs w (List.mem_cons_of_mem _ hw)) hrest (by omega)
      exact ⟨ws, rfl, hr⟩

/-- Units followed by a rest without one: every other row of units at the head
of the stream is a part of these. -/
theorem parse_maximal (hus : ∀ u ∈ us, F.Whole u) (hvs : ∀ v ∈ vs, F.Whole v)
    (h : us.flatten ++ r = vs.flatten ++ t) (ht : F.size t = none) :
    ∃ ws, vs = us ++ ws ∧ r = ws.flatten ++ t := by
  by_cases hle : us.flatten.length ≤ vs.flatten.length
  · exact parse_prefix hus hvs h hle
  · obtain ⟨ws, rfl, ht'⟩ := parse_prefix hvs hus h.symm (by omega)
    cases ws with
    | nil => simp at hle
    | cons w ws =>
      have hw := hus w (by simp)
      rw [ht', List.flatten_cons, List.append_assoc, hw.size_append] at ht
      exact absurd ht (by simp)

theorem parse_unique (hus : ∀ u ∈ us, F.Whole u) (hvs : ∀ v ∈ vs, F.Whole v)
    (h : us.flatten ++ r = vs.flatten ++ t) (hr : F.size r = none) (ht : F.size t = none) :
    us = vs ∧ r = t := by
  obtain ⟨ws, rfl, hrw⟩ := parse_maximal hus hvs h ht
  cases ws with
  | nil => exact ⟨by simp, by simpa using hrw⟩
  | cons w ws =>
    have hw := hvs w (by simp)
    rw [hrw, List.flatten_cons, List.append_assoc, hw.size_append] at hr
    exact absurd hr (by simp)

end Framing

/-! ## Groups of units -/

section Grouping
variable {β : Type*} (last : β → Bool)

/-- Units up to and including the first one marked as last. -/
def Group (g : List β) : Prop := ∃ init l, g = init ++ [l] ∧ (∀ u ∈ init, last u = false) ∧ last l = true

variable {last} {g h s t : List β} {gs : List (List β)}

theorem Group.ne_nil (hg : Group last g) : g ≠ [] := by
  obtain ⟨init, l, rfl, _⟩ := hg
  simp

theorem Group.singleton {u : β} (hu : last u = true) : Group last [u] := ⟨[], u, rfl, by simp, hu⟩

theorem Group.cons {u : β} (hu : last u = false) (hg : Group last g) : Group last (u :: g) := by
  obtain ⟨init, l, rfl, hinit, hl⟩ := hg
  refine ⟨u :: init, l, rfl, ?_, hl⟩
  intro w hw
  rcases List.mem_cons.mp hw with rfl | hw
  · exact hu
  · exact hinit w hw

theorem Group.append_open (ho : ∀ u ∈ h, last u = false) (hg : Group last g) : Group last (h ++ g) := by
  induction h with
  | nil => exact hg
  | cons u h ih =>
    exact (ih fun v hv => ho v (List.mem_cons_of_mem _ hv)).cons (ho u List.mem_cons_self)

theorem Group.prefix_open (hg : Group last g) (ho : ∀ u ∈ h, last u = false) (he : g ++ s = h ++ t) :
    ∃ k, g = h ++ k ∧ t = k ++ s ∧ Group last k := by
  induction h generalizing g with
  | nil => exact ⟨g, rfl, by simpa using he.symm, hg⟩
  | cons u h ih =>
    obtain ⟨init, l, rfl, hinit, hl⟩ := hg
    have hu := ho u List.mem_cons_self
    cases init with
    | nil =>
      simp only [List.nil_append, List.cons_append, List.cons.injEq] at he
      rw [he.1, hu] at hl
      exact absurd hl (by simp)
    | cons w init =>
      simp only [List.cons_append, List.cons.injEq] at he
      obtain ⟨rfl, hrest⟩ := he
      have hg' : Group last (init ++ [l]) := ⟨init, l, rfl, fun x hx => hinit x (List.mem_cons_of_mem _ hx), hl⟩
      obtain ⟨k, hk, ht, hgk⟩ := ih hg' (fun x hx => ho x (List.mem_cons_of_mem _ hx)) (by simpa using hrest)
      exact ⟨k, by rw [List.cons_append, List.cons_append, hk], ht, hgk⟩

theorem Group.unique (hg : Group last g) (hh : Group last h) (he : g ++ s = h ++ t) : g = h ∧ s = t := by
  obtain ⟨init, l, rfl, hinit, hl⟩ := hh
  obtain ⟨k, rfl, ht, hk⟩ := hg.prefix_open hinit (t := [l] ++ t) (by simpa using he)
  obtain ⟨jnit, m, rfl, hjnit, hm⟩ := hk
  cases jnit with
  | nil =>
    simp only [List.nil_append, List.cons_append, List.cons.injEq] at ht
    exact ⟨by rw [ht.1, List.nil_append], ht.2.symm⟩
  | cons w jnit =>
    simp only [List.cons_append, List.nil_append, List.cons.injEq] at ht
    have := hjnit w List.mem_cons_self
    rw [← ht.1, hl] at this
    exact absurd this (by simp)

theorem exists_groups (last : β → Bool) (us : List β) :
    ∃ (gs : List (List β)) (o : List β), us = gs.flatten ++ o ∧ (∀ g ∈ gs, Group last g) ∧ ∀ u ∈ o, last u = false := by
  induction us with
  | nil => exact ⟨[], [], rfl, by simp, by simp⟩
  | cons u us ih =>
    obtain ⟨gs, o, rfl, hgs, ho⟩ := ih
    cases hu : last u with
    | true =>
      refine ⟨[u] :: gs, o, rfl, ?_, ho⟩
      intro g hg
      rcases List.mem_cons.mp hg with rfl | hg
      · exact Group.singleton hu
      · exact hgs g hg
    | false =>
      cases gs with
      | nil =>
        refine ⟨[], u :: o, rfl, by simp, ?_⟩
        intro w hw
        rcases List.mem_cons.mp hw with rfl | hw
        · exact hu
        · exact ho w hw
      | cons g gs =>
        refine ⟨(u :: g) :: gs, o, rfl, ?_, ho⟩
        intro h hh
        rcases List.mem_cons.mp hh with rfl | hh
        · exact (hgs g List.mem_cons_self).cons hu
        · exact hgs h (List.mem_cons_of_mem _ hh)

/-- Groups at the head of a row, and a row of groups followed by an open part. -/
theorem groups_prefix {hs : List (List β)} {o : List β} (hgs : ∀ g ∈ gs, Group last g)
    (hhs : ∀ h ∈ hs, Group last h) (ho : ∀ u ∈ o, last u = false)
    (he : gs.flatten ++ s = hs.flatten ++ o) : ∃ ks, hs = gs ++ ks ∧ s = ks.flatten ++ o := by
  induction gs generalizing hs with
  | nil => exact ⟨hs, rfl, by simpa using he⟩
  | cons g gs ih =>
    have hg := hgs g List.mem_cons_self
    cases hs with
    | nil =>
      simp only [List.flatten_cons, List.append_assoc, List.flatten_nil, List.nil_append] at he
      obtain ⟨k, _, hk, hgk⟩ := hg.prefix_open ho (t := []) (by simpa using he)
      exact absurd (List.append_eq_nil_iff.mp hk.symm).1 hgk.ne_nil
    | cons h hs =>
      simp only [List.flatten_cons, List.append_assoc] at he
      obtain ⟨rfl, hrest⟩ := hg.unique (hhs h List.mem_cons_self) he
      obtain ⟨ks, rfl, hs'⟩ := ih (fun x hx => hgs x (List.mem_cons_of_mem _ hx))
        (fun x hx => hhs x (List.mem_cons_of_mem _ hx)) hrest
      exact ⟨ks, rfl, hs'⟩

end Grouping

end SrWebSocket
