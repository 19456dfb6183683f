import SrWebSocket.Server.Connection

/-! # What the header loop erases

Each line that the loop looks at loses its last character, whatever it is. This is
the CR of a line ending only in texts whose lines end in CRLF, up to the blank line
or the end of the data; the routing of a request asks for no such thing.
-/
namespace SrWebSocket

/-- The lines on which the header loop calls `erase`. Behind the call on an empty
line nothing is defined. -/
def erasedLines : List (List UInt8) → List (List UInt8)
  | [] => []
  | header :: lines =>
    if header = [13] then []
    else if header = [] then [header]
    else header :: erasedLines lines

/-- Each `erase` takes a CR off a line. -/
def StripsCr (httpMsg : List UInt8) : Prop :=
  ∀ header ∈ erasedLines (getlines (cstr httpMsg)), header ≠ [] ∧ header.getLast? = some 13

instance (httpMsg : List UInt8) : Decidable (StripsCr httpMsg) :=
  inferInstanceAs (Decidable (∀ header ∈ erasedLines (getlines (cstr httpMsg)), _ ∧ _))

/-- Lines that are not empty and end in CRLF, up to a blank line or the end of the
text; a last line without LF ends in CR. -/
inductive CrText : List UInt8 → Prop
  | nil : CrText []
  | blank (rest : List UInt8) : CrText (crlf ++ rest)
  | line {l s : List UInt8} (hne : l ≠ []) (hlf : (10 : UInt8) ∉ l) (hs : CrText s) : CrText (l ++ crlf ++ s)
  | last {l : List UInt8} (hlf : (10 : UInt8) ∉ l) : CrText (l ++ [13])

variable {lines : List (List UInt8)} {l s header : List UInt8}

/-! ## The loop and its erased lines -/

theorem erasedLines_eq (h : [] ∉ lines.takeWhile (· != [13])) : erasedLines lines = lines.takeWhile (· != [13]) := by
  induction lines with
  | nil => rfl
  | cons header lines ih =>
    rw [erasedLines]
    by_cases hblank : header = [13]
    · rw [if_pos hblank, hblank]
      rfl
    · rw [takeWhile_line hblank] at h ⊢
      have hne : header ≠ [] := fun he => h (he ▸ List.mem_cons_self)
      rw [if_neg hblank, if_neg hne, ih fun hm => h (List.mem_cons_of_mem _ hm)]

theorem nil_mem_erasedLines : [] ∈ erasedLines lines ↔ [] ∈ lines.takeWhile (· != [13]) := by
  induction lines with
  | nil => rfl
  | cons header lines ih =>
    rw [erasedLines]
    by_cases hblank : header = [13]
    · rw [if_pos hblank, hblank]
      rfl
    · rw [if_neg hblank, takeWhile_line hblank]
      by_cases hne : header = []
      · rw [if_pos hne, hne]
        simp
      · rw [if_neg hne, List.mem_cons, List.mem_cons, ih]

/-- The loop computes its fields from the erased lines. -/
theorem headerLoop_erased (lines : List (List UInt8)) (f : HttpFields) :
    headerLoop lines f =
      if [] ∈ erasedLines lines then none
      else some
        { websocketKey := lastValue fieldWebsocketKey ((erasedLines lines).map List.dropLast) f.websocketKey
          websocketProtocol :=
            lastValue fieldWebsocketProtocol ((erasedLines lines).map List.dropLast) f.websocketProtocol } := by
  rw [headerLoop_eq]
  by_cases hnil : [] ∈ lines.takeWhile (· != [13])
  · rw [if_pos hnil, if_pos (nil_mem_erasedLines.mpr hnil)]
  · rw [if_neg hnil, if_neg (mt nil_mem_erasedLines.mp hnil), erasedLines_eq hnil]

/-! ## Which texts have only CR erased -/

theorem getlines_of_not_mem (hs : s ≠ []) (h : (10 : UInt8) ∉ s) : getlines s = [s] := by
  induction s with
  | nil => exact absurd rfl hs
  | cons b s ih =>
    have hb : b ≠ 10 := fun he => h (he ▸ List.mem_cons_self)
    rw [getlines, if_neg hb]
    cases s with
    | nil => rfl
    | cons a s => rw [ih (List.cons_ne_nil a s) fun hm => h (List.mem_cons_of_mem _ hm)]

theorem getlines_line (hlf : (10 : UInt8) ∉ l) (s : List UInt8) :
    getlines (l ++ crlf ++ s) = (l ++ [13]) :: getlines s := by
  have hcr : (10 : UInt8) ∉ l ++ [13] := fun hm => (List.mem_append.mp hm).elim hlf (by decide)
  have hsplit : l ++ crlf ++ s = (l ++ [13]) ++ 10 :: s := by simp [crlf]
  rw [hsplit, getlines_append hcr]

/-- A line that is looked at ends in CR. -/
theorem exists_of_erased (hcr : header ≠ [] ∧ header.getLast? = some 13) : ∃ l, header = l ++ [13] := by
  obtain ⟨l, rfl⟩ := List.getLast?_eq_some_iff.mp hcr.2
  exact ⟨l, rfl⟩

theorem crText_of_erased (s : List UInt8)
    (h : ∀ header ∈ erasedLines (getlines s), header ≠ [] ∧ header.getLast? = some 13) : CrText s := by
  -- the text behind the first line is shorter
  induction hn : s.length using Nat.strong_induction_on generalizing s with
  | _ n ih =>
  subst hn
  by_cases hlf : (10 : UInt8) ∈ s
  · obtain ⟨header, rest, rfl, hnot⟩ := List.eq_append_cons_of_mem hlf
    rw [getlines_append hnot, erasedLines] at h
    by_cases hblank : header = [13]
    · rw [hblank]
      exact .blank rest
    · rw [if_neg hblank] at h
      have hne : header ≠ [] := by
        rintro rfl
        exact (h [] (by simp)).1 rfl
      rw [if_neg hne] at h
      obtain ⟨l, rfl⟩ := exists_of_erased (h header List.mem_cons_self)
      have hshort : rest.length < (l ++ [13] ++ 10 :: rest).length := by
        rw [List.length_append, List.length_cons]
        omega
      have hrest := ih _ hshort rest (fun header hm => h header (List.mem_cons_of_mem _ hm)) rfl
      have hl : l ≠ [] := by
        rintro rfl
        exact hblank rfl
      have htext : (l ++ [13]) ++ 10 :: rest = l ++ crlf ++ rest := by simp [crlf]
      rw [htext]
      exact .line hl (fun hm => hnot (List.mem_append_left _ hm)) hrest
  · by_cases hs : s = []
    · rw [hs]
      exact .nil
    · rw [getlines_of_not_mem hs hlf, erasedLines] at h
      by_cases hblank : s = [13]
      · rw [hblank]
        exact .last (l := []) (by simp)
      · rw [if_neg hblank, if_neg hs] at h
        obtain ⟨l, rfl⟩ := exists_of_erased (h s List.mem_cons_self)
        exact .last fun hm => hlf (List.mem_append_left _ hm)

theorem erased_of_crText (h : CrText s) :
    ∀ header ∈ erasedLines (getlines s), header ≠ [] ∧ header.getLast? = some 13 := by
  induction h with
  | nil => simp [getlines, erasedLines]
  | blank rest =>
    have hlines := getlines_line (l := []) (by simp) rest
    rw [List.nil_append] at hlines
    rw [hlines]
    simp [erasedLines]
  | @line l s hne hlf hs ih =>
    have hblank : l ++ [13] ≠ [13] := by simpa using hne
    have hnil : l ++ [(13 : UInt8)] ≠ [] := by simp
    rw [getlines_line hlf, erasedLines, if_neg hblank, if_neg hnil]
    exact List.forall_mem_cons.mpr ⟨⟨hnil, by simp⟩, ih⟩
  | @last l hlf =>
    have hcr : (10 : UInt8) ∉ l ++ [13] := fun hm => (List.mem_append.mp hm).elim hlf (by decide)
    have hnil : l ++ [(13 : UInt8)] ≠ [] := by simp
    rw [getlines_of_not_mem hnil hcr, erasedLines, if_neg hnil]
    split
    · simp
    · simp [erasedLines]

/-- The header loop takes nothing but CR off the lines of a request exactly when its
lines end in CRLF up to the blank line or the end of the data. -/
theorem stripsCr_iff (httpMsg : List UInt8) : StripsCr httpMsg ↔ CrText (cstr httpMsg) :=
  ⟨crText_of_erased _, erased_of_crText⟩

/-- A key line ended by LF alone: the request is routed to the handler, and the key
loses its last character. -/
def bareLfRequest : List UInt8 := ascii "GET / HTTP/1.1\r\nSec-WebSocket-Key: abc\n\r\n"

theorem bareLf_drops :
    (IsGet bareLfRequest ∧ HasKey bareLfRequest) ∧ ¬StripsCr bareLfRequest ∧
      readFields bareLfRequest = some { websocketKey := ascii "ab", websocketProtocol := [] } := by
  decide +kernel

end SrWebSocket
