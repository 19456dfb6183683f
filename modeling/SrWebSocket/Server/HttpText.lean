import Mathlib.Data.List.Basic
import Mathlib.Data.List.TakeWhile
import Mathlib.Data.Nat.Notation
import Mathlib.Tactic.Common

/-! # HTTP text as the upgrade handler reads it

Strings are lists of bytes. The handler reads the request line by line, takes the
last byte off each line and splits it at the first `: `. The values of two names
are kept, each from the last line that has it.
-/
namespace SrWebSocket

/-- The bytes of a string constant. -/
def ascii (s : String) : List UInt8 := s.toList.map fun c => UInt8.ofNat c.toNat

def fieldGet : List UInt8 := ascii "GET"
def fieldWebsocketKey : List UInt8 := ascii "Sec-WebSocket-Key"
def fieldWebsocketProtocol : List UInt8 := ascii "Sec-WebSocket-Protocol"
def wsProtocolBlank : List UInt8 := ascii "blank"
def wsProtocolEcho : List UInt8 := ascii "echo"

def crlf : List UInt8 := [13, 10]

/-- What a `char*` to these bytes and a NUL shows as a string. -/
def cstr (s : List UInt8) : List UInt8 := s.takeWhile (· != 0)

/-- `std::string::find`: the first place where `pat` starts. -/
def find (pat : List UInt8) : List UInt8 → Option ℕ
  | [] => if pat = [] then some 0 else none
  | b :: s => if pat.isPrefixOf (b :: s) then some 0 else (find pat s).map (· + 1)

/-- The lines that successive calls of `std::getline` return. -/
def getlines : List UInt8 → List (List UInt8)
  | [] => []
  | b :: s =>
    if b = 10 then [] :: getlines s
    else
      match getlines s with
      | [] => [[b]]
      | line :: lines => (b :: line) :: lines

/-- The local strings of `CWsUpgradeHandler::ProcMsg` that the header loop sets. -/
structure HttpFields where
  websocketKey : List UInt8
  websocketProtocol : List UInt8
deriving DecidableEq

/-- The header loop. An empty line makes it call `erase` on the end of an empty
string, which has no defined outcome: `none`. -/
def headerLoop : List (List UInt8) → HttpFields → Option HttpFields
  | [], f => some f
  | header :: lines, f =>
    if header = [13] then some f
    else if header = [] then none
    else
      let header := header.dropLast
      match find (ascii ": ") header with
      | none => headerLoop lines f
      | some pos =>
        let key := header.take pos
        let value := header.drop (pos + 2)
        if key = fieldWebsocketKey then headerLoop lines { f with websocketKey := value }
        else if key = fieldWebsocketProtocol then headerLoop lines { f with websocketProtocol := value }
        else headerLoop lines f

/-- The fields that the handler reads from a request. -/
def readFields (httpMsg : List UInt8) : Option HttpFields :=
  headerLoop (getlines (cstr httpMsg)) { websocketKey := [], websocketProtocol := [] }

variable {s t line pat : List UInt8} {lines : List (List UInt8)} {f g : HttpFields} {b : UInt8}

/-! ## Lines -/

theorem getlines_append (h : (10 : UInt8) ∉ line) (s : List UInt8) :
    getlines (line ++ 10 :: s) = line :: getlines s := by
  induction line with
  | nil => rfl
  | cons b line ih =>
    have hb : b ≠ 10 := fun he => h (he ▸ List.mem_cons_self)
    rw [List.cons_append, getlines, if_neg hb, ih fun hm => h (List.mem_cons_of_mem _ hm)]

/-- No byte is made up. -/
theorem mem_getlines (hl : line ∈ getlines s) (hb : b ∈ line) : b ∈ s := by
  induction s generalizing line with
  | nil => cases hl
  | cons a s ih =>
    rw [getlines] at hl
    split at hl
    · rcases List.mem_cons.mp hl with rfl | hl
      · cases hb
      · exact List.mem_cons_of_mem _ (ih hl hb)
    · split at hl
      · obtain rfl := List.mem_singleton.mp hl
        obtain rfl := List.mem_singleton.mp hb
        exact List.mem_cons_self
      · rename_i first rest he
        rcases List.mem_cons.mp hl with rfl | hl
        · rcases List.mem_cons.mp hb with rfl | hb
          · exact List.mem_cons_self
          · exact List.mem_cons_of_mem _ (ih (he ▸ List.mem_cons_self) hb)
        · exact List.mem_cons_of_mem _ (ih (he ▸ List.mem_cons_of_mem _ hl) hb)

theorem zero_not_mem_cstr (s : List UInt8) : (0 : UInt8) ∉ cstr s := by
  intro h
  have := List.mem_takeWhile_imp h
  exact absurd this (by decide)

theorem cstr_eq_self (h : (0 : UInt8) ∉ s) : cstr s = s := by
  apply List.takeWhile_eq_self_iff.mpr
  intro b hb
  have hb0 : b ≠ 0 := fun he => h (he ▸ hb)
  simpa using hb0

/-- The values that are kept consist of bytes of the lines. -/
theorem headerLoop_mem (h : headerLoop lines f = some g) (P : UInt8 → Prop) (hlines : ∀ l ∈ lines, ∀ b ∈ l, P b)
    (hk : ∀ b ∈ f.websocketKey, P b) (hp : ∀ b ∈ f.websocketProtocol, P b) :
    (∀ b ∈ g.websocketKey, P b) ∧ ∀ b ∈ g.websocketProtocol, P b := by
  induction lines generalizing f with
  | nil =>
    cases h
    exact ⟨hk, hp⟩
  | cons header lines ih =>
    have hrest : ∀ l ∈ lines, ∀ b ∈ l, P b := fun l hl => hlines l (List.mem_cons_of_mem _ hl)
    have hvalue : ∀ pos, ∀ b ∈ header.dropLast.drop pos, P b := fun pos b hb =>
      hlines header List.mem_cons_self b (List.dropLast_subset _ (List.drop_subset _ _ hb))
    rw [headerLoop] at h
    split at h
    · cases h
      exact ⟨hk, hp⟩
    · split at h
      · cases h
      · dsimp only at h
        split at h
        · exact ih h hrest hk hp
        · split at h
          · exact ih h hrest (hvalue _) hp
          · split at h
            · exact ih h hrest hk (hvalue _)
            · exact ih h hrest hk hp

theorem readFields_zero (h : readFields s = some f) :
    (0 : UInt8) ∉ f.websocketKey ∧ (0 : UInt8) ∉ f.websocketProtocol := by
  have hz := zero_not_mem_cstr s
  obtain ⟨hk, hp⟩ := headerLoop_mem h (· ≠ 0) (fun l hl b hb he => hz (he ▸ mem_getlines hl hb)) (by simp) (by simp)
  exact ⟨fun hm => hk 0 hm rfl, fun hm => hp 0 hm rfl⟩

/-! ## Requests of CRLF lines -/

/-- The name and the value of a header line. -/
def fieldOf (line : List UInt8) : Option (List UInt8 × List UInt8) :=
  (find (ascii ": ") line).map fun pos => (line.take pos, line.drop (pos + 2))

/-- The value of the last line with this name, or else `default`. -/
def lastValue (name : List UInt8) : List (List UInt8) → List UInt8 → List UInt8
  | [], default => default
  | line :: lines, default =>
    match fieldOf line with
    | some (key, value) => if key = name then lastValue name lines value else lastValue name lines default
    | none => lastValue name lines default

/-- A line of a request: not empty, with neither LF nor NUL in it. -/
def HeaderLine (l : List UInt8) : Prop := l ≠ [] ∧ (10 : UInt8) ∉ l ∧ (0 : UInt8) ∉ l

instance (l : List UInt8) : Decidable (HeaderLine l) := inferInstanceAs (Decidable (_ ∧ _ ∧ _))

/-- A request of such lines. -/
structure HttpRequest where
  lines : List (List UInt8)
  valid : ∀ l ∈ lines, HeaderLine l

/-- Each line is ended by CRLF, and an empty line ends the request. -/
def requestText (lines : List (List UInt8)) : List UInt8 := lines.flatMap (· ++ crlf) ++ crlf

def HttpRequest.text (q : HttpRequest) : List UInt8 := requestText q.lines

def HttpRequest.fields (q : HttpRequest) : HttpFields where
  websocketKey := lastValue fieldWebsocketKey q.lines []
  websocketProtocol := lastValue fieldWebsocketProtocol q.lines []

theorem getlines_requestText (h : ∀ l ∈ lines, (10 : UInt8) ∉ l) (s : List UInt8) :
    getlines (requestText lines ++ s) = lines.map (· ++ [13]) ++ [13] :: getlines s := by
  induction lines with
  | nil => exact getlines_append (by decide : (10 : UInt8) ∉ [13]) s
  | cons l lines ih =>
    have hl : (10 : UInt8) ∉ l ++ [13] := by
      intro hm
      rcases List.mem_append.mp hm with hm | hm
      · exact h l List.mem_cons_self hm
      · exact absurd hm (by decide)
    have hsplit : requestText (l :: lines) ++ s = (l ++ [13]) ++ 10 :: (requestText lines ++ s) := by
      simp [requestText, crlf]
    rw [hsplit, getlines_append hl, ih fun l hm => h l (List.mem_cons_of_mem _ hm)]
    rfl

theorem takeWhile_line (h : line ≠ [13]) (lines : List (List UInt8)) :
    (line :: lines).takeWhile (· != [13]) = line :: lines.takeWhile (· != [13]) := by
  rw [List.takeWhile_cons, if_pos (by simpa using h)]

/-- The loop stops at the first line that holds CR only. Lines without anything
but LF are not allowed before it. -/
theorem headerLoop_eq (lines : List (List UInt8)) (f : HttpFields) :
    headerLoop lines f =
      if [] ∈ lines.takeWhile (· != [13]) then none
      else some
        { websocketKey := lastValue fieldWebsocketKey ((lines.takeWhile (· != [13])).map List.dropLast) f.websocketKey
          websocketProtocol :=
            lastValue fieldWebsocketProtocol ((lines.takeWhile (· != [13])).map List.dropLast) f.websocketProtocol } := by
  have hnames : fieldWebsocketKey ≠ fieldWebsocketProtocol := by decide
  induction lines generalizing f with
  | nil => rfl
  | cons header lines ih =>
    rw [headerLoop]
    by_cases hblank : header = [13]
    · rw [if_pos hblank, hblank]
      rfl
    rw [if_neg hblank, takeWhile_line hblank]
    by_cases hnil : header = []
    · rw [if_pos hnil, if_pos (hnil ▸ List.mem_cons_self)]
    have hmem : [] ∈ header :: lines.takeWhile (· != [13]) ↔ [] ∈ lines.takeWhile (· != [13]) := by
      simp [Ne.symm hnil]
    simp only [if_neg hnil, hmem, List.map_cons]
    cases hpos : find (ascii ": ") header.dropLast with
    | none => simp only [ih, lastValue, fieldOf, hpos, Option.map_none]
    | some pos =>
      simp only [lastValue, fieldOf, hpos, Option.map_some]
      by_cases hk : header.dropLast.take pos = fieldWebsocketKey
      · have hp : header.dropLast.take pos ≠ fieldWebsocketProtocol := fun he => hnames (hk.symm.trans he)
        rw [if_pos hk, if_pos hk, if_neg hp, ih]
      · rw [if_neg hk, if_neg hk]
        by_cases hp : header.dropLast.take pos = fieldWebsocketProtocol
        · rw [if_pos hp, if_pos hp, ih]
        · rw [if_neg hp, if_neg hp, ih]

/-- The lines of a text before its blank line, with their CR. -/
def requestLines (httpMsg : List UInt8) : List (List UInt8) := (getlines (cstr httpMsg)).takeWhile (· != [13])

/-- The value of the last `Sec-WebSocket-Key` line before the blank line; nothing
when there is no such line. -/
def keyValue (httpMsg : List UInt8) : List UInt8 :=
  lastValue fieldWebsocketKey ((requestLines httpMsg).map List.dropLast) []

theorem readFields_eq_none {httpMsg : List UInt8} : readFields httpMsg = none ↔ [] ∈ requestLines httpMsg := by
  rw [readFields, headerLoop_eq]
  split <;> simp_all [requestLines]

theorem websocketKey_eq {httpMsg : List UInt8} (h : readFields httpMsg = some f) : f.websocketKey = keyValue httpMsg := by
  rw [readFields, headerLoop_eq] at h
  split at h
  · cases h
  · cases h
    rfl

theorem HttpRequest.zero_not_mem (q : HttpRequest) : (0 : UInt8) ∉ q.text := by
  unfold HttpRequest.text requestText crlf
  intro hm
  rcases List.mem_append.mp hm with hm | hm
  · obtain ⟨l, hl, hm⟩ := List.mem_flatMap.mp hm
    rcases List.mem_append.mp hm with hm | hm
    · exact (q.valid l hl).2.2 hm
    · exact absurd hm (by decide)
  · exact absurd hm (by decide)

theorem HttpRequest.requestLines_append (q : HttpRequest) {rest : List UInt8} (hrest : (0 : UInt8) ∉ rest) :
    requestLines (q.text ++ rest) = q.lines.map (· ++ [13]) := by
  have hz : (0 : UInt8) ∉ q.text ++ rest := fun hm => (List.mem_append.mp hm).elim q.zero_not_mem hrest
  have hlines := getlines_requestText (fun l hl => (q.valid l hl).2.1) rest
  have hline : ∀ l ∈ q.lines.map (· ++ [13]), (l != [13]) = true := by
    intro l hl
    obtain ⟨l, hmem, rfl⟩ := List.mem_map.mp hl
    simpa using (q.valid l hmem).1
  rw [requestLines, cstr_eq_self hz, HttpRequest.text, hlines, List.takeWhile_append_of_pos hline, List.takeWhile_cons]
  simp

/-- The handler reads the last values before the empty line; nothing behind it matters. -/
theorem HttpRequest.readFields_append (q : HttpRequest) {rest : List UInt8} (hrest : (0 : UInt8) ∉ rest) :
    readFields (q.text ++ rest) = some q.fields := by
  have hlines := q.requestLines_append hrest
  have hnil : [] ∉ q.lines.map (· ++ [(13 : UInt8)]) := by simp
  have hdrop : (q.lines.map (· ++ [(13 : UInt8)])).map List.dropLast = q.lines := by
    rw [List.map_map]
    exact (List.map_congr_left fun l _ => List.dropLast_concat).trans (List.map_id _)
  unfold requestLines at hlines
  rw [readFields, headerLoop_eq, hlines, if_neg hnil, hdrop]
  rfl

theorem HttpRequest.readFields_text (q : HttpRequest) : readFields q.text = some q.fields := by
  have hread := q.readFields_append (List.not_mem_nil (a := 0))
  rwa [List.append_nil] at hread

theorem find_colon (h : (58 : UInt8) ∉ s) (value : List UInt8) :
    find (ascii ": ") (s ++ ascii ": " ++ value) = some s.length := by
  induction s with
  | nil => rfl
  | cons b s ih =>
    have hb : b ≠ 58 := fun he => h (he ▸ List.mem_cons_self)
    have hpre : (ascii ": ").isPrefixOf (b :: (s ++ ascii ": " ++ value)) = false := by
      change ((58 : UInt8) == b && _) = false
      rw [beq_eq_false_iff_ne.mpr hb.symm]
      rfl
    rw [List.cons_append, List.cons_append, find, hpre, ih fun hm => h (List.mem_cons_of_mem _ hm)]
    rfl

/-- A line with a name, `: ` and a value. -/
theorem fieldOf_line {name : List UInt8} (h : (58 : UInt8) ∉ name) (value : List UInt8) :
    fieldOf (name ++ ascii ": " ++ value) = some (name, value) := by
  have hlen : name.length + 2 = (name ++ ascii ": ").length := by rw [List.length_append]; rfl
  rw [fieldOf, find_colon h, Option.map_some, hlen, List.drop_left, List.append_assoc, List.take_left]

end SrWebSocket
