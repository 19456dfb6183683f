import SrWebSocket.Server.Answers
import SrWebSocket.Server.EchoService

/-! # The page that answers a request

`CWsGetHandler` writes a head with the length of `index.html` and reads the file behind
it. A client that takes as many bytes as the head announces gets the file back, one
response after the other, exactly when the file was read as a whole.
-/
namespace SrWebSocket

/-- `index.html` as the handler finds it: what `get_file_len` says, and the bytes that
`file_read` reads, for which there is room. -/
structure Page where
  lLen : ℤ
  read : List UInt8
  read_le : read.length ≤ lLen

def pageLines (lLen : ℤ) : List (List UInt8) :=
  [ascii "HTTP/1.1 200 OK", ascii "Content-Type: html", ascii "Content-Length: " ++ decimal lLen.toNat]

/-- What `snprintf` leaves in `szTmp`, up to its NUL. -/
def szTmp (lLen : ℤ) : List UInt8 := (requestText (pageLines lLen)).take 199

/-- `CWsGetHandler::ProcMsg`. -/
def Page.procMsg (page : Page) : List UInt8 := if 0 < page.lLen then szTmp page.lLen ++ page.read else []

/-! ## A reader of responses -/

/-- The lines up to the empty one, and what is behind it. -/
def readHead (line : List UInt8) : List UInt8 → Option (List (List UInt8) × List UInt8)
  | [] => none
  | b :: s =>
    if b = 10 then
      if line = [13] then some ([], s) else (readHead [] s).map fun p => (line.dropLast :: p.1, p.2)
    else readHead (line ++ [b]) s

def ofDecimal (digits : List UInt8) : ℕ := Nat.ofDigitChars 10 (digits.map fun b => Char.ofNat b.toNat) 0

/-- A response with the length of its body in its head: the body, and what is behind it. -/
def readResponse (bytes : List UInt8) : Option (List UInt8 × List UInt8) :=
  (readHead [] bytes).bind fun p =>
    let n := ofDecimal (lastValue (ascii "Content-Length") p.1 [])
    if n ≤ p.2.length then some (p.2.take n, p.2.drop n) else none

/-- The bodies of `n` responses behind one another. -/
def readResponses : ℕ → List UInt8 → Option (List (List UInt8) × List UInt8)
  | 0, bytes => some ([], bytes)
  | n + 1, bytes => (readResponse bytes).bind fun p => (readResponses n p.2).map fun q => (p.1 :: q.1, q.2)

variable {lines : List (List UInt8)} {line s rest : List UInt8} {page : Page} {n : ℕ} {env : Env}

theorem readHead_append (h : (10 : UInt8) ∉ s) (line rest : List UInt8) :
    readHead line (s ++ 10 :: rest) =
      if line ++ s = [13] then some ([], rest)
      else (readHead [] rest).map fun p => ((line ++ s).dropLast :: p.1, p.2) := by
  induction s generalizing line with
  | nil =>
    rw [List.append_nil]
    rfl
  | cons b s ih =>
    have hb : b ≠ 10 := fun he => h (he ▸ List.mem_cons_self)
    rw [List.cons_append, readHead, if_neg hb, ih fun hm => h (List.mem_cons_of_mem _ hm)]
    simp

/-- The head is read back. -/
theorem readHead_requestText (h : ∀ l ∈ lines, l ≠ [] ∧ (10 : UInt8) ∉ l) (rest : List UInt8) :
    readHead [] (requestText lines ++ rest) = some (lines, rest) := by
  induction lines with
  | nil => rfl
  | cons l lines ih =>
    obtain ⟨hne, hl⟩ := h l List.mem_cons_self
    have hcr : (10 : UInt8) ∉ l ++ [13] := by
      intro hm
      rcases List.mem_append.mp hm with hm | hm
      · exact hl hm
      · exact absurd hm (by decide)
    have hsplit : requestText (l :: lines) ++ rest = (l ++ [13]) ++ 10 :: (requestText lines ++ rest) := by
      simp [requestText, crlf]
    have hline : [] ++ (l ++ [13]) ≠ [(13 : UInt8)] := by simpa using hne
    rw [hsplit, readHead_append hcr, if_neg hline, ih fun m hm => h m (List.mem_cons_of_mem _ hm)]
    simp

/-! ## Numbers -/

theorem toNat_digit {c : Char} (hc : c ∈ Nat.toDigits 10 n) :
    (UInt8.ofNat c.toNat).toNat = c.toNat ∧ 48 ≤ c.toNat ∧ c.toNat ≤ 57 := by
  have hdigit : 48 ≤ c.toNat ∧ c.toNat ≤ 57 :=
    Char.isDigit_iff_toNat.mp (Nat.isDigit_of_mem_toDigits (by decide) (by decide) hc)
  refine ⟨?_, hdigit⟩
  rw [UInt8.toNat_ofNat']
  exact Nat.mod_eq_of_lt (by omega)

theorem lf_not_mem_decimal (n : ℕ) : (10 : UInt8) ∉ decimal n := by
  intro hm
  obtain ⟨c, hc, he⟩ := List.mem_map.mp hm
  obtain ⟨hb, hlow, _⟩ := toNat_digit hc
  rw [he] at hb
  have hten : (10 : UInt8).toNat = 10 := rfl
  omega

theorem ofDecimal_decimal (n : ℕ) : ofDecimal (decimal n) = n := by
  have hchars : (decimal n).map (fun b => Char.ofNat b.toNat) = Nat.toDigits 10 n := by
    rw [decimal, List.map_map]
    refine (List.map_congr_left fun c hc => ?_).trans (List.map_id _)
    rw [Function.comp_apply, (toNat_digit hc).1, Char.ofNat_toNat]
    rfl
  rw [ofDecimal, hchars]
  exact Nat.ofDigitChars_ten_toDigits

theorem length_decimal (h : n < 2 ^ 63) : (decimal n).length ≤ 19 := by
  rw [decimal, List.length_map, Nat.length_toDigits_le_iff (by decide) (by decide)]
  omega

/-! ## Pages -/

theorem pageLines_mem {lLen : ℤ} {l : List UInt8} (hl : l ∈ pageLines lLen) : l ≠ [] ∧ (10 : UInt8) ∉ l := by
  rcases List.mem_cons.mp hl with rfl | hl
  · decide
  rcases List.mem_cons.mp hl with rfl | hl
  · decide
  obtain rfl := List.mem_singleton.mp hl
  refine ⟨by simp [ascii], fun hm => ?_⟩
  rcases List.mem_append.mp hm with hm | hm
  · exact absurd hm (by decide)
  · exact lf_not_mem_decimal _ hm

/-- The head fits into `szTmp`. -/
theorem length_pageLines {lLen : ℤ} (h : lLen < 2 ^ 63) : (requestText (pageLines lLen)).length ≤ 76 := by
  have hdigits : (decimal lLen.toNat).length ≤ 19 := length_decimal (by omega)
  have hlen : (requestText (pageLines lLen)).length = 57 + (decimal lLen.toNat).length := by
    simp only [requestText, pageLines, List.flatMap_cons, List.flatMap_nil, List.length_append, List.append_nil]
    have hstatus : (ascii "HTTP/1.1 200 OK").length = 15 := rfl
    have htype : (ascii "Content-Type: html").length = 18 := rfl
    have hname : (ascii "Content-Length: ").length = 16 := rfl
    have hcrlf : crlf.length = 2 := rfl
    omega
  omega

theorem szTmp_eq {lLen : ℤ} (h : lLen < 2 ^ 63) : szTmp lLen = requestText (pageLines lLen) := by
  have hlen := length_pageLines h
  exact List.take_of_length_le (by omega)

theorem contentLength_pageLines (lLen : ℤ) :
    lastValue (ascii "Content-Length") (pageLines lLen) [] = decimal lLen.toNat := by
  have hstatus : fieldOf (ascii "HTTP/1.1 200 OK") = none := by decide
  have htype : fieldOf (ascii "Content-Type: html") = some (ascii "Content-Type", ascii "html") := by decide
  have hname : ascii "Content-Type" ≠ ascii "Content-Length" := by decide
  have hcolon : (58 : UInt8) ∉ ascii "Content-Length" := by decide
  have hsplit : ascii "Content-Length: " = ascii "Content-Length" ++ ascii ": " := by decide
  have hlength := fieldOf_line hcolon (decimal lLen.toNat)
  rw [← hsplit] at hlength
  simp only [pageLines, lastValue, hstatus, htype, hlength, if_neg hname, if_true]

/-- A reader of the response takes as many bytes as the file was said to have. -/
theorem readResponse_page (hpos : 0 < page.lLen) (hlen : page.lLen < 2 ^ 63) (rest : List UInt8) :
    readResponse (page.procMsg ++ rest) =
      if page.lLen.toNat ≤ (page.read ++ rest).length then
        some ((page.read ++ rest).take page.lLen.toNat, (page.read ++ rest).drop page.lLen.toNat)
      else none := by
  rw [Page.procMsg, if_pos hpos, szTmp_eq hlen, List.append_assoc, readResponse,
    readHead_requestText (fun l hl => pageLines_mem hl)]
  simp only [Option.bind_some, contentLength_pageLines, ofDecimal_decimal]

/-- The response can be told from what follows it exactly when the whole file was read. -/
theorem readResponse_page_iff (hpos : 0 < page.lLen) (hlen : page.lLen < 2 ^ 63) :
    (∀ rest, readResponse (page.procMsg ++ rest) = some (page.read, rest)) ↔ page.read.length = page.lLen := by
  have hread := page.read_le
  refine ⟨fun hall => ?_, fun hwhole rest => ?_⟩
  · have hnil := hall []
    rw [readResponse_page hpos hlen, List.append_nil] at hnil
    split at hnil
    · omega
    · cases hnil
  · have hn : page.lLen.toNat = page.read.length := by omega
    rw [readResponse_page hpos hlen, hn, if_pos (by simp), List.take_left, List.drop_left]

/-- The response of a page that has a file stays inside the buffer allocated for it, and
it can be told from what follows it exactly when the whole file was read. -/
theorem page_framed (page : Page) (hpos : 0 < page.lLen) (hlen : page.lLen < 2 ^ 63) :
    (page.procMsg.length : ℤ) ≤ page.lLen + 200 ∧ szTmp page.lLen = requestText (pageLines page.lLen) ∧
      ((∀ rest, readResponse (page.procMsg ++ rest) = some (page.read, rest)) ↔ page.read.length = page.lLen) := by
  have hread := page.read_le
  have hhead := length_pageLines hlen
  refine ⟨?_, szTmp_eq hlen, readResponse_page_iff hpos hlen⟩
  rw [Page.procMsg, if_pos hpos, szTmp_eq hlen, List.length_append]
  omega

/-- A file of 9 bytes, read as a whole. -/
def smallPage : Page where
  lLen := 9
  read := ascii "<p>hi</p>"
  read_le := by decide

theorem page_framed_small :
    (smallPage.procMsg.length : ℤ) ≤ 209 ∧
      readResponse (smallPage.procMsg ++ smallPage.procMsg) = some (ascii "<p>hi</p>", smallPage.procMsg) := by
  obtain ⟨hroom, _, hframed⟩ := page_framed smallPage (by decide) (by decide)
  exact ⟨hroom, hframed.mpr (by decide) smallPage.procMsg⟩

/-! ## A connection that serves pages -/

/-- The page of an `index.html` that is read as a whole. -/
def Env.wholePage (env : Env) : Page where
  lLen := env.indexHtml.length
  read := env.indexHtml
  read_le := Int.le_refl _

/-- A call of the page handler before the upgrade. -/
def Event.IsPage (e : Event) : Prop := e.state = .none ∧ e.handler = .get

instance (e : Event) : Decidable e.IsPage := inferInstanceAs (Decidable (_ ∧ _))

/-- What these handler calls have sent. -/
def sentBy (events : List Event) : List UInt8 := events.flatMap fun e => e.sent.getD []

def pageCalls (events : List Event) : List Event := events.filter fun e => e.IsPage

def otherCalls (events : List Event) : List Event := events.filter fun e => ¬e.IsPage

theorem getProcMsg_page (hlen : env.indexHtml.length < 2 ^ 63) : getProcMsg env = env.wholePage.procMsg := by
  have hlLen : env.wholePage.lLen = env.indexHtml.length := rfl
  have hread : env.wholePage.read = env.indexHtml := rfl
  rw [getProcMsg, Page.procMsg, szTmp_eq (by omega), hlLen, hread]
  by_cases hpos : 0 < env.indexHtml.length
  · rw [if_pos hpos, if_pos (Int.natCast_pos.mpr hpos), pageLines, Int.toNat_natCast]
    have hfront : ascii "HTTP/1.1 200 OK\r\nContent-Type: html\r\nContent-Length: " =
        ascii "HTTP/1.1 200 OK" ++ crlf ++ (ascii "Content-Type: html" ++ crlf) ++ ascii "Content-Length: " := by decide
    have hback : ascii "\r\n\r\n" = crlf ++ crlf := by decide
    rw [hfront, hback]
    simp [requestText]
  · rw [if_neg hpos, if_neg fun h => hpos (Int.natCast_pos.mp h)]

theorem sentBy_append (es fs : List Event) : sentBy (es ++ fs) = sentBy es ++ sentBy fs := List.flatMap_append

theorem sentBy_pages (n : ℕ) :
    sentBy (List.replicate n (pageEvent env)) = (List.replicate n (getProcMsg env)).flatten := by
  have hone : (pageEvent env).sent.getD [] = getProcMsg env := by
    rw [pageEvent]
    split
    · rfl
    · next hnil => exact (not_not.mp hnil).symm
  rw [sentBy, List.flatMap_replicate, hone]

/-- Responses behind one another are read one by one. -/
theorem readResponses_pages (hpos : 0 < env.indexHtml.length) (hlen : env.indexHtml.length < 2 ^ 63) (n : ℕ)
    (rest : List UInt8) :
    readResponses n ((List.replicate n (getProcMsg env)).flatten ++ rest) =
      some (List.replicate n env.indexHtml, rest) := by
  induction n with
  | zero => rfl
  | succ n ih =>
    have hlLen : env.wholePage.lLen = env.indexHtml.length := rfl
    have hpage : 0 < env.wholePage.lLen ∧ env.wholePage.lLen < 2 ^ 63 := by omega
    have hone := (readResponse_page_iff hpage.1 hpage.2).mpr rfl
    rw [← getProcMsg_page hlen] at hone
    rw [List.replicate_succ, List.flatten_cons, List.append_assoc, readResponses, hone, Option.bind_some, ih]
    rfl

theorem pageCalls_append (es fs : List Event) : pageCalls (es ++ fs) = pageCalls es ++ pageCalls fs :=
  List.filter_append ..

theorem otherCalls_append (es fs : List Event) : otherCalls (es ++ fs) = otherCalls es ++ otherCalls fs :=
  List.filter_append ..

theorem calls_pages (n : ℕ) :
    pageCalls (List.replicate n (pageEvent env)) = List.replicate n (pageEvent env) ∧
      otherCalls (List.replicate n (pageEvent env)) = [] := by
  have hpage : (pageEvent env).IsPage := ⟨rfl, rfl⟩
  constructor
  · exact List.filter_eq_self.mpr fun e he => by simpa [List.eq_of_mem_replicate he] using hpage
  · exact List.filter_eq_nil_iff.mpr fun e he => by simpa [List.eq_of_mem_replicate he] using hpage

theorem calls_others {es : List Event} (h : ∀ e ∈ es, ¬e.IsPage) : pageCalls es = [] ∧ otherCalls es = es :=
  ⟨List.filter_eq_nil_iff.mpr fun e he => by simpa using h e he,
    List.filter_eq_self.mpr fun e he => by simpa using h e he⟩

/-- From the upgrade on there are no page calls. -/
theorem upgrade_others (sent : Option (List UInt8)) (p : List UInt8) (ds : List WsMsg) :
    ∀ e ∈ ⟨.none, .upgrade, sent⟩ :: ds.filterMap (answer env p), ¬e.IsPage := by
  intro e he
  rcases List.mem_cons.mp he with rfl | he
  · exact fun hpage => Handler.noConfusion hpage.2
  · obtain ⟨m, _, hm⟩ := List.mem_filterMap.mp he
    unfold answer at hm
    split at hm
    · obtain ⟨_, _, rfl⟩ := Option.map_eq_some_iff.mp hm
      exact fun hpage => WsState.noConfusion hpage.1
    · cases hm

/-- The handler calls of a connection are some pages and then no page anymore. -/
theorem Answered.split {c : Conn} (h : Answered env c) :
    ∃ n es, c.events = List.replicate n (pageEvent env) ++ es ∧ ∀ e ∈ es, ¬e.IsPage := by
  cases h with
  | pages n _ _ _ hev => exact ⟨n, [], by rw [hev, List.append_nil], by simp⟩
  | failed n _ _ _ hev => exact ⟨n, _, hev, by simp [Event.IsPage]⟩
  | upgraded n _ _ _ _ _ _ _ hev => exact ⟨n, _, hev, upgrade_others _ _ _⟩

/-- What a client reads of pages and what follows them. -/
theorem readResponses_calls (hpos : 0 < env.indexHtml.length) (hlen : env.indexHtml.length < 2 ^ 63) {n : ℕ}
    {es : List Event} (hothers : ∀ e ∈ es, ¬e.IsPage) {events : List Event}
    (hev : events = List.replicate n (pageEvent env) ++ es) :
    (pageCalls events).length = n ∧ otherCalls events = es ∧
      readResponses n (sentBy events) = some (List.replicate n env.indexHtml, sentBy es) := by
  obtain ⟨hpages, hnone⟩ := @calls_pages env n
  obtain ⟨hnil, hall⟩ := calls_others hothers
  rw [hev, pageCalls_append, otherCalls_append, hpages, hnone, hnil, hall, List.append_nil, List.nil_append,
    List.length_replicate, sentBy_append, sentBy_pages]
  exact ⟨rfl, rfl, readResponses_pages hpos hlen n _⟩

/-- In every run of a connection a client that reads a response for each page the server has
sent gets `index.html` each time, and what is left are the bytes of the upgrade and of the
frames behind it. -/
theorem pages_readable (env : Env) (hpos : 0 < env.indexHtml.length) (hlen : env.indexHtml.length < 2 ^ 63)
    (acts : List ConnAct) (c : Conn) (hrun : Machine.exec (Conn.step env) .start acts = some c) :
    readResponses (pageCalls c.events).length c.toSession.sentBytes =
      some (List.replicate (pageCalls c.events).length env.indexHtml, sentBy (otherCalls c.events)) := by
  obtain ⟨n, es, hev, hothers⟩ := (answered_start.exec connInv_start hrun).split
  obtain ⟨hn, hrest, hread⟩ := readResponses_calls hpos hlen hothers hev
  rw [hn, hrest]
  exact hread

/-- Two requests for the page and then one for the upgrade. -/
def twoPages : List ConnAct :=
  [.push (ascii "GET / HTTP/1.1\r\n\r\n"), .proc zeroScratch, .push (ascii "GET /x HTTP/1.1\r\n\r\n"), .proc zeroScratch,
    .push echoRequest.text, .proc zeroScratch]

theorem pages_readable_two :
    ∃ c, Machine.exec (Conn.step sampleEnv) .start twoPages = some c ∧ c.miState = .connect ∧
      readResponses 2 c.toSession.sentBytes =
        some ([ascii "<p>hi</p>", ascii "<p>hi</p>"], sentBy (otherCalls c.events)) := by
  have hrun : (Machine.exec (Conn.step sampleEnv) .start twoPages).map
      (fun c => (c.miState, (pageCalls c.events).length)) = some (.connect, 2) := by decide +kernel
  obtain ⟨c, hc, hall⟩ := Option.map_eq_some_iff.mp hrun
  obtain ⟨hstate, htwo⟩ := Prod.mk.inj hall
  have hread := pages_readable sampleEnv (by decide) (by decide) twoPages c hc
  rw [htwo] at hread
  exact ⟨c, hc, hstate, hread⟩

end SrWebSocket
