import Rut.Http.Framing

/-!
# Complete heads

What follows when a parser answers `Complete`, in terms of the grammar and of the meaning of the
header lines.
-/

namespace Rut

open Lib.Incremental List

theorem wellFormed_of_texts {hs : List Header} {ts : List Str} (hall : List.Forall₂ HeaderText hs ts) :
    ∀ h ∈ hs, h.WellFormed := by
  induction hall with
  | nil => simp
  | cons ht _ ih => exact forall_mem_cons.mpr ⟨ht.1, ih⟩

/-- The bytes of a head. -/
theorem take_head {t rest : Str} {ts : List Str} :
    (t ++ (ts.flatten ++ cr :: lf :: rest)).take (t.length + ts.flatten.length + 2) =
      t ++ (ts.flatten ++ [cr, lf]) := by
  have hsplit : t ++ (ts.flatten ++ cr :: lf :: rest) = t ++ (ts.flatten ++ [cr, lf]) ++ rest := by simp
  rw [hsplit, take_left' (by simp [Nat.add_assoc])]

namespace HttpParser

theorem parse_complete {buf : Str} {req : ParsedRequest} {n : Nat}
    (h : parse buf = .complete req n) :
    ∃ s t ts rest f, RequestText s t ∧ List.Forall₂ HeaderText req.headers ts ∧
      buf = t ++ (ts.flatten ++ cr :: lf :: rest) ∧ n = t.length + ts.flatten.length + 2 ∧
      req.headers.length ≤ kMaxHeaders ∧ req.headers.foldlM Framing.apply s.framing = some f ∧
      req = { s.withFraming f with headers := req.headers } ∧
      (f.chunked && f.hasContentLength) = false := by
  have hparse : parseHead (message cr lf requestLine (itemLine headerLine storeHeader) acceptFraming)
      buf = .complete req n := h
  obtain ⟨s, t, hs, ts, rest, htext, hall, hbuf, hn, hfold⟩ :=
    (parseHead_complete_iff requestLine_recognises).mp hparse
  obtain ⟨req', hfold, hfin⟩ := Option.bind_eq_some_iff.mp hfold
  have hstart : s.headers = [] := by
    obtain ⟨-, -, -, -, -, hs⟩ := htext
    rw [hs]
  obtain ⟨f, hf, rfl, hroom⟩ := foldlM_storeHeader (wellFormed_of_texts hall)
    (by rw [hstart]; exact Nat.zero_le _) hfold
  rw [hstart, length_nil, Nat.zero_add] at hroom
  rw [acceptFraming] at hfin
  split at hfin
  · cases hfin
  · next hboth =>
    cases hfin
    rw [hstart, nil_append] at *
    exact ⟨s, t, ts, rest, f, htext, hall, hbuf, hn, hroom, hf, rfl,
      by simpa [ParsedRequest.withFraming] using hboth⟩

theorem parse_headText {buf : Str} {req : ParsedRequest} {n : Nat}
    (h : parse buf = .complete req n) : HeadText req.headers (buf.take n) := by
  obtain ⟨s, t, ts, rest, f, htext, hall, rfl, rfl, -⟩ := parse_complete h
  obtain ⟨l, rfl, hl⟩ := htext.line
  rw [take_head]
  exact ⟨l, ts, hl, hall, by simp⟩

def isControl (b : UInt8) : Bool := b < 0x20 || b = 0x7f

/-- A request head and what is said about it. -/
structure WellFormed (buf : Str) (req : ParsedRequest) (n : Nat) : Prop where
  text : ∃ lit ts, (lit, req.method) ∈ methodLiterals ∧ List.Forall₂ HeaderText req.headers ts ∧
    buf.take n = lit ++ (req.path ++ space :: (versionText req.version ++ cr :: lf ::
      (ts.flatten ++ [cr, lf])))
  le_length : n ≤ buf.length
  target : req.path ≠ [] ∧ ∀ b ∈ req.path, kUriTable b = true
  headers_le : req.headers.length ≤ kMaxHeaders
  no_control : ∀ h ∈ req.headers, ∀ b ∈ h.value, isControl b = true → b = tab
  first_blank : endMark cr lf <:+ buf.take n ∧ ¬ endMark cr lf <:+: (buf.take n).dropLast
  contentLength : ∀ h ∈ req.headers, h.isContentLength = true →
    decimalValue h.value = some req.contentLength ∧ req.contentLength < 2 ^ 32
  one_framing : ¬ ((∃ h ∈ req.headers, h.isContentLength = true) ∧
    ∃ h ∈ req.headers, h.isChunked = true)

theorem control_of_value :
    ∀ b : UInt8, kHeaderValueTable b = true → isControl b = true → b = tab := by
  apply byte_forall
  decide +kernel

/-- A request that is accepted has the form of one, and its parts are those of the text. -/
theorem parse_complete_wellFormed {buf : Str} {req : ParsedRequest} {n : Nat}
    (h : parse buf = .complete req n) : WellFormed buf req n := by
  have hhead := parse_headText h
  obtain ⟨s, t, ts, rest, f, htext, hall, rfl, rfl, hroom, hfold, hreq, hboth⟩ := parse_complete h
  obtain ⟨lit, hlit, hne, huri, rfl, -⟩ := htext
  have hsum := Framing.foldlM_apply hfold
  have hcl : req.contentLength = f.contentLength := by rw [hreq]; rfl
  refine ⟨⟨lit, ts, ?_, hall, ?_⟩, ?_, ?_, hroom, ?_, hhead.first_blank, ?_, ?_⟩
  · rw [hreq]
    exact hlit
  · rw [take_head, hreq]
    simp [ParsedRequest.withFraming]
  · simp only [length_append, length_cons]
    omega
  · rw [hreq]
    exact ⟨hne, huri⟩
  · intro h hmem b hb hc
    exact control_of_value b ((wellFormed_of_texts hall h hmem).value_byte b hb) hc
  · rw [hcl]
    exact hsum.contentLength
  · rintro ⟨⟨h, hmem, hname⟩, ⟨h', hmem', hname'⟩⟩
    rw [hsum.chunked, hsum.hasContentLength, any_eq_true.mpr ⟨h', hmem', hname'⟩,
      any_eq_true.mpr ⟨h, hmem, hname⟩] at hboth
    simp at hboth

/-- Four requests and what the parser makes of them. -/
theorem parse_complete_wellFormed_post :
    WellFormed (ascii "POST /a HTTP/1.1\r\nContent-Length: 3\r\n\r\nabc")
      { method := .POST, path := ascii "/a", pathCanon := some ⟨1, ascii "a"⟩, version := .Http11
        headers := [⟨ascii "Content-Length", ascii "3"⟩], contentLength := 3, keepAlive := true
        hasContentLength := true } 39 :=
  parse_complete_wellFormed (by decide +kernel)

/-- Values may hold a control character, the horizontal tab. -/
theorem parse_complete_tab :
    ∃ buf req n, parse buf = .complete req n ∧
      ∃ h ∈ req.headers, ∃ b ∈ h.value, isControl b = true := by
  refine ⟨ascii "GET / HTTP/1.1\r\nA: b\tc\r\n\r\n", {
    method := .GET, path := ascii "/", pathCanon := some ⟨1, []⟩, version := .Http11
    headers := [⟨ascii "A", ascii "b\tc"⟩], keepAlive := true }, 26, ?_, ?_⟩
  · decide +kernel
  · exact ⟨⟨ascii "A", ascii "b\tc"⟩, by simp, tab, by decide, by decide⟩

end HttpParser

namespace HttpResponseParser

theorem parse_complete_iff {buf : Str} {resp : ParsedResponse} {n : Nat} :
    parse buf = .complete resp n ↔
      ∃ s t hs ts rest f, StatusText s t ∧ List.Forall₂ HeaderText hs ts ∧
        buf = t ++ (ts.flatten ++ cr :: lf :: rest) ∧ n = t.length + ts.flatten.length + 2 ∧
        hs.foldlM Framing.apply s.framing = some f ∧
        resp = { s.withFraming f with
          headers := hs.take kMaxHeaders, connectionClose := hs.any Header.closes } := by
  have hstart : ∀ {s : ParsedResponse} {t : Str}, StatusText s t →
      s.headers = [] ∧ s.connectionClose = false := by
    rintro s t ⟨-, -, -, -, -, -, -, hs⟩
    rw [hs]
    exact ⟨rfl, rfl⟩
  have hfold : ∀ {s : ParsedResponse} {t : Str} {hs : List Header} {ts : List Str}, StatusText s t →
      List.Forall₂ HeaderText hs ts →
      hs.foldlM storeHeader s = (hs.foldlM Framing.apply s.framing).map fun f =>
        { s.withFraming f with
          headers := hs.take kMaxHeaders, connectionClose := hs.any Header.closes } := by
    intro s t hs ts htext hall
    obtain ⟨hnil, hclose⟩ := hstart htext
    rw [foldlM_storeHeader (wellFormed_of_texts hall) (by rw [hnil]; exact Nat.zero_le _), hnil,
      hclose]
    simp
  refine (parseHead_complete_iff statusLine_recognises).trans ?_
  constructor
  · rintro ⟨s, t, hs, ts, rest, htext, hall, hbuf, hn, h⟩
    rw [hfold htext hall, Option.bind_fun_some] at h
    obtain ⟨f, hf, rfl⟩ := Option.map_eq_some_iff.mp h
    exact ⟨s, t, hs, ts, rest, f, htext, hall, hbuf, hn, hf, rfl⟩
  · rintro ⟨s, t, hs, ts, rest, f, htext, hall, hbuf, hn, hf, rfl⟩
    refine ⟨s, t, hs, ts, rest, htext, hall, hbuf, hn, ?_⟩
    rw [hfold htext hall, hf]
    rfl

/-! ## The status line -/

def isDigit (b : UInt8) : Bool := 0x30 ≤ b && b ≤ 0x39

/-- `HTTP/1.x SP NNN CRLF` or `HTTP/1.x SP NNN SP reason CRLF`, where the number is `code`. -/
def HasStatusLine (buf : Str) (code : Nat) : Prop :=
  ∃ digit digits tail rest, (digit = 0x30 ∨ digit = 0x31) ∧ digits.length = 3 ∧
    buf = ascii "HTTP/1." ++ digit :: space :: (digits ++ (tail ++ cr :: lf :: rest)) ∧
    (tail = [] ∨ ∃ reason, tail = space :: reason ∧ cr ∉ reason) ∧
    (buf.drop 9).takeWhile isDigit = digits ∧ decimalValue digits = some code

theorem statusCode_spec {digits : Str} {code : Nat} (h : statusCode digits = some code) :
    digits.length = 3 ∧ (∀ b ∈ digits, isDigit b = true) ∧ decimalValue digits = some code := by
  unfold statusCode at h
  split at h
  · next a b c =>
    split at h
    · next hd =>
      dsimp only at h
      split at h
      · cases h
      · cases h
        simp only [Bool.and_eq_true, decide_eq_true_eq] at hd
        refine ⟨rfl, by simp [isDigit, hd], ?_⟩
        simp [decimalValue, decimalLoop, hd]
        omega
    · cases h
  · cases h

theorem versionKeepAlive_digit {digit : UInt8} {k : Bool} (h : versionKeepAlive digit = some k) :
    digit = 0x30 ∨ digit = 0x31 := by
  unfold versionKeepAlive at h
  split at h
  · next h1 => exact .inr h1
  · split at h
    · next h0 => exact .inl h0
    · cases h

/-- The text behind the three digits. -/
theorem drop_status {digit : UInt8} {digits y : Str} (hlen : digits.length = 3) :
    (ascii "HTTP/1." ++ digit :: space :: (digits ++ y)).drop 9 = digits ++ y ∧
      (ascii "HTTP/1." ++ digit :: space :: (digits ++ y))[12]? = y.head? := by
  have hhttp : ascii "HTTP/1." = [0x48, 0x54, 0x54, 0x50, 0x2f, 0x31, 0x2e] := by decide
  match digits, hlen with
  | [a, b, c], _ =>
    rw [hhttp]
    exact ⟨rfl, by cases y <;> rfl⟩

/-- A response that is accepted has a status line exactly if the code ends after three digits; and a
verdict is final. -/
theorem parse_status_line (buf : Str) :
    (∀ resp n, parse buf = .complete resp n →
      (HasStatusLine buf resp.statusCode ↔ buf[12]? = some space ∨ buf[12]? = some cr)) ∧
    ∀ x, parse buf = .incomplete ∨ parse (buf ++ x) = parse buf := by
  refine ⟨fun resp n h => ?_, parse_append buf⟩
  obtain ⟨s, t, hs, ts, rest, f, ⟨digit, digits, tail, hver, hcode, hcr, rfl, -⟩, -, hbuf, -, -, hresp⟩ :=
    parse_complete_iff.mp h
  obtain ⟨hlen, hdigits, hval⟩ := statusCode_spec hcode
  have hcode : resp.statusCode = s.statusCode := by rw [hresp]; rfl
  constructor
  · rintro ⟨digit', digits', tail', rest', -, hlen', heq, htail, -⟩
    rw [heq, (drop_status hlen').2]
    rcases htail with rfl | ⟨reason, rfl, -⟩
    · exact .inr rfl
    · exact .inl rfl
  · intro hnext
    have hbuf : buf = ascii "HTTP/1." ++ digit :: space ::
        (digits ++ (tail ++ cr :: lf :: (ts.flatten ++ cr :: lf :: rest))) := by
      rw [hbuf]
      simp
    rw [hbuf, (drop_status hlen).2] at hnext
    refine ⟨digit, digits, tail, _, versionKeepAlive_digit hver, hlen, hbuf, ?_, ?_, by rwa [hcode]⟩
    · cases tail with
      | nil => exact .inl rfl
      | cons b reason =>
        rw [mem_cons, not_or] at hcr
        rcases hnext with hnext | hnext
        · cases hnext
          exact .inr ⟨reason, rfl, hcr.2⟩
        · cases hnext
          exact absurd rfl hcr.1
    · -- the number ends where the digits do
      rw [hbuf, (drop_status hlen).1, takeWhile_append_of_pos hdigits]
      have hstop : ∀ y : Str, y.head? = some space ∨ y.head? = some cr → y.takeWhile isDigit = [] := by
        intro y hy
        cases y with
        | nil => rfl
        | cons b y => rcases hy with hy | hy <;> cases hy <;> rfl
      rw [hstop _ hnext, append_nil]

theorem parse_status_line_ok :
    HasStatusLine (ascii "HTTP/1.1 200 OK\r\n\r\n") 200 ↔
      (ascii "HTTP/1.1 200 OK\r\n\r\n")[12]? = some space ∨
        (ascii "HTTP/1.1 200 OK\r\n\r\n")[12]? = some cr :=
  (parse_status_line (ascii "HTTP/1.1 200 OK\r\n\r\n")).1 { statusCode := 200, keepAlive := true } 19
    (by decide +kernel)

/-- A fourth digit is taken for the reason phrase. -/
theorem parse_four_digits :
    parse (ascii "HTTP/1.1 2000 OK\r\n\r\n") =
        .complete { statusCode := 200, keepAlive := true } 20 ∧
      ¬ HasStatusLine (ascii "HTTP/1.1 2000 OK\r\n\r\n") 200 := by
  refine ⟨by decide +kernel, ?_⟩
  rintro ⟨digit, digits, tail, rest, -, hlen, -, -, hdigits, -⟩
  have : (takeWhile isDigit (drop 9 (ascii "HTTP/1.1 2000 OK\r\n\r\n"))).length = 4 := by
    decide
  rw [hdigits, hlen] at this
  cases this

/-! ## Header lines of a response -/

theorem StatusText.line {resp : ParsedResponse} {t : Str} (h : StatusText resp t) :
    ∃ l, t = l ++ [cr, lf] ∧ cr ∉ l := by
  obtain ⟨digit, digits, reason, hver, hcode, hcr, rfl, -⟩ := h
  obtain ⟨-, hdigits, -⟩ := statusCode_spec hcode
  refine ⟨ascii "HTTP/1." ++ digit :: space :: (digits ++ reason), by simp, ?_⟩
  have hhttp : cr ∉ ascii "HTTP/1." := by decide
  have hdigit : cr ≠ digit := (versionKeepAlive_ne_cr hver).symm
  have hnum : cr ∉ digits := fun hmem => absurd (hdigits cr hmem) (by decide)
  have hspace : cr ≠ space := by decide
  simp [hhttp, hdigit, hnum, hcr, hspace]

end HttpResponseParser

/-! ## Closing the connection -/

/-- No line asks to keep the connection after the last one that asks to close it. -/
def CloseLast : List Header → Prop
  | [] => True
  | h :: hs => (h.keeps = true → (h :: hs).any Header.closes = true) ∧ CloseLast hs

theorem foldl_keepAlive_eq_false_iff (hs : List Header) (k : Bool) :
    hs.foldl (fun k h => !h.closes && (k || h.keeps)) k = false ↔
      CloseLast hs ∧ (k = true → hs.any Header.closes = true) := by
  induction hs generalizing k with
  | nil => simp [CloseLast]
  | cons h hs ih =>
    rw [foldl_cons, ih, CloseLast, any_cons]
    generalize hs.any Header.closes = later
    cases h.closes <;> cases h.keeps <;> cases k <;> cases later <;> simp

/-- When a head asks to close the connection, it is closed exactly if no later line takes that
back. -/
theorem parse_keepAlive_eq_false_iff {buf : Str} {n : Nat} {hs : List Header}
    (hhead : HeadText hs (buf.take n)) (hclose : hs.any Header.closes = true) :
    (∀ req, HttpParser.parse buf = .complete req n → (req.keepAlive = false ↔ CloseLast hs)) ∧
    ∀ resp, HttpResponseParser.parse buf = .complete resp n →
      (resp.keepAlive = false ↔ CloseLast hs) := by
  have hfold : ∀ {f f' : Framing}, hs.foldlM Framing.apply f = some f' →
      (f'.keepAlive = false ↔ CloseLast hs) := by
    intro f f' hfold
    rw [(Framing.foldlM_apply hfold).keepAlive, foldl_keepAlive_eq_false_iff]
    simp [hclose]
  constructor
  · intro req h
    cases hhead.unique (HttpParser.parse_headText h)
    obtain ⟨s, t, ts, rest, f, -, -, -, -, -, hf, hreq, -⟩ := HttpParser.parse_complete h
    rw [hreq]
    exact hfold hf
  · intro resp h
    obtain ⟨s, t, hs', ts, rest, f, htext, hall, rfl, rfl, hf, hresp⟩ :=
      HttpResponseParser.parse_complete_iff.mp h
    obtain ⟨l, rfl, hl⟩ := htext.line
    rw [take_head] at hhead
    cases hhead.unique ⟨l, ts, hl, hall, by simp⟩
    rw [hresp]
    exact hfold hf

theorem parse_keepAlive_eq_false_iff_close :
    let buf := ascii "GET / HTTP/1.1\r\nConnection: keep-alive\r\nConnection: Close\r\n\r\n"
    let req : ParsedRequest := {
      method := .GET, path := ascii "/", pathCanon := some ⟨1, []⟩, version := .Http11
      headers := [⟨ascii "Connection", ascii "keep-alive"⟩, ⟨ascii "Connection", ascii "Close"⟩] }
    HttpParser.parse buf = .complete req 61 ∧ HeadText req.headers (buf.take 61) ∧
      req.headers.any Header.closes = true ∧ (req.keepAlive = false ↔ CloseLast req.headers) := by
  intro buf req
  have hparse : HttpParser.parse buf = .complete req 61 := by decide +kernel
  have hhead : HeadText req.headers (buf.take 61) := HttpParser.parse_headText hparse
  have hclose : req.headers.any Header.closes = true := by decide
  exact ⟨hparse, hhead, hclose, (parse_keepAlive_eq_false_iff hhead hclose).1 req hparse⟩

/-- A later line takes the `close` of an earlier one back. -/
theorem parse_keepAlive_after_close :
    let buf := ascii "GET / HTTP/1.1\r\nConnection: close\r\nConnection: keep-alive\r\n\r\n"
    let req : ParsedRequest := {
      method := .GET, path := ascii "/", pathCanon := some ⟨1, []⟩, version := .Http11
      headers := [⟨ascii "Connection", ascii "close"⟩, ⟨ascii "Connection", ascii "keep-alive"⟩]
      keepAlive := true }
    HttpParser.parse buf = .complete req 61 ∧ HeadText req.headers (buf.take 61) ∧
      req.headers.any Header.closes = true ∧ req.keepAlive = true := by
  intro buf req
  have hparse : HttpParser.parse buf = .complete req 61 := by decide +kernel
  exact ⟨hparse, HttpParser.parse_headText hparse, by decide, rfl⟩

end Rut
