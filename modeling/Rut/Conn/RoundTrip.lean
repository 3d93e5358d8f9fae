import Rut.Conn.Response
import Rut.Http.Heads

/-!
# Formatted responses are understood

What the formatters write is read back by `HttpResponseParser`: the status, the flag, the headers and
the extent of the body.
-/

namespace Rut

open Lib.Incremental List ResponseHeaderKV

/-! ## Digits -/

theorem toNat_lastDigit (n : Nat) : (lastDigit n).toNat = 0x30 + n % 10 := by
  rw [lastDigit, UInt8.toNat_add, UInt8.toNat_ofNat']
  have h48 : (0x30 : UInt8).toNat = 0x30 := rfl
  omega

theorem lastDigit_le (n : Nat) : 0x30 ≤ lastDigit n ∧ lastDigit n ≤ 0x39 := by
  rw [UInt8.le_iff_toNat_le, UInt8.le_iff_toNat_le, toNat_lastDigit]
  have h48 : (0x30 : UInt8).toNat = 0x30 := rfl
  have h57 : (0x39 : UInt8).toNat = 0x39 := rfl
  omega

/-- The digits of a number are those of its tenth and one more. -/
theorem digits_tenth {n : Nat} (h10 : 10 ≤ n) (hn : n < 10 ^ 10) :
    writeContentLengthDigits n = writeContentLengthDigits (n / 10) ++ [lastDigit n] := by
  have hlow : digitThresholds = (digitThresholds.tail).map (10 * ·) ++ [10] := rfl
  have hhigh : digitThresholds = 1000000000 :: digitThresholds.tail := rfl
  unfold writeContentLengthDigits
  congr 1
  conv_lhs => rw [hlow]
  conv_rhs => rw [hhigh]
  generalize digitThresholds.tail = ts
  have hbig : ¬ 1000000000 ≤ n / 10 := by omega
  have hpred : ((fun t => decide (t ≤ n)) ∘ fun t => 10 * t) = fun t => decide (t ≤ n / 10) := by
    funext t
    simp only [Function.comp_apply, decide_eq_decide]
    omega
  have hdigit : ((fun t => lastDigit (n / t)) ∘ fun t => 10 * t) = fun t => lastDigit (n / 10 / t) := by
    funext t
    simp only [Function.comp_apply, Nat.div_div_eq_div_mul]
  rw [filter_append, map_append, filter_map, map_map, hpred, hdigit]
  simp [h10, hbig]

theorem digits_single {n : Nat} (h : n < 10) : writeContentLengthDigits n = [lastDigit n] := by
  have hfilter : digitThresholds.filter (· ≤ n) = [] := by
    rw [filter_eq_nil_iff]
    intro t ht
    have : 10 ≤ t := by
      revert t
      decide
    simp only [decide_eq_true_eq]
    omega
  rw [writeContentLengthDigits, hfilter]
  rfl

theorem decimalLoop_append (acc : Nat) (xs : Str) (n : Nat) :
    decimalLoop acc (xs ++ [lastDigit n]) = (decimalLoop acc xs).map (· * 10 + n % 10) := by
  induction xs generalizing acc with
  | nil => simp [decimalLoop, lastDigit_le, toNat_lastDigit]
  | cons b xs ih =>
    rw [cons_append, decimalLoop, decimalLoop]
    split
    · exact ih _
    · rfl

/-- Digits that are written are read back. -/
theorem decimalLoop_digits {n : Nat} (hn : n < 10 ^ 10) :
    decimalLoop 0 (writeContentLengthDigits n) = some n := by
  induction n using Nat.strongRecOn with
  | ind n ih =>
    by_cases h10 : n < 10
    · rw [digits_single h10, ← nil_append [lastDigit n], decimalLoop_append]
      simp [decimalLoop, Nat.mod_eq_of_lt h10]
    · rw [digits_tenth (by omega) hn, decimalLoop_append, ih (n / 10) (by omega) (by omega)]
      simp only [Option.map_some, Option.some.injEq]
      omega

theorem digits_ne_nil (n : Nat) : writeContentLengthDigits n ≠ [] := by
  simp [writeContentLengthDigits]

/-- The digits of the length are the length. -/
theorem decimalValue_digits {n : Nat} (hn : n < 2 ^ 32) :
    decimalValue (writeContentLengthDigits n) = some n := by
  rw [decimalValue, if_neg (digits_ne_nil n), decimalLoop_digits (by omega)]

theorem digits_byte (n : Nat) : ∀ b ∈ writeContentLengthDigits n, 0x30 ≤ b ∧ b ≤ 0x39 := by
  intro b hb
  simp only [writeContentLengthDigits, mem_append, mem_map, mem_singleton] at hb
  rcases hb with ⟨t, -, rfl⟩ | rfl
  · exact lastDigit_le _
  · exact lastDigit_le _

theorem digitCountLoop_eq {fuel k n : Nat} (hfuel : n < 10 ^ (fuel + 1)) (hn : n < 10 ^ 10) :
    digitCountLoop fuel k n + 1 = k + (writeContentLengthDigits n).length := by
  induction fuel generalizing k n with
  | zero => simp [digitCountLoop, digits_single (by simpa using hfuel)]
  | succ fuel ih =>
    rw [digitCountLoop]
    split
    · next h10 =>
      rw [ih (by rw [Nat.pow_succ] at hfuel; omega) (by omega), digits_tenth h10 hn,
        length_append, length_singleton]
      omega
    · next h10 => rw [digits_single (by omega)]; rfl

/-- The digits are counted right. -/
theorem decimalDigitCount_eq {n : Nat} (hn : n < 10 ^ 10) :
    decimalDigitCount n = (writeContentLengthDigits n).length := by
  have := @digitCountLoop_eq 10 1 n (by omega) hn
  rw [decimalDigitCount]
  omega

/-! ## Header lines -/

def trimOws (value : Str) : Str := (value.dropWhile isOws).rdropWhile isOws

namespace ResponseHeaderKV

def parsed (h : ResponseHeaderKV) : Header := ⟨h.key, trimOws h.value⟩

structure WellFormed (h : ResponseHeaderKV) : Prop where
  key_ne_nil : h.key ≠ []
  key_token : ∀ b ∈ h.key, kTokenTable b = true
  value_byte : ∀ b ∈ h.value, kHeaderValueTable b = true

theorem trimOws_split (value : Str) :
    ∃ pre post, Ows pre ∧ Ows post ∧ value = pre ++ (trimOws value ++ post) := by
  refine ⟨value.takeWhile isOws, (value.dropWhile isOws).rtakeWhile isOws,
    fun b hb => mem_takeWhile_imp hb, fun b hb => mem_rtakeWhile_imp hb, ?_⟩
  rw [trimOws, rdropWhile_append_rtakeWhile, takeWhile_append_dropWhile]

/-- A header comes back without the white space around it. -/
theorem WellFormed.headerText {h : ResponseHeaderKV} (hwf : h.WellFormed) :
    HeaderText h.parsed h.line := by
  obtain ⟨pre, post, hpre, hpost, hvalue⟩ := trimOws_split h.value
  refine ⟨⟨hwf.key_ne_nil, hwf.key_token, ?_, trimmed_rdropWhile head?_dropWhile_ows⟩,
    space :: pre, post, forall_mem_cons.mpr ⟨by decide, hpre⟩, hpost, ?_⟩
  · intro b hb
    apply hwf.value_byte
    rw [hvalue]
    exact mem_append_right _ (mem_append_left _ hb)
  · have hsep : ascii ": " = [colon, space] := by decide
    rw [line, hsep]
    nth_rewrite 1 [hvalue]
    simp [parsed, crlf]

/-- Neither the framing nor the connection depends on the header. -/
def Neutral (h : Header) : Prop :=
  h.isContentLength = false ∧ h.closes = false ∧ h.keeps = false ∧ h.isChunked = false

theorem apply_neutral {h : Header} (hn : Neutral h) (f : Framing) : f.apply h = some f := by
  obtain ⟨hcl, hcloses, hkeeps, hchunked⟩ := hn
  simp [Framing.apply, hcl, hcloses, hkeeps, hchunked]

/-- Neutral headers change nothing. -/
theorem foldlM_neutral {hs : List Header} (hn : ∀ h ∈ hs, Neutral h) (f : Framing) :
    hs.foldlM Framing.apply f = some f := by
  induction hs with
  | nil => rfl
  | cons h hs ih =>
    obtain ⟨hh, hn⟩ := forall_mem_cons.mp hn
    rw [foldlM_cons, apply_neutral hh]
    exact ih hn

end ResponseHeaderKV

open ResponseHeaderKV

theorem httpHeaderNameEqCi_eq (key : Str) (lit : String) (name : String)
    (h : (ascii lit).map lower = ascii name) :
    httpHeaderNameEqCi key (ascii lit) = spells key name := by
  have hfold : httpHeaderNameEqCi key (ascii lit) =
      decide (key.map lower = (ascii lit).map lower) := rfl
  rw [hfold, h, spells]

/-- Configurations and the parser agree on what a token is. -/
theorem isHttpTchar_eq : isHttpTchar = kTokenTable := rfl

set_option maxRecDepth 8000 in
theorem value_of_not_control : ∀ c : UInt8,
    (decide (c ≠ 0x09) && (decide (c < 0x20) || decide (c = 0x7f))) = false →
      kHeaderValueTable c = true := by
  apply byte_forall
  decide

/-- A pair that is accepted can be written, and does not interfere with the framing. -/
theorem of_validateResponseHeader {key value : Str} (h : validateResponseHeader key value = .Ok) :
    (mk key value).WellFormed ∧ Neutral (mk key value).parsed ∧
      httpHeaderNameEqCi key (ascii "Content-Length") = false := by
  unfold validateResponseHeader at h
  split at h
  · cases h
  next hne =>
    split at h
    · cases h
    next hkey =>
      split at h
      · cases h
      next hres =>
        split at h
        · cases h
        next hvalue =>
          rw [isReservedResponseHeaderName, Bool.not_eq_true, Bool.or_eq_false_iff,
            Bool.or_eq_false_iff] at hres
          obtain ⟨⟨hcl, hte⟩, hconn⟩ := hres
          refine ⟨⟨hne, ?_, ?_⟩, ?_, hcl⟩
          · intro b hb
            by_contra hbad
            rw [← isHttpTchar_eq] at hbad
            exact hkey (any_eq_true.mpr ⟨b, hb, by simpa using hbad⟩)
          · intro b hb
            apply value_of_not_control
            rw [← Bool.not_eq_true]
            exact fun hbad => hvalue (any_eq_true.mpr ⟨b, hb, hbad⟩)
          · rw [httpHeaderNameEqCi_eq key _ "content-length" (by decide)] at hcl
            rw [httpHeaderNameEqCi_eq key _ "transfer-encoding" (by decide)] at hte
            rw [httpHeaderNameEqCi_eq key _ "connection" (by decide)] at hconn
            simp [Neutral, Header.isContentLength, Header.closes, Header.keeps, Header.isChunked,
              Header.isNamed, parsed, hcl, hte, hconn]

/-! ## Reading a response back -/

def contentLengthHeader (n : Nat) : ResponseHeaderKV :=
  ⟨ascii "Content-Length", writeContentLengthDigits n⟩

def connectionHeader (keepAlive : Bool) : ResponseHeaderKV :=
  ⟨ascii "Connection", ascii (if keepAlive then "keep-alive" else "close")⟩

/-- A response made of a status line, the given lines between those of the runtime, and a body. -/
def responseText (code : UInt16) (headers : List ResponseHeaderKV) (keepAlive : Bool) (body : Str) :
    Str :=
  responseStatusLine code ++
    (((contentLengthHeader body.length :: (headers ++ [connectionHeader keepAlive])).map
      line).flatten ++ cr :: lf :: body)

/-- The parser reads the text as a response with the given parts, the body being all that follows
its head. -/
def ReadsBack (text : Str) (code : UInt16) (keepAlive : Bool) (headers : List Header) (body : Str) :
    Prop :=
  ∃ resp n, HttpResponseParser.parse text = .complete resp n ∧ resp.statusCode = code.toNat ∧
    resp.keepAlive = keepAlive ∧ resp.headers = headers ∧ resp.hasContentLength = true ∧
    resp.chunked = false ∧ resp.contentLength = (text.drop n).length ∧ text.drop n = body

theorem statusReason_cr (code : UInt16) : cr ∉ statusReason code := by
  unfold statusReason
  split <;> decide

variable {code : UInt16}

theorem statusText_line (hlow : 100 ≤ code.toNat) (hhigh : code.toNat ≤ 599) :
    HttpResponseParser.StatusText { statusCode := code.toNat, keepAlive := true }
      (responseStatusLine code) := by
  refine ⟨0x31, [lastDigit (code.toNat / 100), lastDigit (code.toNat / 10), lastDigit code.toNat],
    space :: statusReason code, rfl, ?_, ?_, ?_, rfl⟩
  · have hvalue : code.toNat / 100 % 10 * 100 + code.toNat / 10 % 10 * 10 + code.toNat % 10 =
        code.toNat := by omega
    simp [HttpResponseParser.statusCode, lastDigit_le, toNat_lastDigit, hvalue]
    omega
  · simpa using ⟨by decide, statusReason_cr code⟩
  · have hhttp : ascii "HTTP/1.1 " = ascii "HTTP/1." ++ [0x31, space] := by decide
    simp [responseStatusLine, hhttp, crlf]

set_option maxRecDepth 8000 in
theorem digit_bytes : ∀ b : UInt8, 0x30 ≤ b ∧ b ≤ 0x39 →
    kHeaderValueTable b = true ∧ isOws b = false := by
  apply byte_forall
  decide

theorem trimOws_of_no_ows {value : Str} (h : ∀ b ∈ value, isOws b = false) : trimOws value = value := by
  rw [trimOws, dropWhile_eq_self_iff.mpr, rdropWhile_eq_self_iff.mpr]
  · intro hne
    rw [h _ (getLast_mem hne)]
    exact Bool.false_ne_true
  · intro hpos
    rw [h _ (getElem_mem hpos)]
    exact Bool.false_ne_true

set_option maxRecDepth 8000 in
/-- The length is understood. -/
theorem contentLengthHeader_spec {n : Nat} (hn : n < 2 ^ 32) :
    (contentLengthHeader n).WellFormed ∧
      (contentLengthHeader n).parsed = ⟨ascii "Content-Length", writeContentLengthDigits n⟩ ∧
      ∀ k, Framing.apply { keepAlive := k } (contentLengthHeader n).parsed =
        some { contentLength := n, hasContentLength := true, keepAlive := k } := by
  have hparsed : (contentLengthHeader n).parsed =
      ⟨ascii "Content-Length", writeContentLengthDigits n⟩ := by
    rw [parsed, contentLengthHeader, trimOws_of_no_ows]
    exact fun b hb => (digit_bytes b (digits_byte n b hb)).2
  refine ⟨⟨?_, ?_, ?_⟩, hparsed, ?_⟩
  · show ascii "Content-Length" ≠ []
    decide
  · show ∀ b ∈ ascii "Content-Length", kTokenTable b = true
    exact all_eq_true.mp (by decide)
  · exact fun b hb => (digit_bytes b (digits_byte n b hb)).1
  · intro k
    have hname : (⟨ascii "Content-Length", writeContentLengthDigits n⟩ : Header).isContentLength =
        true := by
      show spells (ascii "Content-Length") "content-length" = true
      decide
    rw [hparsed, Framing.apply, if_pos hname]
    simp only [decimalValue_digits hn]
    exact if_pos ⟨hn, fun h => absurd h Bool.false_ne_true⟩

set_option maxRecDepth 8000 in
theorem connectionHeader_spec (keepAlive : Bool) :
    (connectionHeader keepAlive).WellFormed ∧
      ∀ f : Framing, f.keepAlive = true →
        f.apply (connectionHeader keepAlive).parsed = some { f with keepAlive := keepAlive } := by
  have hflags : (connectionHeader keepAlive).parsed.isContentLength = false ∧
      (connectionHeader keepAlive).parsed.closes = !keepAlive ∧
      (connectionHeader keepAlive).parsed.keeps = keepAlive ∧
      (connectionHeader keepAlive).parsed.isChunked = false := by
    cases keepAlive <;> decide
  obtain ⟨hcl, hcloses, hkeeps, hchunked⟩ := hflags
  refine ⟨?_, fun f hf => ?_⟩
  · cases keepAlive <;>
      exact ⟨by decide, all_eq_true.mp (by decide), all_eq_true.mp (by decide)⟩
  · simp [Framing.apply, hcl, hcloses, hkeeps, hchunked, hf]

variable {body : Str}

/-- A response with few headers that leave the framing alone is read back. -/
theorem readsBack_responseText (hlow : 100 ≤ code.toNat) (hhigh : code.toNat ≤ 599)
    {headers : List ResponseHeaderKV} (hwf : ∀ h ∈ headers, h.WellFormed)
    (hneutral : ∀ h ∈ headers, Neutral h.parsed) (hcount : headers.length + 2 ≤ kMaxHeaders)
    (keepAlive : Bool) (hbody : body.length < 2 ^ 32) :
    ReadsBack (responseText code headers keepAlive body) code keepAlive
      (⟨ascii "Content-Length", writeContentLengthDigits body.length⟩ ::
        (headers.map parsed ++ [(connectionHeader keepAlive).parsed])) body := by
  obtain ⟨hclwf, hclparsed, hclapply⟩ := contentLengthHeader_spec hbody
  obtain ⟨hconnwf, hconnapply⟩ := connectionHeader_spec keepAlive
  generalize hlines : contentLengthHeader body.length :: (headers ++ [connectionHeader keepAlive]) = lines
  have hall : List.Forall₂ HeaderText (lines.map parsed) (lines.map line) := by
    rw [forall₂_map_left_iff, forall₂_map_right_iff, forall₂_same, ← hlines]
    intro h hmem
    rw [mem_cons, mem_append, mem_singleton] at hmem
    rcases hmem with rfl | hmem | rfl
    · exact hclwf.headerText
    · exact (hwf h hmem).headerText
    · exact hconnwf.headerText
  have hfold : (lines.map parsed).foldlM Framing.apply { keepAlive := true } =
      some { contentLength := body.length, hasContentLength := true, keepAlive := keepAlive } := by
    rw [← hlines, map_cons, foldlM_cons, hclapply]
    show ((headers ++ [connectionHeader keepAlive]).map parsed).foldlM Framing.apply _ = _
    rw [map_append, foldlM_append, foldlM_neutral (by simpa using hneutral)]
    show ([(connectionHeader keepAlive).parsed]).foldlM Framing.apply _ = _
    rw [foldlM_cons, hconnapply _ rfl]
    rfl
  have hparse := HttpResponseParser.parse_complete_iff.mpr
    ⟨_, _, _, _, body, _, statusText_line hlow hhigh, hall, rfl, rfl, hfold, rfl⟩
  rw [← hlines, ← responseText, hlines] at hparse
  have hdrop : (responseText code headers keepAlive body).drop
      ((responseStatusLine code).length + (lines.map line).flatten.length + 2) =
        body := by
    have : responseText code headers keepAlive body = responseStatusLine code ++
        (lines.map line).flatten ++ [cr, lf] ++ body := by
      rw [responseText, hlines]
      simp
    rw [this, drop_left' (by simp [Nat.add_assoc])]
  refine ⟨_, _, hparse, rfl, rfl, ?_, rfl, rfl, ?_, hdrop⟩
  · rw [take_of_length_le]
    · rw [← hlines, map_cons, hclparsed, map_append]
      rfl
    · rw [length_map, ← hlines, length_cons, length_append, length_singleton]
      exact hcount
  · rw [hdrop]
    rfl

/-! ## The formatters -/

def defaultContentType : ResponseHeaderKV := ⟨ascii "Content-Type", kDefaultContentType⟩

set_option maxRecDepth 8000 in
theorem defaultContentType_spec : defaultContentType.WellFormed ∧ Neutral defaultContentType.parsed := by
  refine ⟨⟨by decide, all_eq_true.mp (by decide), all_eq_true.mp (by decide)⟩, ?_⟩
  unfold Neutral
  decide

theorem contentLength_line (n : Nat) :
    (contentLengthHeader n).line = ascii "Content-Length: " ++ writeContentLengthDigits n ++ crlf := by
  rfl

theorem connection_line (keepAlive : Bool) :
    (connectionHeader keepAlive).line = connectionLine keepAlive := by
  cases keepAlive <;> decide

set_option maxRecDepth 8000 in
theorem defaultContentType_line :
    defaultContentType.line = ascii "Content-Type: " ++ kDefaultContentType ++ crlf := by
  decide

/-- The formatters all write a `responseText`. -/
theorem formatStaticResponse_eq (code : UInt16) (keepAlive : Bool) :
    formatStaticResponse code keepAlive =
      responseText code [] keepAlive (if noBodyStatus code then [] else statusReason code) := by
  simp only [formatStaticResponse, writeResponseHeaders, responseText, nil_append,
    map_cons, map_nil, flatten_cons, flatten_nil, contentLength_line,
    connection_line, if_true]
  simp [crlf]

theorem formatResponseWithBody_eq (hbody : noBodyStatus code = false) (body : Str)
    (keepAlive : Bool) :
    formatResponseWithBody code body keepAlive =
      responseText code [defaultContentType] keepAlive body := by
  have hne : kDefaultContentType ≠ [] := by decide
  simp only [formatResponseWithBody, hbody, Bool.false_eq_true, if_false, writeResponseHeaders,
    responseText, cons_append, nil_append, map_cons, map_nil, flatten_cons,
    flatten_nil, contentLength_line, connection_line, defaultContentType_line, hne]
  simp [crlf]

/-- The lines between the length and the connection. -/
def customLines (bodyLen : Nat) (headers : List ResponseHeaderKV) (bodyIsFallback : Bool) :
    List ResponseHeaderKV :=
  (if emitDefaultContentType bodyLen headers bodyIsFallback then [defaultContentType] else []) ++
    emittedHeaders headers

theorem responseWithBodyAndHeaders_eq (code : UInt16) (body : Str) (headers : List ResponseHeaderKV)
    (keepAlive bodyIsFallback : Bool) :
    responseWithBodyAndHeaders code body headers keepAlive bodyIsFallback =
      responseText code (customLines body.length headers bodyIsFallback) keepAlive body := by
  simp only [responseWithBodyAndHeaders, responseText, customLines, map_cons, flatten_cons,
    map_append, flatten_append, map_nil, flatten_nil, contentLength_line,
    connection_line, List.flatMap]
  split <;> simp [defaultContentType_line, crlf]

theorem length_status (code : UInt16) :
    (responseStatusLine code).length = 15 + (statusReason code).length := by
  have h : (ascii "HTTP/1.1 ").length = 9 := by decide
  simp only [responseStatusLine, length_append, h, length_cons, length_nil, crlf]
  omega

theorem length_responseText (code : UInt16) (headers : List ResponseHeaderKV) (keepAlive : Bool)
    (body : Str) :
    (responseText code headers keepAlive body).length =
      15 + (statusReason code).length + (16 + (writeContentLengthDigits body.length).length + 2) +
        (headers.map fun h => h.key.length + 2 + h.value.length + 2).sum +
        (if keepAlive then 24 else 19) + 2 + body.length := by
  have hcl : (ascii "Content-Length: ").length = 16 := by decide
  have hsep : (ascii ": ").length = 2 := by decide
  have hconn : (connectionLine keepAlive).length = if keepAlive then 24 else 19 := by
    cases keepAlive <;> decide
  have hlines : (headers.map line).flatten.length =
      (headers.map fun h => h.key.length + 2 + h.value.length + 2).sum := by
    rw [length_flatten, map_map]
    congr 2
    funext h
    simp only [Function.comp_apply, line, length_append, hsep]
    rfl
  simp only [responseText, map_cons, flatten_cons, map_append, flatten_append,
    map_nil, flatten_nil, append_nil, length_append, length_cons,
    contentLength_line, connection_line, length_status, hcl, hconn, hlines, crlf, length_nil]
  omega

/-- The room reckoned with is the room taken. -/
theorem neededBytes_eq (code : UInt16) (hbody : body.length < 10 ^ 10)
    (headers : List ResponseHeaderKV) (keepAlive bodyIsFallback : Bool) :
    neededBytes code body.length headers keepAlive bodyIsFallback =
      (responseWithBodyAndHeaders code body headers keepAlive bodyIsFallback).length := by
  have hct : defaultContentType.key.length + 2 + defaultContentType.value.length + 2 = 41 := by
    decide
  rw [responseWithBodyAndHeaders_eq, length_responseText, neededBytes, decimalDigitCount_eq hbody,
    customLines]
  split <;> simp [hct] <;> omega

/-- A response is too long exactly if the reckoning says so. -/
theorem neededBytes_gt_iff (code : UInt16) (body : Str) (headers : List ResponseHeaderKV)
    (keepAlive bodyIsFallback : Bool) :
    neededBytes code body.length headers keepAlive bodyIsFallback > kSliceSize ↔
      kSliceSize < (responseWithBodyAndHeaders code body headers keepAlive bodyIsFallback).length := by
  by_cases hbody : body.length < 10 ^ 10
  · rw [neededBytes_eq code hbody]
  · -- the body alone is too long
    have hneeded : body.length ≤ neededBytes code body.length headers keepAlive bodyIsFallback := by
      unfold neededBytes
      omega
    have hlen : body.length ≤
        (responseWithBodyAndHeaders code body headers keepAlive bodyIsFallback).length := by
      rw [responseWithBodyAndHeaders_eq, length_responseText]
      omega
    have hsize : kSliceSize < 10 ^ 10 := by decide
    omega

theorem length_statusReason (code : UInt16) : (statusReason code).length ≤ 21 := by
  unfold statusReason
  split <;> decide

theorem length_digits (n : Nat) : (writeContentLengthDigits n).length ≤ 10 := by
  have := length_filter_le (fun t => decide (t ≤ n)) digitThresholds
  have hlen : digitThresholds.length = 9 := rfl
  simp only [writeContentLengthDigits, length_append, length_map, length_singleton]
  omega

theorem readsBack_static (hlow : 100 ≤ code.toNat) (hhigh : code.toNat ≤ 599)
    (keepAlive : Bool) :
    let body := if noBodyStatus code then [] else statusReason code
    (formatStaticResponse code keepAlive).length ≤ kSliceSize ∧
      ReadsBack (formatStaticResponse code keepAlive) code keepAlive
        [⟨ascii "Content-Length", writeContentLengthDigits body.length⟩,
          (connectionHeader keepAlive).parsed] body := by
  intro body
  have hreason := length_statusReason code
  have hbody : body.length ≤ 21 := by
    show (if noBodyStatus code then [] else statusReason code).length ≤ 21
    split
    · exact Nat.zero_le _
    · exact hreason
  rw [formatStaticResponse_eq]
  change (responseText code [] keepAlive body).length ≤ kSliceSize ∧
    ReadsBack (responseText code [] keepAlive body) code keepAlive _ body
  refine ⟨?_, readsBack_responseText hlow hhigh (by simp) (by simp) (by decide) keepAlive
    (Nat.lt_of_le_of_lt hbody (by decide))⟩
  have hdigits := length_digits body.length
  have hsize : kSliceSize = 16384 := rfl
  rw [length_responseText, map_nil, sum_nil]
  split <;> omega

theorem readsBack_withBody (hlow : 100 ≤ code.toNat) (hhigh : code.toNat ≤ 599)
    (hbody : body.length ≤ RouteConfig.kResponseBodyPoolBytes) (keepAlive : Bool) :
    (formatResponseWithBody code body keepAlive).length ≤ kSliceSize ∧
      ∃ headers, ReadsBack (formatResponseWithBody code body keepAlive) code keepAlive headers
        (if noBodyStatus code then [] else body) := by
  cases hno : noBodyStatus code with
  | true =>
    obtain ⟨hlen, hback⟩ := readsBack_static hlow hhigh keepAlive
    simp only [hno, if_true] at hback
    rw [formatResponseWithBody, if_pos hno]
    exact ⟨hlen, _, hback⟩
  | false =>
    have hpool : RouteConfig.kResponseBodyPoolBytes = 8192 := rfl
    rw [formatResponseWithBody_eq hno]
    refine ⟨?_, _, readsBack_responseText hlow hhigh ?_ ?_ (by decide) keepAlive (by omega)⟩
    · have hreason := length_statusReason code
      have hdigits := length_digits body.length
      have hct : defaultContentType.key.length + 2 + defaultContentType.value.length + 2 = 41 := by
        decide
      have hsize : kSliceSize = 16384 := rfl
      rw [length_responseText, map_singleton, sum_singleton, hct]
      split <;> omega
    · simpa using defaultContentType_spec.1
    · simpa using defaultContentType_spec.2

theorem emittedHeaders_of_valid {pairs : List (Str × Str)}
    (hvalid : ∀ p ∈ pairs, validateResponseHeader p.1 p.2 = .Ok) :
    emittedHeaders (pairs.map fun p => ⟨p.1, p.2⟩) = pairs.map fun p => ⟨p.1, p.2⟩ := by
  rw [emittedHeaders, filter_eq_self]
  intro h hmem
  obtain ⟨p, hp, rfl⟩ := mem_map.mp hmem
  rw [(of_validateResponseHeader (hvalid p hp)).2.2]
  rfl

/-- A response with custom headers. -/
theorem readsBack_withHeaders (hlow : 100 ≤ code.toNat) (hhigh : code.toNat ≤ 599)
    {pairs : List (Str × Str)} (hcount : pairs.length ≤ RouteConfig.kMaxHeadersPerSet)
    (hvalid : ∀ p ∈ pairs, validateResponseHeader p.1 p.2 = .Ok)
    (hbody : body.length < 2 ^ 32) (keepAlive fallback : Bool) :
    let headers := pairs.map fun p => mk p.1 p.2
    ReadsBack (responseWithBodyAndHeaders code body headers keepAlive fallback) code keepAlive
      (⟨ascii "Content-Length", writeContentLengthDigits body.length⟩ ::
        ((if emitDefaultContentType body.length headers fallback then
          [⟨ascii "Content-Type", kDefaultContentType⟩] else []) ++
        (pairs.map fun p => ⟨p.1, trimOws p.2⟩) ++ [(connectionHeader keepAlive).parsed])) body := by
  intro headers
  have hct : defaultContentType.parsed = ⟨ascii "Content-Type", kDefaultContentType⟩ := by decide
  have hlines : ∀ {P : ResponseHeaderKV → Prop}, P defaultContentType → (∀ p ∈ pairs, P ⟨p.1, p.2⟩) →
      ∀ h ∈ customLines body.length headers fallback, P h := by
    intro P hdef hpairs h hmem
    rw [customLines, emittedHeaders_of_valid hvalid, mem_append] at hmem
    rcases hmem with hmem | hmem
    · split at hmem
      · rw [mem_singleton.mp hmem]
        exact hdef
      · cases hmem
    · obtain ⟨p, hp, rfl⟩ := mem_map.mp hmem
      exact hpairs p hp
  have hback := readsBack_responseText hlow hhigh
    (hlines defaultContentType_spec.1 fun p hp => (of_validateResponseHeader (hvalid p hp)).1)
    (hlines defaultContentType_spec.2 fun p hp => (of_validateResponseHeader (hvalid p hp)).2.1)
    (by
      have hmax : RouteConfig.kMaxHeadersPerSet = 32 := rfl
      have hroom : kMaxHeaders = 64 := rfl
      rw [customLines, emittedHeaders_of_valid hvalid, length_append, length_map]
      split <;> simp only [length_cons, length_nil] <;> omega) keepAlive hbody
  rw [responseWithBodyAndHeaders_eq]
  rw [customLines, emittedHeaders_of_valid hvalid, map_append, map_map] at hback
  rw [customLines, emittedHeaders_of_valid hvalid]
  have hmap : (if emitDefaultContentType body.length headers fallback = true then
      [defaultContentType] else []).map parsed =
      if emitDefaultContentType body.length headers fallback = true then
        [⟨ascii "Content-Type", kDefaultContentType⟩] else [] := by
    split
    · rw [map_singleton, hct]
    · rfl
  rw [hmap] at hback
  exact hback

/-- Whatever the formatters write into the send buffer fits into it and is read back with the status,
the flag, the custom headers and the body that were asked for. A response with headers that would not
fit is replaced by a response 500 that closes the connection. -/
theorem format_parses :
    (∀ cfg cfg' idx pairs code body keepAlive fallback,
      RouteConfig.addResponseHeaderSet cfg pairs = some (cfg', idx) →
      100 ≤ UInt16.toNat code → code.toNat ≤ 599 →
      let headers := pairs.map fun p => mk p.1 p.2
      let emitted := if noBodyStatus code then [] else body
      let full := responseWithBodyAndHeaders code emitted headers keepAlive fallback
      let out := formatResponseWithBodyAndHeaders code body headers keepAlive fallback
      (full.length ≤ kSliceSize →
        out = ⟨full, code, keepAlive⟩ ∧
        ReadsBack full code keepAlive
          (⟨ascii "Content-Length", writeContentLengthDigits emitted.length⟩ ::
            ((if emitDefaultContentType emitted.length headers fallback then
              [⟨ascii "Content-Type", kDefaultContentType⟩] else []) ++
            (pairs.map fun p => ⟨p.1, trimOws p.2⟩) ++ [(connectionHeader keepAlive).parsed]))
          emitted) ∧
      (kSliceSize < full.length →
        out.status = 500 ∧ out.keepAlive = false ∧ out.text.length ≤ kSliceSize ∧
        ReadsBack out.text 500 false
          [⟨ascii "Content-Length", ascii "21"⟩, (connectionHeader false).parsed]
          (ascii "Internal Server Error"))) ∧
    (∀ cfg cfg' idx code body keepAlive,
      RouteConfig.addResponseBody cfg body = some (cfg', idx) →
      100 ≤ UInt16.toNat code → code.toNat ≤ 599 →
      (formatResponseWithBody code body keepAlive).length ≤ kSliceSize ∧
        ∃ headers, ReadsBack (formatResponseWithBody code body keepAlive) code keepAlive headers
          (if noBodyStatus code then [] else body)) ∧
    ∀ code keepAlive, 100 ≤ UInt16.toNat code → code.toNat ≤ 599 →
      (formatStaticResponse code keepAlive).length ≤ kSliceSize ∧
        ∃ headers, ReadsBack (formatStaticResponse code keepAlive) code keepAlive headers
          (if noBodyStatus code then [] else statusReason code) := by
  refine ⟨?_, ?_, ?_⟩
  · intro cfg cfg' idx pairs code body keepAlive fallback hadd hlow hhigh headers emitted full out
    obtain ⟨hcount, hvalid⟩ := RouteConfig.of_addResponseHeaderSet hadd
    have hiff := neededBytes_gt_iff code emitted headers keepAlive fallback
    constructor
    · intro hfits
      have hbody : emitted.length < 2 ^ 32 := by
        have hle : emitted.length ≤ full.length := by
          show emitted.length ≤ (responseWithBodyAndHeaders code emitted headers keepAlive fallback).length
          rw [responseWithBodyAndHeaders_eq, length_responseText]
          omega
        have hsize : kSliceSize = 16384 := rfl
        omega
      refine ⟨?_, readsBack_withHeaders hlow hhigh hcount hvalid hbody keepAlive fallback⟩
      exact if_neg (fun h => Nat.not_lt.mpr hfits (hiff.mp h))
    · intro hlong
      have hout : out = ⟨formatStaticResponse 500 false, 500, false⟩ := if_pos (hiff.mpr hlong)
      obtain ⟨hlen, hback⟩ := @readsBack_static 500 (by decide) (by decide) false
      rw [hout]
      exact ⟨rfl, rfl, hlen, hback⟩
  · intro cfg cfg' idx code body keepAlive hadd hlow hhigh
    exact readsBack_withBody hlow hhigh (RouteConfig.length_le_of_addResponseBody hadd) keepAlive
  · intro code keepAlive hlow hhigh
    obtain ⟨hlen, hback⟩ := readsBack_static hlow hhigh keepAlive
    exact ⟨hlen, _, hback⟩

theorem format_parses_custom_header :
    ∃ cfg' idx,
      RouteConfig.addResponseHeaderSet {} [(ascii "X-A", ascii " b ")] = some (cfg', idx) ∧
      ReadsBack
        (responseWithBodyAndHeaders 200 (ascii "hi") [⟨ascii "X-A", ascii " b "⟩] true false) 200 true
        [⟨ascii "Content-Length", ascii "2"⟩, ⟨ascii "Content-Type", kDefaultContentType⟩,
          ⟨ascii "X-A", ascii "b"⟩, ⟨ascii "Connection", ascii "keep-alive"⟩] (ascii "hi") :=
  ⟨_, _, rfl, ((format_parses.1 {} _ _ [(ascii "X-A", ascii " b ")] 200 (ascii "hi") true false rfl
    (by decide) (by decide)).1 (by decide)).2⟩

end Rut
