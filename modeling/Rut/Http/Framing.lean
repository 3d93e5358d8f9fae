import Rut.Http.Grammar
import Rut.Lib.Splitting

/-!
# What header lines mean

The header lines that the parsers interpret, in terms of the grammar and not of the scan: names and
tokens up to case, numbers in decimal. `Framing` is what a head says about its body and its
connection, and `Framing.apply` what one line adds to it.

Both parsers refine this (`HttpParser.foldlM_storeHeader`, `HttpResponseParser.foldlM_storeHeader`);
what the lines of a head come to is then read off the fold (`foldlM_apply`).
-/

namespace Rut

open Lib.Incremental List Header

/-! ## Names up to case -/

def lower (c : UInt8) : UInt8 := if 0x41 ≤ c ∧ c ≤ 0x5a then c + 0x20 else c

/-- The text spells a lower-case name, in any case. -/
def spells (text : Str) (name : String) : Bool := text.map lower = ascii name

/-- The bytes of the names that the parsers look for. -/
def nameBytes : Str := ascii "abcdefghijklmnopqrstuvwxyz-"

/-- A fact about bytes, from a table of them. -/
theorem byte_forall {P : UInt8 → Prop} (h : ∀ i : Fin 256, P (UInt8.ofNat i.val)) (b : UInt8) :
    P b := by
  have := h ⟨b.toNat, b.toNat_lt⟩
  rwa [UInt8.ofNat_toNat] at this

def parserNames : List String :=
  ["content-length", "connection", "transfer-encoding", "close", "keep-alive", "chunked"]

theorem mem_nameBytes : ∀ name ∈ parserNames, ∀ b ∈ ascii name, b ∈ nameBytes := by
  have hall : (parserNames.all fun name => (ascii name).all (nameBytes.contains ·)) = true := by
    decide +kernel
  intro name hname b hb
  rw [all_eq_true] at hall
  exact contains_iff_mem.mp (all_eq_true.mp (hall name hname) b hb)

/-- Where setting bit 5 is not lowering the case, neither gives a byte of a name. -/
theorem or_bit5_cases : ∀ x : UInt8, x ≠ cr → x ||| 0x20 = lower x ∨
    (x ||| 0x20 < 0x61 ∧ x ||| 0x20 ≠ 0x2d ∨ 0x7a < x ||| 0x20) ∧
      (lower x < 0x61 ∧ lower x ≠ 0x2d ∨ 0x7a < lower x) := by
  apply byte_forall
  decide +kernel

set_option maxRecDepth 4000 in
theorem or_bit5_eq_iff {y : UInt8} (hy : y ∈ nameBytes) (x : UInt8) (hx : x ≠ cr) :
    x ||| 0x20 = y ||| 0x20 ↔ lower x = y := by
  have hall : (nameBytes.all fun y => y ||| 0x20 = y ∧ (0x61 ≤ y ∧ y ≤ 0x7a ∨ y = 0x2d)) = true := by
    decide
  obtain ⟨hbit, hrange⟩ := of_decide_eq_true (all_eq_true.mp hall y hy)
  rw [hbit]
  rcases or_bit5_cases x hx with h | ⟨hor, hlower⟩
  · rw [h]
  · refine iff_of_false ?_ ?_
    · rintro rfl
      grind
    · rintro rfl
      grind

/-- Ignoring bit 5 is ignoring the case, as long as there is no `cr`, which would pass for `'-'`. -/
theorem strCiEq_iff {text lit : Str} (hlit : ∀ b ∈ lit, b ∈ nameBytes) (htext : cr ∉ text) :
    strCiEq text lit = true ↔ text.map lower = lit := by
  rw [strCiEq, decide_eq_true_eq]
  induction text generalizing lit with
  | nil => cases lit <;> simp
  | cons x text ih =>
    cases lit with
    | nil => simp
    | cons y lit =>
      obtain ⟨hy, hlit⟩ := forall_mem_cons.mp hlit
      rw [mem_cons, not_or] at htext
      rw [map_cons, map_cons, List.cons.injEq, map_cons, List.cons.injEq,
        ih hlit htext.2, or_bit5_eq_iff hy x (Ne.symm htext.1)]

/-- The trick with bit 5 is right for these names. -/
theorem strCiEq_eq_spells {text : Str} {name : String} (hname : ∀ b ∈ ascii name, b ∈ nameBytes)
    (htext : cr ∉ text) : strCiEq text (ascii name) = spells text name := by
  rw [Bool.eq_iff_iff, strCiEq_iff hname htext, spells, decide_eq_true_eq]

/-! ## Decimal numbers -/

/-- The number that decimal digits continue, if they are digits. -/
def decimalLoop (acc : Nat) : Str → Option Nat
  | [] => some acc
  | b :: rest =>
    if 0x30 ≤ b ∧ b ≤ 0x39 then decimalLoop (acc * 10 + (b.toNat - 0x30)) rest else none

/-- The number written in decimal, however large. -/
def decimalValue (digits : Str) : Option Nat := if digits = [] then none else decimalLoop 0 digits

theorem le_decimalLoop {acc n : Nat} {digits : Str} (h : decimalLoop acc digits = some n) :
    acc ≤ n := by
  induction digits generalizing acc with
  | nil => exact (Option.some.inj h).le
  | cons b rest ih =>
    rw [decimalLoop] at h
    split at h
    · have := ih h
      omega
    · cases h

theorem parseUintLoop_eq_some_iff {acc n : Nat} {digits : Str} (hacc : acc < 2 ^ 32) :
    parseUintLoop acc digits = some n ↔ decimalLoop acc digits = some n ∧ n < 2 ^ 32 := by
  induction digits generalizing acc with
  | nil =>
    refine ⟨fun h => ⟨h, ?_⟩, fun h => h.1⟩
    cases h
    exact hacc
  | cons b rest ih =>
    by_cases hb : 0x30 ≤ b ∧ b ≤ 0x39
    · have hnot : ¬ ((decide (b < 0x30) || decide (0x39 < b)) = true) := by
        simpa using hb
      have hle : b.toNat ≤ 0x39 := UInt8.le_iff_toNat_le.mp hb.2
      rw [parseUintLoop, decimalLoop, if_neg hnot, if_pos hb]
      dsimp only
      split
      · next hbig =>
        -- the number is too large already, and digits only make it larger
        refine ⟨fun h => (nomatch h), fun ⟨h, hn⟩ => ?_⟩
        have := le_decimalLoop h
        omega
      · next hsmall => exact ih (by omega)
    · have hbad : (decide (b < 0x30) || decide (0x39 < b)) = true := by
        by_contra hnot
        simp at hnot
        exact hb hnot
      rw [parseUintLoop, decimalLoop, if_pos hbad, if_neg hb]
      simp

/-- Numbers are decimal and below `2 ^ 32`. -/
theorem parseUint_eq_some_iff {digits : Str} {n : Nat} :
    parseUint digits = some n ↔ decimalValue digits = some n ∧ n < 2 ^ 32 := by
  unfold parseUint decimalValue
  split
  · simp
  · exact parseUintLoop_eq_some_iff (by decide)

/-! ## Lines -/

def Header.isNamed (h : Header) (name : String) : Bool := spells h.name name

def Header.hasToken (h : Header) (tok : String) : Bool := (valueTokens h.value).any (spells · tok)

def Header.closes (h : Header) : Bool := h.isNamed "connection" && h.hasToken "close"

def Header.keeps (h : Header) : Bool := h.isNamed "connection" && h.hasToken "keep-alive"

def Header.isContentLength (h : Header) : Bool := h.isNamed "content-length"

def Header.isChunked (h : Header) : Bool := h.isNamed "transfer-encoding" && h.hasToken "chunked"

/-- What a head says about the body that follows and about the connection. -/
structure Framing where
  contentLength : Nat := 0
  hasContentLength : Bool := false
  chunked : Bool := false
  keepAlive : Bool
deriving DecidableEq, Repr

variable {h : Header} {hs : List Header}

namespace Framing

/-- One more line; `none` if it cannot be accepted. -/
def apply (f : Framing) (h : Header) : Option Framing :=
  if h.isContentLength then
    match decimalValue h.value with
    | none => none
    | some n =>
      if n < 2 ^ 32 ∧ (f.hasContentLength → f.contentLength = n) then
        some { f with contentLength := n, hasContentLength := true }
      else none
  else some { f with
    chunked := f.chunked || h.isChunked, keepAlive := !h.closes && (f.keepAlive || h.keeps) }

/-- What the lines of a head come to. -/
structure Summary (f : Framing) (hs : List Header) (f' : Framing) : Prop where
  keepAlive : f'.keepAlive = hs.foldl (fun k h => !h.closes && (k || h.keeps)) f.keepAlive
  chunked : f'.chunked = (f.chunked || hs.any isChunked)
  hasContentLength : f'.hasContentLength = (f.hasContentLength || hs.any isContentLength)
  contentLength : ∀ h ∈ hs, h.isContentLength = true →
    decimalValue h.value = some f'.contentLength ∧ f'.contentLength < 2 ^ 32
  kept : f.hasContentLength = true ∨ hs.any isContentLength = false →
    f'.contentLength = f.contentLength

theorem isNamed_ne {a b : String} (hab : ascii a ≠ ascii b) (ha : h.isNamed a = true) :
    h.isNamed b = false := by
  unfold isNamed spells at *
  rw [decide_eq_true_eq] at ha
  rw [decide_eq_false_iff_not, ha]
  exact hab

/-- A `Content-Length` line is neither of the other two. -/
theorem contentLength_only (hname : h.isContentLength = true) :
    h.closes = false ∧ h.keeps = false ∧ h.isChunked = false := by
  have hconn := isNamed_ne (b := "connection") (by decide) hname
  have hte := isNamed_ne (b := "transfer-encoding") (by decide) hname
  simp [closes, keeps, isChunked, hconn, hte]

/-- What all lines come to. -/
theorem foldlM_apply {f f' : Framing} (h : hs.foldlM apply f = some f') :
    Summary f hs f' := by
  induction hs generalizing f with
  | nil =>
    cases h
    exact ⟨rfl, by simp, by simp, by simp, fun _ => rfl⟩
  | cons x hs ih =>
    obtain ⟨f₁, hx, h⟩ := Option.bind_eq_some_iff.mp h
    obtain ⟨hka, hch, hcl, hval, hkept⟩ := ih h
    rw [apply] at hx
    split at hx
    · next hname =>
      obtain ⟨hcloses, hkeeps, hchunked⟩ := contentLength_only hname
      split at hx
      · cases hx
      · next n hn =>
        split at hx
        · next hok =>
          cases hx
          have hfix := hkept (.inl rfl)
          refine ⟨by simpa [hcloses, hkeeps] using hka, by simpa [hchunked] using hch,
            by simpa [hname] using hcl, ?_, ?_⟩
          · intro y hy hyname
            rcases mem_cons.mp hy with rfl | hy
            · rw [hfix]
              exact ⟨hn, hok.1⟩
            · exact hval y hy hyname
          · rintro (hhas | hany)
            · rw [hfix]
              exact (hok.2 hhas).symm
            · simp [hname] at hany
        · cases hx
    · next hname =>
      cases hx
      refine ⟨by simpa using hka, by simpa [Bool.or_assoc] using hch,
        by simpa [hname] using hcl, ?_, ?_⟩
      · intro y hy hyname
        rcases mem_cons.mp hy with rfl | hy
        · exact absurd hyname hname
        · exact hval y hy hyname
      · intro hcond
        exact hkept (hcond.imp_right fun hany => by simpa [hname] using hany)

end Framing

/-! ## The parsers refine it -/

theorem Header.WellFormed.cr_not_mem (hwf : h.WellFormed) :
    cr ∉ h.name ∧ cr ∉ h.value :=
  ⟨fun hmem => absurd (hwf.name_token cr hmem) (by decide),
    fun hmem => absurd (hwf.value_byte cr hmem) (by decide)⟩

theorem Header.WellFormed.strCiEq_name (hwf : h.WellFormed) {name : String}
    (hname : name ∈ parserNames) : strCiEq h.name (ascii name) = h.isNamed name :=
  strCiEq_eq_spells (mem_nameBytes name hname) hwf.cr_not_mem.1

theorem Header.WellFormed.any_strCiEq (hwf : h.WellFormed) {name : String}
    (hname : name ∈ parserNames) :
    (valueTokens h.value).any (strCiEq · (ascii name)) = h.hasToken name := by
  have htok : ∀ tok ∈ valueTokens h.value, strCiEq tok (ascii name) = spells tok name := by
    intro tok htok
    apply strCiEq_eq_spells (mem_nameBytes name hname)
    intro hmem
    exact hwf.cr_not_mem.2 ((Lib.Splitting.infix_of_mem_splitOnP (mem_of_mem_filter htok)).subset hmem)
  rw [hasToken, Bool.eq_iff_iff, any_eq_true, any_eq_true]
  refine exists_congr fun tok => and_congr_right fun hmem => ?_
  rw [htok tok hmem]

namespace HttpParser

theorem matchConnection_eq (toks : List Str) (k : Bool) :
    matchConnection toks k = (!toks.any (strCiEq · (ascii "close")) &&
      (k || toks.any (strCiEq · (ascii "keep-alive")))) := by
  induction toks generalizing k with
  | nil => simp [matchConnection]
  | cons tok toks ih =>
    rw [matchConnection]
    split
    · next h => simp [h]
    · next h =>
      rw [Bool.not_eq_true] at h
      rw [ih, any_cons, any_cons, h, Bool.false_or, Bool.or_comm (strCiEq tok _),
        Bool.or_assoc]

end HttpParser

namespace HttpResponseParser

/-- The first flag of a response is the one of a request. -/
theorem matchConnection_eq (toks : List Str) (flags : Bool × Bool) :
    matchConnection toks flags = (HttpParser.matchConnection toks flags.1,
      flags.2 || toks.any (strCiEq · (ascii "close"))) := by
  induction toks generalizing flags with
  | nil => simp [matchConnection, HttpParser.matchConnection]
  | cons tok toks ih =>
    rw [matchConnection, HttpParser.matchConnection, any_cons]
    split
    · next h => simp [h]
    · next h =>
      rw [Bool.not_eq_true] at h
      rw [ih, h, Bool.false_or]

end HttpResponseParser

/-- What a parser does with a line, its framing alone. -/
theorem Framing.apply_eq (f : Framing) (hwf : h.WellFormed) :
    f.apply h =
      if strCiEq h.name (ascii "content-length") then
        match parseUint h.value with
        | none => none
        | some n =>
          if f.hasContentLength then if f.contentLength ≠ n then none else some f
          else some { f with contentLength := n, hasContentLength := true }
      else if strCiEq h.name (ascii "connection") then
        some { f with keepAlive := HttpParser.matchConnection (valueTokens h.value) f.keepAlive }
      else if strCiEq h.name (ascii "transfer-encoding") then
        some { f with
          chunked := f.chunked || (valueTokens h.value).any (strCiEq · (ascii "chunked")) }
      else some f := by
  rw [hwf.strCiEq_name (by simp [parserNames]), hwf.strCiEq_name (by simp [parserNames]),
    hwf.strCiEq_name (by simp [parserNames]), HttpParser.matchConnection_eq,
    hwf.any_strCiEq (by simp [parserNames]), hwf.any_strCiEq (by simp [parserNames]),
    hwf.any_strCiEq (by simp [parserNames]), Framing.apply, isContentLength]
  split
  · cases hp : parseUint h.value with
    | none =>
      -- not a number, or one that does not fit
      cases hd : decimalValue h.value with
      | none => rfl
      | some n =>
        have hbig : ¬ n < 2 ^ 32 := fun hn => by
          have := parseUint_eq_some_iff.mpr ⟨hd, hn⟩
          rw [hp] at this
          cases this
        exact if_neg fun h => hbig h.1
    | some n =>
      obtain ⟨hd, hn⟩ := parseUint_eq_some_iff.mp hp
      obtain ⟨c, has, ch, k⟩ := f
      cases has with
      | false =>
        simp only [hd, Bool.false_eq_true, false_imp_iff, and_true, if_pos hn, if_false]
      | true =>
        by_cases hc : c = n
        · simp only [hd, hc, imp_true_iff, and_true, if_pos hn, ne_eq, not_true_eq_false, if_true,
            if_false]
        · simp only [hd, if_true, if_pos hc]
          exact if_neg fun h => hc (h.2 trivial)
  · next hcl =>
    by_cases hconn : h.isNamed "connection" = true
    · have hte := Framing.isNamed_ne (b := "transfer-encoding") (by decide) hconn
      simp [closes, keeps, isChunked, hconn, hte]
    · by_cases hte : h.isNamed "transfer-encoding" = true
      · simp [closes, keeps, isChunked, hconn, hte]
      · simp [closes, keeps, isChunked, hconn, hte]

def ParsedRequest.framing (req : ParsedRequest) : Framing :=
  { contentLength := req.contentLength, hasContentLength := req.hasContentLength
    chunked := req.chunked, keepAlive := req.keepAlive }

def ParsedRequest.withFraming (req : ParsedRequest) (f : Framing) : ParsedRequest :=
  { req with
    contentLength := f.contentLength, hasContentLength := f.hasContentLength
    chunked := f.chunked, keepAlive := f.keepAlive }

def ParsedResponse.framing (resp : ParsedResponse) : Framing :=
  { contentLength := resp.contentLength, hasContentLength := resp.hasContentLength
    chunked := resp.chunked, keepAlive := resp.keepAlive }

def ParsedResponse.withFraming (resp : ParsedResponse) (f : Framing) : ParsedResponse :=
  { resp with
    contentLength := f.contentLength, hasContentLength := f.hasContentLength
    chunked := f.chunked, keepAlive := f.keepAlive }

namespace HttpParser

theorem applySemanticHeader_eq (hwf : h.WellFormed) (req : ParsedRequest) :
    applySemanticHeader h req = (req.framing.apply h).map req.withFraming := by
  rw [Framing.apply_eq _ hwf, applySemanticHeader]
  split
  · cases parseUint h.value with
    | none => rfl
    | some n =>
      rw [apply_ite (Option.map req.withFraming), apply_ite (Option.map req.withFraming)]
      rfl
  · split
    · rfl
    · split <;> rfl

/-- All lines of a request are stored, and there is room for them. -/
theorem foldlM_storeHeader (hwf : ∀ h ∈ hs, h.WellFormed)
    {req req' : ParsedRequest} (hroom : req.headers.length ≤ kMaxHeaders)
    (h : hs.foldlM storeHeader req = some req') :
    ∃ f, hs.foldlM Framing.apply req.framing = some f ∧
      req' = { req.withFraming f with headers := req.headers ++ hs } ∧
      req.headers.length + hs.length ≤ kMaxHeaders := by
  induction hs generalizing req with
  | nil =>
    cases h
    exact ⟨_, rfl, by simp [ParsedRequest.withFraming, ParsedRequest.framing], hroom⟩
  | cons x hs ih =>
    obtain ⟨hx, hwf⟩ := forall_mem_cons.mp hwf
    obtain ⟨req₁, hstore, h⟩ := Option.bind_eq_some_iff.mp h
    rw [storeHeader] at hstore
    split at hstore
    · cases hstore
    · next hlen =>
      rw [applySemanticHeader_eq hx] at hstore
      obtain ⟨f, hf, rfl⟩ := Option.map_eq_some_iff.mp hstore
      obtain ⟨f', hf', rfl, hroom'⟩ := ih hwf (by
        simp only [ParsedRequest.withFraming, length_append, length_singleton]
        omega) h
      refine ⟨f', ?_, ?_, ?_⟩
      · exact Option.bind_eq_some_iff.mpr ⟨f, hf, hf'⟩
      · simp [ParsedRequest.withFraming]
      · simp only [ParsedRequest.withFraming, length_append, length_singleton] at hroom'
        rw [length_cons]
        omega

end HttpParser

theorem take_take_append {α : Type} (xs ys : List α) (n : Nat) :
    (xs.take n ++ ys).take n = (xs ++ ys).take n := by
  rw [take_append, take_append, take_take, Nat.min_self, length_take]
  congr 2
  omega

namespace HttpResponseParser

theorem applySemanticHeader_eq (hwf : h.WellFormed) (resp : ParsedResponse) :
    applySemanticHeader h resp = (resp.framing.apply h).map fun f =>
      { resp.withFraming f with connectionClose := resp.connectionClose || h.closes } := by
  rw [applySemanticHeader]
  generalize hg : (fun f => ({ resp.withFraming f with
      connectionClose := resp.connectionClose || h.closes } : ParsedResponse)) = g
  rw [Framing.apply_eq _ hwf]
  split
  · next hcl =>
    rw [hwf.strCiEq_name (by simp [parserNames])] at hcl
    have hcloses := (Framing.contentLength_only hcl).1
    cases parseUint h.value with
    | none => rfl
    | some n =>
      rw [apply_ite (Option.map g), apply_ite (Option.map g)]
      subst hg
      simp only [hcloses, Bool.or_false]
      rfl
  · split
    · next hconn =>
      subst hg
      rw [matchConnection_eq, hwf.any_strCiEq (by simp [parserNames])]
      rw [hwf.strCiEq_name (by simp [parserNames])] at hconn
      simp only [closes, hconn, Bool.true_and, Option.map_some]
      rfl
    · next hconn =>
      rw [hwf.strCiEq_name (by simp [parserNames])] at hconn
      subst hg
      simp only [closes, hconn, Bool.false_and, Bool.or_false]
      split <;> rfl

/-- All lines of a response count, and as many as there is room for are stored. -/
theorem foldlM_storeHeader (hwf : ∀ h ∈ hs, h.WellFormed)
    {resp : ParsedResponse} (hroom : resp.headers.length ≤ kMaxHeaders) :
    hs.foldlM storeHeader resp = (hs.foldlM Framing.apply resp.framing).map fun f =>
      { resp.withFraming f with
        headers := (resp.headers ++ hs).take kMaxHeaders
        connectionClose := resp.connectionClose || hs.any closes } := by
  induction hs generalizing resp with
  | nil =>
    rw [foldlM_nil, foldlM_nil, append_nil, take_of_length_le hroom]
    simp [ParsedResponse.withFraming, ParsedResponse.framing, pure]
  | cons x hs ih =>
    obtain ⟨hx, hwf⟩ := forall_mem_cons.mp hwf
    have hstored : (if resp.headers.length < kMaxHeaders then
        { resp with headers := resp.headers ++ [x] } else resp) =
        { resp with headers := (resp.headers ++ [x]).take kMaxHeaders } := by
      split
      · next hlt => rw [take_of_length_le (by rw [length_append]; exact hlt)]
      · next hge => rw [take_append_of_le_length (by omega), take_of_length_le hroom]
    have htake : ((resp.headers ++ [x]).take kMaxHeaders ++ hs).take kMaxHeaders =
        (resp.headers ++ x :: hs).take kMaxHeaders := by
      rw [take_take_append, append_assoc]
      rfl
    rw [foldlM_cons, foldlM_cons, storeHeader, applySemanticHeader_eq hx, hstored]
    change ((resp.framing.apply x).map _ >>= _) = _
    cases resp.framing.apply x with
    | none => rfl
    | some f =>
      refine (ih hwf (length_take_le ..)).trans ?_
      simp only [ParsedResponse.withFraming, htake, any_cons, Bool.or_assoc]
      rfl

end HttpResponseParser

end Rut
