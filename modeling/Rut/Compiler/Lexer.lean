import Rut.Compiler.Rir
import Rut.Lib.Splitting
import Rut.Route.Basic

/-!
# The lexer

`lexer.cc` as it reads a source text: a cursor with the position, the line and the column it has
counted, and one branch for each kind of token. The three counters are natural numbers. In the source
they are 32 bits wide, like the length of the text, and none counts further than one past it: they
agree for every text shorter than 2^32 - 1 bytes.

    Skips cur cur'        a blank or a line comment
    Reads cur tok cur'    a token, with the delimiters of a literal around its text
    Lexes cur tokens      what the loop makes of the rest of the text

Where a token lies follows from `Lexes` alone. So does when its line and its column are right: the
lexer does not see a newline that is escaped in a literal, and every token behind one is a line off.
Which bytes of a text stand in a literal is said by `Place`, without the lexer.
-/

namespace Rut.Compiler.Lexer

open Lib.Splitting List

/-- `TokenType`, as far as the lexer makes tokens of it. -/
inductive TokenType where
  | ident | stringLit | intLit | durLit | regexLit
  | kwFunc | kwLet | kwConst | kwGuard | kwCase | kwError | kwProtocol | kwImpl | kwImport
  | kwPackage | kwUsing | kwAs | kwWhere | kwVariant | kwStruct | kwMatch | kwIf | kwElse | kwFor
  | kwIn | kwOr | kwNil | kwUpstream | kwDownstream | kwRoute | kwReturn | kwForward | kwWait
  | kwTrue | kwFalse
  | kwGet | kwPost | kwPut | kwDelete | kwPatch | kwHead | kwOptions
  | lParen | rParen | lBrace | rBrace | lBracket | rBracket | colon | comma | dot | arrow
  | thinArrow | eq | eqEq | lt | gt | star | pipe | at | underscore
  | eof
deriving DecidableEq, Repr

/-- `Token`; `stop` is the field `end`. -/
structure Token where
  type : TokenType
  text : Str
  start : Nat
  stop : Nat
  line : Nat
  col : Nat
deriving DecidableEq, Repr

structure SourceSpan where
  start : Nat
  stop : Nat
  line : Nat
  col : Nat
deriving DecidableEq, Repr

structure Diagnostic where
  code : FrontendError
  span : SourceSpan
  detail : Str := []
deriving DecidableEq, Repr

def kMaxTokens : Nat := 512

def byte (c : Char) : UInt8 := UInt8.ofNat c.toNat

def newline : UInt8 := byte '\n'

def quote : UInt8 := byte '"'

def backslash : UInt8 := byte '\\'

def isSpace (c : UInt8) : Bool := c = byte ' ' || c = byte '\t' || c = byte '\r' || c = newline

def isDigit (c : UInt8) : Bool := byte '0' ≤ c && c ≤ byte '9'

def isIdentStart (c : UInt8) : Bool :=
  (byte 'a' ≤ c && c ≤ byte 'z') || (byte 'A' ≤ c && c ≤ byte 'Z') || c = byte '_'

def isIdentContinue (c : UInt8) : Bool := isIdentStart c || isDigit c

/-- The comparisons of `keyword_type`, in their order. -/
def keywords : List (String × TokenType) :=
  [("func", .kwFunc), ("let", .kwLet), ("const", .kwConst), ("guard", .kwGuard), ("case", .kwCase),
    ("error", .kwError), ("protocol", .kwProtocol), ("impl", .kwImpl), ("import", .kwImport),
    ("package", .kwPackage), ("using", .kwUsing), ("as", .kwAs), ("where", .kwWhere),
    ("variant", .kwVariant), ("struct", .kwStruct), ("match", .kwMatch), ("if", .kwIf),
    ("else", .kwElse), ("for", .kwFor), ("in", .kwIn), ("or", .kwOr), ("nil", .kwNil),
    ("upstream", .kwUpstream), ("downstream", .kwDownstream), ("route", .kwRoute),
    ("return", .kwReturn), ("forward", .kwForward), ("wait", .kwWait), ("true", .kwTrue),
    ("false", .kwFalse), ("GET", .kwGet), ("get", .kwGet), ("POST", .kwPost), ("post", .kwPost),
    ("PUT", .kwPut), ("put", .kwPut), ("DELETE", .kwDelete), ("delete", .kwDelete),
    ("PATCH", .kwPatch), ("patch", .kwPatch), ("HEAD", .kwHead), ("head", .kwHead),
    ("OPTIONS", .kwOptions), ("options", .kwOptions)]

def keywordType (text : Str) : TokenType :=
  ((keywords.find? fun k => ascii k.1 = text).map (·.2)).getD .ident

/-- The `switch` over symbols of one byte. -/
def symbols : List (Char × TokenType) :=
  [('{', .lBrace), ('}', .rBrace), ('(', .lParen), (')', .rParen), ('[', .lBracket),
    (']', .rBracket), (',', .comma), (':', .colon), ('.', .dot), ('<', .lt), ('>', .gt),
    ('*', .star), ('|', .pipe), ('=', .eq), ('@', .at)]

def symbolType (c : UInt8) : Option TokenType := (symbols.find? fun s => byte s.1 = c).map (·.2)

/-! ## The cursor -/

/-- Where the lexer stands: what is left of the text, and what it has counted. -/
structure Cursor where
  rest : Str
  pos : Nat
  line : Nat
  col : Nat
deriving DecidableEq, Repr

namespace Cursor

/-- `pos += n; col += n;` -/
def advance (cur : Cursor) (n : Nat) : Cursor :=
  { cur with rest := cur.rest.drop n, pos := cur.pos + n, col := cur.col + n }

/-- `line++; col = 1; pos++;` -/
def nextLine (cur : Cursor) : Cursor :=
  { rest := cur.rest.drop 1, pos := cur.pos + 1, line := cur.line + 1, col := 1 }

/-- A token of the next `n` bytes. -/
def token (cur : Cursor) (type : TokenType) (n : Nat) : Token :=
  ⟨type, cur.rest.take n, cur.pos, cur.pos + n, cur.line, cur.col⟩

/-- That token, and the cursor behind it. -/
def take (cur : Cursor) (type : TokenType) (n : Nat) : Option Token × Cursor :=
  (some (cur.token type n), cur.advance n)

end Cursor

def tokenSpan (tok : Token) : SourceSpan := ⟨tok.start, tok.stop, tok.line, tok.col⟩

/-! ## The branches -/

/-- The loop over the bytes of a literal: how many stand before the closing quote. It fails at the end
of the text and at a newline, and says where. -/
def literalLength : Str → Except Nat Nat
  | [] => .error 0
  | [c] => if c = quote then .ok 0 else if c = backslash ∨ c = newline then .error 0 else .error 1
  | c :: d :: rest =>
    if c = quote then .ok 0
    -- an escaped byte is passed over, whatever it is
    else if c = backslash then
      match literalLength rest with
      | .error n => .error (n + 2)
      | .ok n => .ok (n + 2)
    else if c = newline then .error 0
    else
      match literalLength (d :: rest) with
      | .error n => .error (n + 1)
      | .ok n => .ok (n + 1)

/-- A literal behind `opening` bytes: `re"` or `"`. -/
def literal (cur : Cursor) (type : TokenType) (opening : Nat) :
    Except Diagnostic (Option Token × Cursor) :=
  match literalLength (cur.rest.drop opening) with
  | .error n =>
    .error ⟨.unterminatedString, ⟨cur.pos, cur.pos + opening + n, cur.line, cur.col⟩, []⟩
  | .ok n => .ok (some ((cur.advance opening).token type n), cur.advance (opening + n + 1))

/-- `tok.text.len == 1 && tok.text.ptr[0] == '_'` -/
def wordType (text : Str) : TokenType :=
  if text = [byte '_'] then .underscore else keywordType text

def ident (cur : Cursor) : Option Token × Cursor :=
  let n := 1 + ((cur.rest.drop 1).takeWhile isIdentContinue).length
  cur.take (wordType (cur.rest.take n)) n

def isBoundary : Str → Bool
  | [] => true
  | c :: _ => !isIdentContinue c

/-- The bytes of a unit behind the digits. -/
def durationUnit (rest : Str) : Nat :=
  if rest.take 2 = ascii "ms" ∧ isBoundary (rest.drop 2) = true then 2
  else if isBoundary (rest.drop 1) = true ∧
      (rest.take 1 = ascii "s" ∨ rest.take 1 = ascii "m" ∨ rest.take 1 = ascii "h") then 1
  else 0

def number (cur : Cursor) : Option Token × Cursor :=
  let n := 1 + ((cur.rest.drop 1).takeWhile isDigit).length
  let unit := durationUnit (cur.rest.drop n)
  if unit ≠ 0 then cur.take .durLit (n + unit) else cur.take .intLit n

def symbol (cur : Cursor) (c : UInt8) : Except Diagnostic (Option Token × Cursor) :=
  if cur.rest.take 2 = ascii "==" then .ok (cur.take .eqEq 2)
  else if cur.rest.take 2 = ascii "=>" then .ok (cur.take .arrow 2)
  else if cur.rest.take 2 = ascii "->" then .ok (cur.take .thinArrow 2)
  else
    match symbolType c with
    | some type => .ok (cur.take type 1)
    | none =>
      let tok := cur.token .eof 1
      .error ⟨.unexpectedChar, tokenSpan tok, tok.text⟩

/-- The body of the loop, at a byte `c`. -/
def next (cur : Cursor) (c : UInt8) : Except Diagnostic (Option Token × Cursor) :=
  if isSpace c then .ok (none, if c = newline then cur.nextLine else cur.advance 1)
  else if cur.rest.take 2 = ascii "//" then
    .ok (none, cur.advance (2 + ((cur.rest.drop 2).takeWhile (· ≠ newline)).length))
  else if cur.rest.take 3 = ascii "re\"" then literal cur .regexLit 3
  else if isIdentStart c then .ok (ident cur)
  else if isDigit c then .ok (number cur)
  else if c = quote then literal cur .stringLit 1
  else symbol cur c

def push (out : List Token) (tok : Token) : Except Diagnostic (List Token) :=
  if out.length ≥ kMaxTokens then .error ⟨.tooManyTokens, tokenSpan tok, []⟩ else .ok (out ++ [tok])

/-- The loop, one pass for each `fuel`; a pass reads at least one byte. -/
def lexLoop : Nat → Cursor → List Token → Except Diagnostic (Cursor × List Token)
  | 0, cur, out => .ok (cur, out)
  | fuel + 1, cur, out =>
    match cur.rest with
    | [] => .ok (cur, out)
    | c :: _ =>
      match next cur c with
      | .error e => .error e
      | .ok (none, cur') => lexLoop fuel cur' out
      | .ok (some tok, cur') =>
        match push out tok with
        | .error e => .error e
        | .ok out' => lexLoop fuel cur' out'

def lex (source : Str) : Except Diagnostic (List Token) :=
  match lexLoop source.length ⟨source, 0, 1, 1⟩ [] with
  | .error e => .error e
  | .ok (cur, out) => push out ⟨.eof, [], source.length, source.length, cur.line, cur.col⟩

/-! ## Literals of a text

A quote outside of comments opens a literal, and the next one that is not escaped closes it. -/

inductive Place where
  | code | oneSlash | comment | literal | escape
deriving DecidableEq, Repr

def slash : UInt8 := byte '/'

/-- The place behind a byte. -/
def Place.step : Place → UInt8 → Place
  | .code, c => if c = quote then .literal else if c = slash then .oneSlash else .code
  | .oneSlash, c => if c = slash then .comment else if c = quote then .literal else .code
  | .comment, c => if c = newline then .code else .comment
  | .literal, c => if c = quote then .code else if c = backslash then .escape else .literal
  | .escape, _ => .literal

/-- No newline stands in a literal. -/
def OneLine : Place → Str → Prop
  | _, [] => True
  | p, c :: s => (p = .literal ∨ p = .escape → c ≠ newline) ∧ OneLine (p.step c) s

instance decidableOneLine : (p : Place) → (s : Str) → Decidable (OneLine p s)
  | _, [] => .isTrue trivial
  | p, c :: s => @instDecidableAnd _ _ inferInstance (decidableOneLine (p.step c) s)

/-- A byte that opens neither a comment nor a literal. -/
def isPlain (c : UInt8) : Bool := c ≠ quote && c ≠ slash && c ≠ newline

variable {s : Str}

theorem oneLine_plain {t : Str} (h : s.all isPlain = true) :
    OneLine .code (s ++ t) ↔ OneLine .code t := by
  induction s with
  | nil => rfl
  | cons c s ih =>
    simp only [all_cons, Bool.and_eq_true, isPlain, decide_eq_true_eq] at h
    simp [OneLine, Place.step, h.1, ih h.2]

theorem oneLine_comment {body rest : Str} (hbody : newline ∉ body)
    (hend : ∀ c ∈ rest.head?, c = newline) :
    OneLine .comment (body ++ rest) ↔ OneLine .code rest := by
  induction body with
  | nil =>
    cases rest with
    | nil => rfl
    | cons c rest =>
      have hplain : newline ≠ quote ∧ newline ≠ slash := by decide
      cases hend c rfl
      simp [OneLine, Place.step, hplain]
  | cons c body ih =>
    rw [mem_cons, not_or] at hbody
    simp [OneLine, Place.step, Ne.symm hbody.1, ih hbody.2]

/-- The bytes that the loop over a literal passes are the ones in it. -/
theorem oneLine_literal {n : Nat} (h : literalLength s = .ok n) :
    OneLine .literal s ↔ newline ∉ s.take n ∧ OneLine .code (s.drop (n + 1)) := by
  have hquote : quote ≠ newline := by decide
  have hescape : backslash ≠ quote ∧ backslash ≠ newline := by decide
  fun_induction literalLength s generalizing n with
  | case2 | case5 =>
    cases h
    simp [OneLine, Place.step, hquote]
  | case1 | case3 | case4 | case6 | case8 | case9 => cases h
  | case7 d rest m heq hne ih =>
    cases h
    simp [OneLine, Place.step, hescape, Ne.symm hescape.2, ih heq, eq_comm, and_assoc]
  | case10 c d rest hq hb hn m heq ih =>
    cases h
    have hstep : OneLine .literal (c :: d :: rest) ↔ OneLine .literal (d :: rest) := by
      rw [OneLine]
      simp [Place.step, hq, hb, hn]
    refine hstep.trans ((ih heq).trans ?_)
    simp [Ne.symm hn]

/-! ## What a pass does -/

/-- What stands around the text of a token. -/
def opening : TokenType → Str
  | .stringLit => [quote]
  | .regexLit => ascii "re\""
  | _ => []

def closing : TokenType → Str
  | .stringLit => [quote]
  | .regexLit => [quote]
  | _ => []

/-- A blank or a comment; the comment ends at a newline or with the text. -/
inductive Skips (cur : Cursor) : Cursor → Prop
  | blank {c : UInt8} {rest : Str} (h : cur.rest = c :: rest) (hc : isSpace c = true)
      (hne : c ≠ newline) : Skips cur (cur.advance 1)
  | lineBreak {rest : Str} (h : cur.rest = newline :: rest) : Skips cur cur.nextLine
  | comment {body rest : Str} (h : cur.rest = ascii "//" ++ (body ++ rest)) (hbody : newline ∉ body)
      (hend : ∀ c ∈ rest.head?, c = newline) : Skips cur (cur.advance (2 + body.length))

/-- A token, from its first delimiter to its last. -/
def lexeme (tok : Token) : Str := opening tok.type ++ (tok.text ++ closing tok.type)

structure Reads (cur : Cursor) (tok : Token) (cur' : Cursor) : Prop where
  rest : cur.rest = lexeme tok ++ cur'.rest
  ne_nil : lexeme tok ≠ []
  next : cur' = cur.advance (lexeme tok).length
  start : tok.start = cur.pos + (opening tok.type).length
  stop : tok.stop = tok.start + tok.text.length
  line : tok.line = cur.line
  col : tok.col = cur.col + (opening tok.type).length
  oneLine : OneLine .code cur.rest ↔ newline ∉ tok.text ∧ OneLine .code cur'.rest

/-- A kind of token that has no delimiters. -/
def Bare (type : TokenType) : Prop := opening type = [] ∧ closing type = []

variable {type : TokenType}

section Passes

variable {cur cur' : Cursor} {tok : Token}

theorem reads_take {n : Nat} (hbare : Bare type) (hpos : 0 < n)
    (hle : n ≤ cur.rest.length) (hplain : (cur.rest.take n).all isPlain = true) :
    Reads cur (cur.token type n) (cur.advance n) := by
  have hlexeme : lexeme (cur.token type n) = cur.rest.take n := by
    show opening type ++ (cur.rest.take n ++ closing type) = _
    rw [hbare.1, hbare.2, nil_append, append_nil]
  have hlen : (cur.rest.take n).length = n := length_take_of_le hle
  have hopen : (opening type).length = 0 := by rw [hbare.1]; rfl
  constructor
  · rw [hlexeme]
    exact (take_append_drop n cur.rest).symm
  · rw [hlexeme]
    exact ne_nil_of_length_pos (by omega)
  · rw [hlexeme, hlen]
  · show cur.pos = cur.pos + (opening type).length
    omega
  · show cur.pos + n = cur.pos + (cur.rest.take n).length
    omega
  · rfl
  · show cur.col = cur.col + (opening type).length
    omega
  · have htext : newline ∉ cur.rest.take n := fun hmem =>
      absurd (all_eq_true.mp hplain newline hmem) (by decide)
    show _ ↔ newline ∉ cur.rest.take n ∧ OneLine .code (cur.rest.drop n)
    rw [and_iff_right htext]
    conv_lhs => rw [← take_append_drop n cur.rest]
    exact oneLine_plain hplain

/-- The loop stops at the closing quote. -/
theorem literalLength_ok {n : Nat} (h : literalLength s = .ok n) :
    ∃ rest, s.drop n = quote :: rest := by
  fun_induction literalLength s generalizing n with
  | case2 | case5 =>
    cases h
    exact ⟨_, rfl⟩
  | case1 | case3 | case4 | case6 | case8 | case9 => cases h
  | case7 d rest m heq hne ih =>
    cases h
    exact ih heq
  | case10 _ _ _ _ _ _ _ heq ih =>
    cases h
    exact ih heq

variable {x : Option Token × Cursor} {c : UInt8} {rest : Str}

/-- A literal whose opening delimiter stands at the cursor. -/
theorem reads_literal (type : TokenType) (hopen : ∃ rest, cur.rest = opening type ++ rest)
    (hclose : closing type = [quote])
    (hplace : ∀ rest, OneLine .code (opening type ++ rest) ↔ OneLine .literal rest) (h : literal cur type (opening type).length = .ok x) :
    ∃ tok, x.1 = some tok ∧ Reads cur tok x.2 := by
  obtain ⟨rest, hrest⟩ := hopen
  have hdrop : cur.rest.drop (opening type).length = rest := by rw [hrest, drop_left]
  unfold literal at h
  rw [hdrop] at h
  split at h
  · cases h
  next n hn =>
  cases h
  obtain ⟨rest', hrest'⟩ := literalLength_ok hn
  have hle : n ≤ rest.length := by
    by_contra hlt
    rw [drop_of_length_le (by omega)] at hrest'
    cases hrest'
  have hlexeme : lexeme ((cur.advance (opening type).length).token type n) =
      opening type ++ (rest.take n ++ [quote]) := by
    show opening type ++ ((cur.rest.drop _).take n ++ closing type) = _
    rw [hdrop, hclose]
  have hlen : (rest.take n).length = n := length_take_of_le hle
  have hdrop' : cur.rest.drop ((opening type).length + n + 1) = rest' := by
    rw [Nat.add_assoc, ← drop_drop, hdrop, ← drop_drop, hrest']
    rfl
  refine ⟨_, rfl, ?_, ?_, ?_, rfl, ?_, rfl, rfl, ?_⟩
  · have hsplit : rest = rest.take n ++ quote :: rest' := by rw [← hrest', take_append_drop]
    show cur.rest = _ ++ cur.rest.drop ((opening type).length + n + 1)
    rw [hlexeme, hdrop', hrest]
    conv_lhs => rw [hsplit]
    simp
  · rw [hlexeme]
    simp
  · rw [hlexeme]
    simp only [length_append, hlen, length_singleton]
    rfl
  · show _ + n = _ + ((cur.rest.drop _).take n).length
    rw [hdrop, hlen]
    rfl
  · show _ ↔ newline ∉ (cur.rest.drop (opening type).length).take n ∧
      OneLine .code (cur.rest.drop ((opening type).length + n + 1))
    rw [hdrop, hdrop', hrest, hplace, oneLine_literal hn, ← drop_drop, hrest']
    rfl

theorem bare_wordType (text : Str) : Bare (wordType text) := by
  have hall : ∀ k ∈ keywords, Bare k.2 := by unfold Bare; decide
  unfold wordType keywordType
  split
  · exact ⟨rfl, rfl⟩
  cases hfind : keywords.find? fun k => ascii k.1 = text with
  | none => exact ⟨rfl, rfl⟩
  | some k => exact hall k (mem_of_find?_eq_some hfind)

theorem bare_symbolType (h : symbolType c = some type) :
    Bare type ∧ isPlain c = true := by
  have hall : ∀ s ∈ symbols, Bare s.2 ∧ isPlain (byte s.1) = true := by unfold Bare; decide
  obtain ⟨s, hfind, rfl⟩ := Option.map_eq_some_iff.mp h
  have hbyte : byte s.1 = c := by simpa using List.find?_some hfind
  exact hbyte ▸ hall s (mem_of_find?_eq_some hfind)

/-- A byte and those behind it that go on with the word. -/
theorem take_word {p : UInt8 → Bool} (hcur : cur.rest = c :: rest) :
    1 + ((cur.rest.drop 1).takeWhile p).length ≤ cur.rest.length ∧
      cur.rest.take (1 + ((cur.rest.drop 1).takeWhile p).length) = c :: rest.takeWhile p := by
  have hle : (rest.takeWhile p).length ≤ rest.length := (List.takeWhile_prefix _).length_le
  rw [hcur, drop_one, tail_cons, length_cons, Nat.add_comm, take_succ_cons,
    ← prefix_iff_eq_take.mp (List.takeWhile_prefix p)]
  exact ⟨by omega, rfl⟩

theorem isPlain_of_isIdentContinue : ∀ b : UInt8, isIdentContinue b = true → isPlain b = true := by
  decide +kernel

theorem all_isPlain_word {p : UInt8 → Bool} (hp : ∀ b, p b = true → isIdentContinue b = true)
    (hc : isIdentContinue c = true) : (c :: rest.takeWhile p).all isPlain = true := by
  rw [all_cons, isPlain_of_isIdentContinue c hc, Bool.true_and, all_eq_true]
  exact fun b hb => isPlain_of_isIdentContinue b (hp b (mem_takeWhile_imp hb))

/-- A word is read. -/
theorem reads_ident (hcur : cur.rest = c :: rest) (hc : isIdentStart c = true) :
    ∃ tok, (ident cur).1 = some tok ∧ Reads cur tok (ident cur).2 := by
  obtain ⟨hle, htake⟩ := take_word (p := isIdentContinue) hcur
  refine ⟨_, rfl, reads_take (bare_wordType _) (by omega) hle ?_⟩
  rw [htake]
  exact all_isPlain_word (fun _ => id) (by rw [isIdentContinue, hc, Bool.true_or])

theorem durationUnit_le (rest : Str) :
    durationUnit rest ≤ rest.length ∧ (rest.take (durationUnit rest)).all isPlain = true := by
  unfold durationUnit
  split
  · next h =>
    have hlen := congrArg List.length h.1
    simp only [length_take] at hlen
    change min 2 rest.length = 2 at hlen
    exact ⟨by omega, by rw [h.1]; decide⟩
  split
  · next h =>
    have hplain : (rest.take 1).all isPlain = true := by
      rcases h.2 with h | h | h <;> rw [h] <;> decide
    cases rest with
    | nil =>
      have : ascii "s" ≠ [] ∧ ascii "m" ≠ [] ∧ ascii "h" ≠ [] := by decide
      obtain ⟨-, h | h | h⟩ := h
      · exact absurd h.symm this.1
      · exact absurd h.symm this.2.1
      · exact absurd h.symm this.2.2
    | cons c rest => exact ⟨by simp, hplain⟩
  · exact ⟨Nat.zero_le _, rfl⟩

/-- So is a number, with its unit. -/
theorem reads_number (hcur : cur.rest = c :: rest) (hc : isDigit c = true) :
    ∃ tok, (number cur).1 = some tok ∧ Reads cur tok (number cur).2 := by
  obtain ⟨hle, htake⟩ := take_word (p := isDigit) hcur
  have hdigit : ∀ b, isDigit b = true → isIdentContinue b = true := fun b hb => by
    rw [isIdentContinue, hb, Bool.or_true]
  have hplain : (c :: rest.takeWhile isDigit).all isPlain = true :=
    all_isPlain_word hdigit (hdigit c hc)
  obtain ⟨hunit, hplain'⟩ :=
    durationUnit_le (cur.rest.drop (1 + ((cur.rest.drop 1).takeWhile isDigit).length))
  rw [length_drop] at hunit
  unfold number
  dsimp only
  split
  · refine ⟨_, rfl, reads_take ⟨rfl, rfl⟩ (by omega) (by omega) ?_⟩
    rw [take_add, all_append, htake, hplain, hplain', Bool.true_and]
  · exact ⟨_, rfl, reads_take ⟨rfl, rfl⟩ (by omega) hle (htake ▸ hplain)⟩

/-- Bytes that are there. -/
theorem le_length_of_take (lit : Str) (h : s.take lit.length = lit) : lit.length ≤ s.length := by
  have := congrArg List.length h
  rw [length_take] at this
  omega

theorem reads_symbol (hcur : cur.rest = c :: rest) (h : symbol cur c = .ok x) :
    ∃ tok, x.1 = some tok ∧ Reads cur tok x.2 := by
  unfold symbol at h
  split at h
  · next hlit =>
    cases h
    exact ⟨_, rfl, reads_take ⟨rfl, rfl⟩ (by omega) (le_length_of_take (ascii "==") hlit)
      (by rw [hlit]; decide)⟩
  split at h
  · next hlit =>
    cases h
    exact ⟨_, rfl, reads_take ⟨rfl, rfl⟩ (by omega) (le_length_of_take (ascii "=>") hlit)
      (by rw [hlit]; decide)⟩
  split at h
  · next hlit =>
    cases h
    exact ⟨_, rfl, reads_take ⟨rfl, rfl⟩ (by omega) (le_length_of_take (ascii "->") hlit)
      (by rw [hlit]; decide)⟩
  split at h
  · next type htype =>
    cases h
    obtain ⟨hbare, hplain⟩ := bare_symbolType htype
    exact ⟨_, rfl, reads_take hbare Nat.one_pos (by rw [hcur]; simp) (by simp [hcur, hplain])⟩
  · cases h

theorem oneLine_string (rest : Str) :
    OneLine .code (opening .stringLit ++ rest) ↔ OneLine .literal rest := by
  simp [opening, OneLine, Place.step]

theorem oneLine_regex (rest : Str) :
    OneLine .code (opening .regexLit ++ rest) ↔ OneLine .literal rest := by
  have hplain : (ascii "re").all isPlain = true := by decide
  exact (oneLine_plain (t := quote :: rest) hplain).trans (oneLine_string rest)

theorem next_ok (hcur : cur.rest = c :: rest) (h : next cur c = .ok x) :
    (x.1 = none ∧ Skips cur x.2) ∨ ∃ tok, x.1 = some tok ∧ Reads cur tok x.2 := by
  unfold next at h
  split at h
  · next hspace =>
    cases h
    refine .inl ⟨rfl, ?_⟩
    split
    · next hc => exact .lineBreak (hc ▸ hcur)
    · next hc => exact .blank hcur hspace hc
  split at h
  · next hlit =>
    cases h
    have hrest : cur.rest = ascii "//" ++ ((cur.rest.drop 2).takeWhile (· ≠ newline) ++
        (cur.rest.drop 2).dropWhile (· ≠ newline)) := by
      rw [takeWhile_append_dropWhile, ← hlit, take_append_drop]
    refine .inl ⟨rfl, .comment hrest ?_ ?_⟩
    · intro hmem
      simpa using mem_takeWhile_imp hmem
    · intro b hb
      cases hd : (cur.rest.drop 2).dropWhile (· ≠ newline) with
      | nil => rw [hd] at hb; cases hb
      | cons b' rest' =>
        rw [hd] at hb
        have hbb : b' = b := by simpa using hb
        simpa [hbb] using not_of_dropWhile hd
  right
  split at h
  · next hlit =>
    exact reads_literal .regexLit
      ⟨cur.rest.drop 3, by rw [show opening .regexLit = cur.rest.take 3 from hlit.symm,
        take_append_drop]⟩ rfl oneLine_regex h
  split at h
  · next hc =>
    cases h
    exact reads_ident hcur hc
  split at h
  · next hc =>
    cases h
    exact reads_number hcur hc
  split at h
  · next hc =>
    exact reads_literal .stringLit ⟨rest, by rw [hcur, hc]; rfl⟩ rfl oneLine_string h
  · exact reads_symbol hcur h

end Passes

/-! ## What the loop makes of a text -/

inductive Lexes : Cursor → List Token → Prop
  | eof {cur : Cursor} (h : cur.rest = []) : Lexes cur [⟨.eof, [], cur.pos, cur.pos, cur.line, cur.col⟩]
  | skip {cur cur' : Cursor} {tokens : List Token} (h : Skips cur cur') (hrest : Lexes cur' tokens) :
      Lexes cur tokens
  | token {cur cur' : Cursor} {tok : Token} {tokens : List Token} (h : Reads cur tok cur')
      (hrest : Lexes cur' tokens) : Lexes cur (tok :: tokens)

variable {cur cur' : Cursor} {out tokens : List Token}

/-- What is skipped: a newline, or bytes that are none. -/
theorem Skips.bytes (h : Skips cur cur') :
    ∃ s, s ≠ [] ∧ cur.rest = s ++ cur'.rest ∧
      ((s = [newline] ∧ cur' = cur.nextLine) ∨ (newline ∉ s ∧ cur' = cur.advance s.length)) := by
  cases h with
  | @blank c rest h hc hne =>
    exact ⟨[c], by simp, by simp [Cursor.advance, h], .inr ⟨by simpa using hne.symm, rfl⟩⟩
  | lineBreak h => exact ⟨[newline], by simp, by simp [Cursor.nextLine, h], .inl ⟨rfl, rfl⟩⟩
  | @comment body rest h hbody =>
    have hlen : (ascii "//" ++ body).length = 2 + body.length := length_append
    have hslashes : newline ∉ ascii "//" := by decide
    refine ⟨ascii "//" ++ body, by simp [ascii], ?_, .inr ⟨by simp [hslashes, hbody], by rw [hlen]⟩⟩
    show _ = _ ++ cur.rest.drop (2 + body.length)
    rw [h, ← append_assoc, ← hlen, drop_left]

theorem Skips.rest (h : Skips cur cur') :
    ∃ s, s ≠ [] ∧ cur.rest = s ++ cur'.rest ∧ cur'.pos = cur.pos + s.length := by
  obtain ⟨s, hne, hrest, ⟨rfl, rfl⟩ | ⟨-, rfl⟩⟩ := h.bytes
  · exact ⟨_, hne, hrest, rfl⟩
  · exact ⟨_, hne, hrest, rfl⟩

/-- A gap opens no literal. -/
theorem Skips.oneLine (h : Skips cur cur') :
    OneLine .code cur.rest ↔ OneLine .code cur'.rest := by
  cases h with
  | @blank c rest h hc hne =>
    have hplain : ∀ b, isSpace b = true → b ≠ newline → isPlain b = true := by decide +kernel
    have hc := hplain c hc hne
    simpa [h, Cursor.advance] using oneLine_plain (s := [c]) (t := rest) (by simp [hc])
  | lineBreak h =>
    have hplain : newline ≠ quote ∧ newline ≠ slash := by decide
    simp [h, Cursor.nextLine, OneLine, Place.step, hplain]
  | @comment body rest h hbody hend =>
    have hdrop : cur.rest.drop (2 + body.length) = rest := by
      rw [h, ← drop_drop]
      exact drop_left
    have hslash : slash ≠ quote := by decide
    show _ ↔ OneLine .code (cur.rest.drop (2 + body.length))
    rw [hdrop, ← oneLine_comment hbody hend, h]
    show OneLine .code (slash :: slash :: _) ↔ _
    simp [OneLine, Place.step, hslash]

variable {tok : Token}

theorem push_ok {out' : List Token} (h : push out tok = .ok out') :
    out' = out ++ [tok] := by
  unfold push at h
  split at h
  · cases h
  · cases h
    rfl

theorem Reads.length (h : Reads cur tok cur') :
    cur'.pos + cur'.rest.length = cur.pos + cur.rest.length ∧ cur'.rest.length < cur.rest.length := by
  have hpos : cur'.pos = cur.pos + (lexeme tok).length := by rw [h.next]; rfl
  have hlen := length_pos_iff.mpr h.ne_nil
  rw [h.rest, length_append, hpos]
  omega

theorem Skips.length (h : Skips cur cur') :
    cur'.pos + cur'.rest.length = cur.pos + cur.rest.length ∧ cur'.rest.length < cur.rest.length := by
  obtain ⟨s, hne, hrest, hpos⟩ := h.rest
  have hlen := length_pos_iff.mpr hne
  rw [hrest, length_append, hpos]
  omega

/-- The text has been read: the last token. -/
theorem lexes_eof {len : Nat} (hnil : cur.rest = []) (hlen : cur.pos + cur.rest.length = len)
    (hpush : push out ⟨.eof, [], len, len, cur.line, cur.col⟩ = .ok tokens) :
    ∃ new, tokens = out ++ new ∧ Lexes cur new := by
  have hpos : cur.pos = len := by rw [← hlen, hnil]; rfl
  rw [push_ok hpush, ← hpos]
  exact ⟨_, rfl, .eof hnil⟩

theorem lexes_of_lexLoop {len fuel : Nat} {out' : List Token} (hfuel : cur.rest.length ≤ fuel)
    (hlen : cur.pos + cur.rest.length = len) (h : lexLoop fuel cur out = .ok (cur', out'))
    (hpush : push out' ⟨.eof, [], len, len, cur'.line, cur'.col⟩ = .ok tokens) :
    ∃ new, tokens = out ++ new ∧ Lexes cur new := by
  induction fuel generalizing cur out with
  | zero =>
    cases h
    exact lexes_eof (eq_nil_of_length_eq_zero (Nat.le_zero.mp hfuel)) hlen hpush
  | succ fuel ih =>
    unfold lexLoop at h
    split at h
    · next hnil =>
      cases h
      exact lexes_eof hnil hlen hpush
    next c rest hcur =>
    split at h
    · cases h
    · next cur₁ hnext =>
      obtain ⟨-, hskip⟩ | ⟨tok, hnone, -⟩ := next_ok hcur hnext
      · obtain ⟨hsame, hlt⟩ := hskip.length
        obtain ⟨new, rfl, hnew⟩ := ih (Nat.le_of_lt_succ (hlt.trans_le hfuel)) (hsame.trans hlen) h
        exact ⟨new, rfl, .skip hskip hnew⟩
      · cases hnone
    · next tok cur₁ hnext =>
      obtain ⟨hnone, -⟩ | ⟨tok', hsome, hreads⟩ := next_ok hcur hnext
      · cases hnone
      cases hsome
      split at h
      · cases h
      next out₁ hout =>
      obtain ⟨hsame, hlt⟩ := hreads.length
      obtain ⟨new, rfl, hnew⟩ := ih (Nat.le_of_lt_succ (hlt.trans_le hfuel)) (hsame.trans hlen) h
      rw [push_ok hout, append_assoc]
      exact ⟨tok :: new, rfl, .token hreads hnew⟩

/-- The loop gets through the text. -/
theorem lexes_of_lex {source : Str} (h : lex source = .ok tokens) :
    Lexes ⟨source, 0, 1, 1⟩ tokens := by
  unfold lex at h
  split at h
  · cases h
  next cur out hloop =>
  have hfuel : (Cursor.mk source 0 1 1).rest.length ≤ source.length := Nat.le_refl _
  obtain ⟨new, rfl, hnew⟩ := lexes_of_lexLoop hfuel (Nat.zero_add _) hloop h
  exact hnew

/-! ## Where the tokens lie -/

def slice (source : Str) (i j : Nat) : Str := (source.drop i).take (j - i)

/-- Blanks and line comments; `rest` is what follows in the text. -/
inductive Skipped : Str → Str → Prop
  | nil {rest : Str} : Skipped [] rest
  | blank {c : UInt8} {gap rest : Str} (hc : isSpace c = true) (h : Skipped gap rest) :
      Skipped (c :: gap) rest
  | comment {body gap rest : Str} (hbody : newline ∉ body)
      (hend : ∀ c ∈ (gap ++ rest).head?, c = newline) (h : Skipped gap rest) :
      Skipped (ascii "//" ++ (body ++ gap)) rest

/-- A token is a slice of the text. -/
structure InPlace (source : Str) (tok : Token) : Prop where
  le : tok.start ≤ tok.stop
  le_length : tok.stop ≤ source.length
  text : tok.text = slice source tok.start tok.stop

/-- Before a token, from `i` on, stand the bytes `before`, blanks and comments, and its delimiter. -/
def Precedes (source : Str) (i : Nat) (before : Str) (tok : Token) : Prop :=
  i ≤ tok.start ∧ ∃ gap, slice source i tok.start = before ++ (gap ++ opening tok.type) ∧
    Skipped gap (source.drop (i + before.length + gap.length))

/-- Two tokens one after the other. -/
structure Adjacent (source : Str) (a b : Token) : Prop where
  start_lt : a.start < b.start
  stop_le : a.stop ≤ b.start
  between : Precedes source a.stop (closing a.type) b

/-- The tokens lie in the text one behind the other, with nothing but blanks, comments and the
delimiters of literals between them. -/
structure Laid (source : Str) (tokens : List Token) : Prop where
  inPlace : ∀ tok ∈ tokens, InPlace source tok
  increasing : tokens.Pairwise fun a b => a.start < b.start ∧ a.stop ≤ b.start
  first : ∀ tok ∈ tokens.head?, Precedes source 0 [] tok
  adjacent : tokens.IsChain (Adjacent source)

section Layout

variable {source done : Str} {cur : Cursor} {tokens : List Token}

/-- The part of a text from one point to another. -/
theorem slice_append (a b c : Str) : slice (a ++ (b ++ c)) a.length (a.length + b.length) = b := by
  rw [slice, drop_left, Nat.add_sub_cancel_left, take_left]

/-- The first token of a text is met behind blanks and comments, and its delimiter. -/
structure Ahead (cur : Cursor) (tok : Token) (gap rest : Str) : Prop where
  rest_eq : cur.rest = gap ++ (opening tok.type ++ rest)
  skipped : Skipped gap (opening tok.type ++ rest)
  start : tok.start = cur.pos + gap.length + (opening tok.type).length

variable {cur' : Cursor} {tok : Token} {gap rest : Str}

theorem ahead_of_reads (h : Reads cur tok cur') :
    Ahead cur tok [] (tok.text ++ closing tok.type ++ cur'.rest) :=
  ⟨by rw [h.rest]; simp [lexeme], .nil, by rw [h.start]; rfl⟩

theorem Ahead.skip (h : Ahead cur' tok gap rest) (hskip : Skips cur cur') :
    ∃ gap', Ahead cur tok gap' rest := by
  have hgap := h.rest_eq
  have hstart := h.start
  cases hskip with
  | @blank c r hcur hc =>
    have hr : (cur.advance 1).rest = r := by simp [Cursor.advance, hcur]
    rw [hr] at hgap
    refine ⟨c :: gap, ?_, .blank hc h.skipped, ?_⟩
    · rw [hcur, hgap]
      rfl
    · rw [hstart, length_cons]
      show cur.pos + 1 + gap.length + _ = _
      omega
  | @lineBreak r hcur =>
    have hr : cur.nextLine.rest = r := by simp [Cursor.nextLine, hcur]
    rw [hr] at hgap
    refine ⟨newline :: gap, ?_, .blank (by decide) h.skipped, ?_⟩
    · rw [hcur, hgap]
      rfl
    · rw [hstart, length_cons]
      show cur.pos + 1 + gap.length + _ = _
      omega
  | @comment body r hcur hbody hend =>
    have hlen : (ascii "//").length = 2 := rfl
    have hr : (cur.advance (2 + body.length)).rest = r := by
      show cur.rest.drop _ = r
      rw [hcur, ← append_assoc, ← hlen, ← length_append, drop_left]
    rw [hr] at hgap
    refine ⟨ascii "//" ++ (body ++ gap), ?_, .comment hbody (hgap ▸ hend) h.skipped, ?_⟩
    · rw [hcur, hgap]
      simp
    · rw [hstart, length_append, length_append, hlen]
      show cur.pos + (2 + body.length) + gap.length + _ = _
      omega

theorem Ahead.precedes {before : Str} (h : Ahead cur tok gap rest)
    (hsource : source = done ++ (before ++ cur.rest)) (hpos : done.length + before.length = cur.pos)
    :
    Precedes source done.length before tok := by
  have hstart : tok.start = done.length + (before ++ (gap ++ opening tok.type)).length := by
    rw [h.start, ← hpos, length_append, length_append]
    omega
  refine ⟨by omega, gap, ?_, ?_⟩
  · have hsplit : source = done ++ ((before ++ (gap ++ opening tok.type)) ++ rest) := by
      rw [hsource, h.rest_eq]
      simp
    rw [hsplit, hstart, slice_append]
  · have hsplit : source = (done ++ (before ++ gap)) ++ (opening tok.type ++ rest) := by
      rw [hsource, h.rest_eq]
      simp
    rw [hsplit, Nat.add_assoc, ← length_append, ← length_append, drop_left]
    exact h.skipped

theorem opening_eq_nil (h : closing type = []) : opening type = [] := by
  cases type <;> first | rfl | cases h

/-- A text around a token. -/
theorem Reads.source_eq (h : Reads cur tok cur') (hsource : source = done ++ cur.rest) :
    source = (done ++ opening tok.type) ++ (tok.text ++ (closing tok.type ++ cur'.rest)) := by
  rw [hsource, h.rest, lexeme]
  simp

theorem Reads.start_eq (h : Reads cur tok cur') (hpos : done.length = cur.pos) :
    tok.start = (done ++ opening tok.type).length := by
  rw [h.start, length_append, hpos]

theorem Reads.inPlace (h : Reads cur tok cur') (hsource : source = done ++ cur.rest)
    (hpos : done.length = cur.pos) : InPlace source tok := by
  have hstart := h.start_eq hpos
  have hstop := h.stop
  rw [hstart] at hstop
  refine ⟨by omega, ?_, ?_⟩
  · rw [h.source_eq hsource, hstop]
    simp only [length_append]
    omega
  · rw [h.source_eq hsource, hstart, hstop, slice_append]

/-- The next token. It begins later: behind a text or a closing quote. -/
theorem Reads.adjacent {b : Token} (h : Reads cur tok cur') (hsource : source = done ++ cur.rest)
    (hpos : done.length = cur.pos) (hahead : Ahead cur' b gap rest) : Adjacent source tok b := by
  have hpos' : cur'.pos = cur.pos + (lexeme tok).length := by rw [h.next]; rfl
  have hlen : (lexeme tok).length =
      (opening tok.type).length + (tok.text.length + (closing tok.type).length) := by
    rw [lexeme, length_append, length_append]
  have hstop : tok.stop = (done ++ (opening tok.type ++ tok.text)).length := by
    rw [h.stop, h.start, ← hpos]
    simp only [length_append]
    omega
  have hbetween : Precedes source tok.stop (closing tok.type) b := by
    rw [hstop]
    apply hahead.precedes
    · rw [h.source_eq hsource]
      simp
    · simp only [length_append]
      omega
  refine ⟨?_, hbetween.1, hbetween⟩
  have hmore : 0 < tok.text.length + (closing tok.type).length := by
    by_contra hzero
    have hclose : closing tok.type = [] := eq_nil_of_length_eq_zero (by omega)
    apply h.ne_nil
    apply eq_nil_of_length_eq_zero
    rw [hlen, opening_eq_nil hclose]
    simp only [length_nil]
    omega
  have hstart := h.start
  have hstart' := hahead.start
  omega

theorem laid_of_lexes (h : Lexes cur tokens) (hsource : source = done ++ cur.rest)
    (hpos : done.length = cur.pos) :
    (∀ tok ∈ tokens, InPlace source tok) ∧
      (∀ tok ∈ tokens.head?, ∃ gap rest, Ahead cur tok gap rest) ∧
      tokens.IsChain (Adjacent source) := by
  induction h generalizing done with
  | @eof cur hnil =>
    have hlen : source.length = cur.pos := by rw [hsource, hnil, append_nil, hpos]
    refine ⟨?_, ?_, .singleton _⟩
    · rintro tok (_ | ⟨_, ⟨⟩⟩)
      refine ⟨Nat.le_refl _, by rw [hlen], ?_⟩
      simp [slice]
    · rintro tok ⟨⟩
      exact ⟨[], [], by rw [hnil]; rfl, .nil, rfl⟩
  | @skip cur cur' tokens hskip _ ih =>
    obtain ⟨s, -, hrest, hpos'⟩ := hskip.rest
    have hsource' : source = (done ++ s) ++ cur'.rest := by rw [hsource, hrest, append_assoc]
    obtain ⟨hplace, hfirst, hchain⟩ := ih hsource' (by rw [length_append, hpos, hpos'])
    refine ⟨hplace, fun tok htok => ?_, hchain⟩
    obtain ⟨gap, rest, hahead⟩ := hfirst tok htok
    obtain ⟨gap', hahead'⟩ := hahead.skip hskip
    exact ⟨gap', rest, hahead'⟩
  | @token cur cur' tok tokens hreads _ ih =>
    have hpos' : cur'.pos = cur.pos + (lexeme tok).length := by rw [hreads.next]; rfl
    have hsource' : source = (done ++ lexeme tok) ++ cur'.rest := by
      rw [hsource, hreads.rest, append_assoc]
    obtain ⟨hplace, hfirst, hchain⟩ := ih hsource' (by rw [length_append, hpos, hpos'])
    refine ⟨forall_mem_cons.mpr ⟨hreads.inPlace hsource hpos, hplace⟩, ?_,
      isChain_cons.mpr ⟨fun b hb => ?_, hchain⟩⟩
    · rintro tok ⟨⟩
      exact ⟨_, _, ahead_of_reads hreads⟩
    · obtain ⟨gap, rest, hahead⟩ := hfirst b hb
      exact hreads.adjacent hsource hpos hahead

/-- The tokens lie where they say. -/
theorem laid_of_lex (h : lex source = .ok tokens) : Laid source tokens := by
  obtain ⟨hplace, hfirst, hchain⟩ := laid_of_lexes (lexes_of_lex h) (nil_append source).symm rfl
  refine ⟨hplace, ?_, fun tok htok => ?_, hchain⟩
  · have htrans : IsTrans Token fun a b => a.start < b.start ∧ a.stop ≤ b.start :=
      ⟨fun a b c hab hbc => ⟨hab.1.trans hbc.1, hab.2.trans hbc.1.le⟩⟩
    exact isChain_iff_pairwise.mp (hchain.imp fun a b hab => ⟨hab.start_lt, hab.stop_le⟩)
  · obtain ⟨gap, rest, hahead⟩ := hfirst tok htok
    have hfirst : Precedes source ([] : Str).length [] tok := hahead.precedes rfl rfl
    exact hfirst

end Layout

/-! ## Lines and columns -/

/-- The line behind a text: one plus the newlines in it. -/
def lineOf (done : Str) : Nat := 1 + done.count newline

/-- The column: how far it is from the last newline, or from where one would be before the text. -/
def columnOf (done : Str) : Nat := (done.reverse.takeWhile (· ≠ newline)).length + 1

structure Positioned (source : Str) (tok : Token) : Prop where
  line : tok.line = lineOf (source.take tok.start)
  col : tok.col = columnOf (source.take tok.start)

section Positions

variable {source done : Str} {cur : Cursor} {tokens : List Token}

theorem lineOf_append (done s : Str) : lineOf (done ++ s) = lineOf done + s.count newline := by
  rw [lineOf, lineOf, count_append, Nat.add_assoc]

theorem columnOf_append (h : newline ∉ s) : columnOf (done ++ s) = columnOf done + s.length := by
  have hall : ∀ b ∈ s.reverse, decide (b ≠ newline) = true := fun b hb => by
    have hne : b ≠ newline := fun heq => h (heq ▸ mem_reverse.mp hb)
    simpa using hne
  rw [columnOf, columnOf, reverse_append, takeWhile_append_of_pos hall, length_append,
    length_reverse]
  omega

theorem columnOf_newline (done : Str) : columnOf (done ++ [newline]) = 1 := by
  rw [columnOf, reverse_append, reverse_singleton, singleton_append,
    takeWhile_cons_of_neg (by simp)]
  rfl

/-- A cursor that has missed `d` newlines. -/
structure Tracks (done : Str) (cur : Cursor) (d : Nat) : Prop where
  line : cur.line + d = lineOf done
  col : d = 0 → cur.col = columnOf done

variable {d : Nat}

theorem tracks_advance (h : newline ∉ s) (ht : Tracks done cur d) :
    Tracks (done ++ s) (cur.advance s.length) d := by
  have hcount : s.count newline = 0 := count_eq_zero.mpr h
  constructor
  · rw [lineOf_append, hcount, Nat.add_zero]
    exact ht.line
  · intro hd
    rw [columnOf_append h, ← ht.col hd]
    rfl

theorem tracks_nextLine (ht : Tracks done cur d) : Tracks (done ++ [newline]) cur.nextLine d := by
  constructor
  · rw [lineOf_append, ← ht.line, count_singleton_self]
    show cur.line + 1 + d = _
    omega
  · intro _
    rw [columnOf_newline]
    rfl

/-- The newlines of a token's text are missed. -/
theorem Reads.tracks {cur' : Cursor} (h : Reads cur tok cur') (ht : Tracks done cur d) :
    Tracks (done ++ lexeme tok) cur' (d + tok.text.count newline) := by
  have hdelims : newline ∉ opening tok.type ∧ newline ∉ closing tok.type := by
    cases tok.type <;> decide
  have hcount : (lexeme tok).count newline = tok.text.count newline := by
    rw [lexeme, count_append, count_append, count_eq_zero.mpr hdelims.1,
      count_eq_zero.mpr hdelims.2]
    omega
  rw [h.next]
  constructor
  · rw [lineOf_append, ← ht.line, hcount]
    show cur.line + (d + _) = _
    omega
  · intro hd
    have htext : newline ∉ tok.text := count_eq_zero.mp (by omega)
    have hlexeme : newline ∉ lexeme tok := by simp [lexeme, hdelims, htext]
    exact (tracks_advance hlexeme ht).col (by omega)

/-- A token is counted right where the cursor is. -/
theorem Reads.positioned {cur' : Cursor} (h : Reads cur tok cur')
    (hsource : source = done ++ cur.rest) (hpos : done.length = cur.pos) (ht : Tracks done cur 0) :
    Positioned source tok := by
  have htake : source.take tok.start = done ++ opening tok.type := by
    rw [h.source_eq hsource, h.start_eq hpos, take_left]
  have hopen : newline ∉ opening tok.type := by cases tok.type <;> decide
  have ht' := tracks_advance hopen ht
  refine ⟨?_, ?_⟩
  · rw [htake, ← ht'.line, h.line]
    rfl
  · rw [htake, ← ht'.col rfl, h.col]
    rfl

/-- The tokens are all in their places as long as no newline is missed. If one is, the last token is
not. -/
theorem positioned_iff (h : Lexes cur tokens) (hsource : source = done ++ cur.rest)
    (hpos : done.length = cur.pos) (ht : Tracks done cur d) :
    (∀ tok ∈ tokens, Positioned source tok) ↔ d = 0 ∧ ∀ tok ∈ tokens, newline ∉ tok.text := by
  induction h generalizing done d with
  | @eof cur hnil =>
    have htake : source.take cur.pos = done := by
      rw [hsource, hnil, append_nil, ← hpos, take_length]
    have hline := ht.line
    constructor
    · intro hall
      have heof := (hall _ (mem_singleton_self _)).line
      simp only [htake] at heof
      refine ⟨by omega, ?_⟩
      rintro tok (_ | ⟨_, ⟨⟩⟩)
      exact not_mem_nil
    · rintro ⟨rfl, -⟩ tok (_ | ⟨_, ⟨⟩⟩)
      refine ⟨?_, ?_⟩
      · simpa only [htake, Nat.add_zero] using hline
      · simpa only [htake] using ht.col rfl
  | @skip cur cur' tokens hskip _ ih =>
    obtain ⟨s, -, hrest, hcur⟩ := hskip.bytes
    have hsource' : source = (done ++ s) ++ cur'.rest := by rw [hsource, hrest, append_assoc]
    rcases hcur with ⟨rfl, rfl⟩ | ⟨hs, rfl⟩
    · exact ih hsource' (by rw [length_append, hpos]; rfl) (tracks_nextLine ht)
    · exact ih hsource' (by rw [length_append, hpos]; rfl) (tracks_advance hs ht)
  | @token cur cur' tok tokens hreads _ ih =>
    have hpos' : cur'.pos = cur.pos + (lexeme tok).length := by rw [hreads.next]; rfl
    have hsource' : source = (done ++ lexeme tok) ++ cur'.rest := by
      rw [hsource, hreads.rest, append_assoc]
    have ih := ih hsource' (by rw [length_append, hpos, hpos']) (hreads.tracks ht)
    rw [forall_mem_cons, forall_mem_cons, ih, Nat.add_eq_zero_iff, count_eq_zero]
    constructor
    · rintro ⟨-, ⟨hd, htext⟩, hall⟩
      exact ⟨hd, htext, hall⟩
    · rintro ⟨rfl, htext, hall⟩
      exact ⟨hreads.positioned hsource hpos ht, ⟨rfl, htext⟩, hall⟩

/-- The newlines in literals of the text are those in the texts of its tokens. -/
theorem oneLine_iff (h : Lexes cur tokens) :
    OneLine .code cur.rest ↔ ∀ tok ∈ tokens, newline ∉ tok.text := by
  induction h with
  | eof hnil => simp [hnil, OneLine]
  | skip hskip _ ih => rw [hskip.oneLine, ih]
  | token hreads _ ih => rw [hreads.oneLine, ih, forall_mem_cons]

/-- A text that lexes: its tokens lie one behind the other, and every line and column is right if and
only if no literal of the text holds a newline, which has to be escaped there. -/
theorem lex_laid (source : Str) (tokens : List Token) (h : lex source = .ok tokens) :
    Laid source tokens ∧ ((∀ tok ∈ tokens, Positioned source tok) ↔ OneLine .code source) := by
  refine ⟨laid_of_lex h, ?_⟩
  have ht : Tracks [] (Cursor.mk source 0 1 1) 0 := ⟨rfl, fun _ => rfl⟩
  rw [positioned_iff (lexes_of_lex h) (nil_append source).symm rfl ht,
    ← oneLine_iff (lexes_of_lex h)]
  simp

/-- A comment and a string. -/
theorem lex_comment :
    lex (ascii "a // b\n \"c\"") = .ok [⟨.ident, ascii "a", 0, 1, 1, 1⟩,
      ⟨.stringLit, ascii "c", 9, 10, 2, 3⟩, ⟨.eof, [], 11, 11, 2, 5⟩] := by
  decide +kernel

theorem lex_laid_comment :
    Laid (ascii "a // b\n \"c\"") [⟨.ident, ascii "a", 0, 1, 1, 1⟩,
      ⟨.stringLit, ascii "c", 9, 10, 2, 3⟩, ⟨.eof, [], 11, 11, 2, 5⟩] ∧
    ∀ tok ∈ ([⟨.ident, ascii "a", 0, 1, 1, 1⟩, ⟨.stringLit, ascii "c", 9, 10, 2, 3⟩,
      ⟨.eof, [], 11, 11, 2, 5⟩] : List Token), Positioned (ascii "a // b\n \"c\"") tok := by
  obtain ⟨hlaid, hiff⟩ := lex_laid _ _ lex_comment
  exact ⟨hlaid, hiff.mpr (by decide)⟩

/-- A string with an escaped newline. -/
theorem lex_escaped :
    lex (ascii "\"\\\n\" a") = .ok [⟨.stringLit, ascii "\\\n", 1, 3, 1, 2⟩,
      ⟨.ident, ascii "a", 5, 6, 1, 6⟩, ⟨.eof, [], 6, 6, 1, 7⟩] := by
  decide +kernel

/-- The identifier behind the string is on the second line, and the lexer says it is on the first. -/
theorem lex_escaped_newline :
    ∃ source tokens, lex source = .ok tokens ∧ ∃ tok ∈ tokens, ¬ Positioned source tok := by
  refine ⟨_, _, lex_escaped, ⟨.ident, ascii "a", 5, 6, 1, 6⟩, by simp, fun h => ?_⟩
  exact absurd h.line (by decide)

end Positions

end Rut.Compiler.Lexer
