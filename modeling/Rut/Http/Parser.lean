import Rut.Lib.Incremental
import Rut.Route.Basic

/-!
# The HTTP parsers

A translation of `http_parser.cc`: the single-pass parsers for request and response heads. Both read
a start line and then header lines up to a blank one, directly from the buffer received so far:

    HttpParser.parse           request line, headers, framing and `keep_alive`
    HttpResponseParser.parse   status line, headers, framing and `keep_alive`

Positions are suffixes of the buffer here. `(u32)-1` is `none`, and the label `maybe_incomplete` is
the exit `unsure`, which the presence of a blank line in the buffer turns into an error.
-/

namespace Rut

open Lib.Incremental

def cr : UInt8 := 0x0d

def lf : UInt8 := 0x0a

def space : UInt8 := 0x20

def tab : UInt8 := 0x09

def comma : UInt8 := 0x2c

/-! ## Scanners -/

/-- Token characters (RFC 7230 §3.2.6). -/
def kTokenTable (b : UInt8) : Bool :=
  (0x30 ≤ b && b ≤ 0x39) || (0x41 ≤ b && b ≤ 0x5a) || (0x61 ≤ b && b ≤ 0x7a) ||
    (ascii "!#$%&'*+-.^_`|~").contains b

/-- Visible ASCII, space, tab and the high bytes. -/
def kHeaderValueTable (b : UInt8) : Bool := b = tab || (0x20 ≤ b && b ≤ 0x7e) || 0x80 ≤ b

/-- Visible ASCII. -/
def kUriTable (b : UInt8) : Bool := 0x21 ≤ b && b ≤ 0x7e

/-- The distance to the byte `stop`; a byte outside the table before it is `none`. `atEnd` is the
answer when the buffer ends first, counted from there. -/
def scanFor (stop : UInt8) (table : UInt8 → Bool) (atEnd : Option Nat) : Str → Option Nat
  | [] => atEnd
  | b :: rest =>
    if b = stop then some 0
    else if !table b then none
    else (scanFor stop table atEnd rest).map (· + 1)

def scanHeaderName : Str → Option Nat := scanFor colon kTokenTable none

def scanHeaderValue : Str → Option Nat := scanFor cr kHeaderValueTable (some 0)

/-- The loop of `scan_uri`, `pos` bytes into the target; `canonEnd` is set by the first `'?'` or
`'#'`. -/
def scanUriLoop : Str → Nat → Option Nat → Option (Nat × Nat)
  | [], pos, canonEnd => some (pos, canonEnd.getD pos)
  | b :: rest, pos, canonEnd =>
    if b = space then some (pos, canonEnd.getD pos)
    else if !kUriTable b then none
    else scanUriLoop rest (pos + 1)
      (if (b = question || b = hash) && canonEnd.isNone then some pos else canonEnd)

/-- The end of the target and the end of its path part. -/
def scanUri (buf : Str) : Option (Nat × Nat) := scanUriLoop buf 0 none

def findHeaderEndLoop : Str → Nat → Nat
  | [], _ => 0
  | b :: rest, i =>
    if (endMark cr lf).isPrefixOf (b :: rest) then i + 4 else findHeaderEndLoop rest (i + 1)

/-- The offset after the first blank line, 0 if there is none. -/
def findHeaderEnd (buf : Str) : Nat := findHeaderEndLoop buf 0

/-! ## Header lines -/

structure Header where
  name : Str
  value : Str
deriving DecidableEq, Repr

def kMaxHeaders : Nat := 64

/-- `str_ci_eq`, the same length given: equality up to bit 5. -/
def strCiEq (a b : Str) : Bool := a.map (· ||| 0x20) = b.map (· ||| 0x20)

def parseUintLoop : Nat → Str → Option Nat
  | val, [] => some val
  | val, b :: rest =>
    if b < 0x30 || 0x39 < b then none
    else
      let d := b.toNat - 0x30
      if val > (0xFFFFFFFF - d) / 10 then none else parseUintLoop (val * 10 + d) rest

/-- `parse_uint`: a decimal number below `2 ^ 32`. -/
def parseUint (digits : Str) : Option Nat :=
  if digits = [] then none else parseUintLoop 0 digits

def isOws (b : UInt8) : Bool := b = space || b = tab

/-- The tokens of a comma-separated header value. -/
def valueTokens (value : Str) : List Str :=
  (value.splitOnP (fun b => isOws b || b = comma)).filter (· ≠ [])

def headerName : Parser UInt8 Str := fun r =>
  match scanHeaderName r with
  | none => .error .unsure
  | some n => if n = 0 then .error .error else .ok (r.take n, r.drop (n + 1))

def skipOws : Parser UInt8 Unit := fun r =>
  match r with
  | [] => .error .unsure
  | b :: rest =>
    match (if b = space then rest else b :: rest).dropWhile isOws with
    | [] => .error .unsure
    | r' => .ok ((), r')

/-- A header value with the end of its line; trailing white space is trimmed. -/
def headerValue : Parser UInt8 Str := fun r =>
  match scanHeaderValue r with
  | none => .error .error
  | some n =>
    match r.drop n with
    | _ :: b :: rest =>
      if b ≠ lf then .error .error else .ok ((r.take n).rdropWhile isOws, rest)
    | _ => .error .unsure

def headerLine : Parser UInt8 Header := do
  let name ← headerName
  skipOws
  let value ← headerValue
  return ⟨name, value⟩

/-! ## Outcomes -/

/-- `ParseStatus`, with what is filled in on `Complete`. -/
inductive ParseOutcome (α : Type) where
  | complete (parsed : α) (headerEnd : Nat)
  | incomplete
  | error
deriving DecidableEq, Repr

/-- Run a parser on a buffer. `maybe_incomplete` is an error if the buffer has a blank line. -/
def parseHead {α : Type} (p : Parser UInt8 α) (buf : Str) : ParseOutcome α :=
  match p buf with
  | .ok (parsed, rest) => .complete parsed (buf.length - rest.length)
  | .error .error => .error
  | .error .incomplete => .incomplete
  | .error .unsure => if findHeaderEnd buf > 0 then .error else .incomplete

/-! ## Requests -/

inductive HttpVersion where
  | Http10 | Http11
deriving DecidableEq, Repr

/-- A canonical path inside a request target: its offset and its bytes. -/
structure CanonView where
  off : Nat
  text : Str
deriving DecidableEq, Repr

/-- `finalize_path_canonical` with the offset of the result. -/
def finalizePathView (path : Str) : CanonView :=
  ⟨(path.takeWhile (· = slash)).length, finalizePathCanonical path⟩

structure ParsedRequest where
  method : HttpMethod
  path : Str
  /-- `none` is the null view of a target that is not in origin form -/
  pathCanon : Option CanonView
  version : HttpVersion
  headers : List Header := []
  contentLength : Nat := 0
  keepAlive : Bool := false
  chunked : Bool := false
  hasContentLength : Bool := false
deriving DecidableEq, Repr

namespace HttpParser

/-- The methods in the order in which `parse_method_direct` compares them. A literal that does not
fit into the buffer is not a prefix of it. -/
def methodLiterals : List (Str × HttpMethod) :=
  [(ascii "GET ", .GET), (ascii "PUT ", .PUT), (ascii "POST ", .POST), (ascii "HEAD ", .HEAD),
    (ascii "PATCH ", .PATCH), (ascii "TRACE ", .TRACE), (ascii "DELETE ", .DELETE),
    (ascii "OPTIONS ", .OPTIONS), (ascii "CONNECT ", .CONNECT)]

/-- `parse_method_direct`, with the number of bytes read. -/
def parseMethodDirect (buf : Str) : HttpMethod × Nat :=
  match methodLiterals.find? (fun x => x.1.isPrefixOf buf) with
  | some (lit, method) => (method, lit.length)
  | none => (.Unknown, 0)

def requestMethod : Parser UInt8 HttpMethod := fun r =>
  if r.length < 4 then .error .incomplete
  else
    match parseMethodDirect r with
    | (.Unknown, _) => .error .unsure
    | (method, n) => .ok (method, r.drop n)

/-- The request target; only an origin-form target has a canonical path. -/
def requestTarget : Parser UInt8 (Str × Option CanonView) := fun r =>
  match scanUri r with
  | none => .error .error
  | some (n, canonEnd) =>
    if n ≥ r.length then .error .unsure
    else if n = 0 then .error .error
    else .ok ((r.take n,
      if r.head? = some slash then some (finalizePathView (r.take canonEnd)) else none),
      r.drop (n + 1))

def requestVersion : Parser UInt8 HttpVersion := fun r =>
  if r.length < 10 then .error .unsure
  else if (r.drop 8).take 2 ≠ [cr, lf] then .error .error
  else if r.take 8 = ascii "HTTP/1.1" then .ok (.Http11, r.drop 10)
  else if r.take 8 = ascii "HTTP/1.0" then .ok (.Http10, r.drop 10)
  else .error .error

def requestLine : Parser UInt8 ParsedRequest := do
  let method ← requestMethod
  let target ← requestTarget
  let version ← requestVersion
  return {
    method := method, path := target.1, pathCanon := target.2, version := version
    keepAlive := version = .Http11 }

/-- `match_connection`: the last `keep-alive` counts unless a `close` comes first. -/
def matchConnection : List Str → Bool → Bool
  | [], keepAlive => keepAlive
  | tok :: rest, keepAlive =>
    if strCiEq tok (ascii "close") then false
    else matchConnection rest (strCiEq tok (ascii "keep-alive") || keepAlive)

/-- `apply_semantic_header`; `none` is an error. -/
def applySemanticHeader (h : Header) (req : ParsedRequest) : Option ParsedRequest :=
  if strCiEq h.name (ascii "content-length") then
    match parseUint h.value with
    | none => none
    | some n =>
      if req.hasContentLength then if req.contentLength ≠ n then none else some req
      else some { req with contentLength := n, hasContentLength := true }
  else if strCiEq h.name (ascii "connection") then
    some { req with keepAlive := matchConnection (valueTokens h.value) req.keepAlive }
  else if strCiEq h.name (ascii "transfer-encoding") then
    some { req with
      chunked := req.chunked || (valueTokens h.value).any (strCiEq · (ascii "chunked")) }
  else some req

/-- A header line is stored if there is room, and then interpreted. -/
def storeHeader (req : ParsedRequest) (h : Header) : Option ParsedRequest :=
  if req.headers.length ≥ kMaxHeaders then none
  else applySemanticHeader h { req with headers := req.headers ++ [h] }

def requestField (req : ParsedRequest) : Parser UInt8 ParsedRequest := do
  let h ← headerLine
  check (storeHeader req h)

def acceptFraming (req : ParsedRequest) : Option ParsedRequest :=
  if req.chunked && req.hasContentLength then none else some req

def parse (buf : Str) : ParseOutcome ParsedRequest :=
  parseHead (message cr lf requestLine requestField acceptFraming) buf

end HttpParser

/-! ## Responses -/

structure ParsedResponse where
  statusCode : Nat
  headers : List Header := []
  contentLength : Nat := 0
  hasContentLength : Bool := false
  chunked : Bool := false
  keepAlive : Bool
  connectionClose : Bool := false
deriving DecidableEq, Repr

namespace HttpResponseParser

def statusCode : Str → Option Nat
  | [a, b, c] =>
    if (0x30 ≤ a && a ≤ 0x39) && (0x30 ≤ b && b ≤ 0x39) && (0x30 ≤ c && c ≤ 0x39) then
      let code := (a.toNat - 0x30) * 100 + (b.toNat - 0x30) * 10 + (c.toNat - 0x30)
      if code < 100 || 599 < code then none else some code
    else none
  | _ => none

/-- The version digit: whether the connection is kept by default. -/
def versionKeepAlive (digit : UInt8) : Option Bool :=
  if digit = 0x31 then some true else if digit = 0x30 then some false else none

/-- `HTTP/1.x SP NNN`, then anything up to the end of the line. -/
def statusLine : Parser UInt8 ParsedResponse := fun r =>
  if r.length < 12 then .error .incomplete
  else
    match versionKeepAlive (r.getD 7 0), statusCode ((r.drop 9).take 3) with
    | some keepAlive, some code =>
      if r.take 7 ≠ ascii "HTTP/1." ∨ r.getD 8 0 ≠ space then .error .error
      else
        match (r.drop 12).dropWhile (· ≠ cr) with
        | _ :: b :: rest =>
          if b ≠ lf then .error .error
          else .ok ({ statusCode := code, keepAlive := keepAlive }, rest)
        | _ => .error .incomplete
    | _, _ => .error .error

/-- `match_connection_response`: `keep_alive` and `connection_close`. -/
def matchConnection : List Str → Bool × Bool → Bool × Bool
  | [], flags => flags
  | tok :: rest, (keepAlive, connectionClose) =>
    if strCiEq tok (ascii "close") then (false, true)
    else matchConnection rest (strCiEq tok (ascii "keep-alive") || keepAlive, connectionClose)

/-- `apply_semantic_header_response`; `none` is an error. -/
def applySemanticHeader (h : Header) (resp : ParsedResponse) : Option ParsedResponse :=
  if strCiEq h.name (ascii "content-length") then
    match parseUint h.value with
    | none => none
    | some n =>
      if resp.hasContentLength then if resp.contentLength ≠ n then none else some resp
      else some { resp with contentLength := n, hasContentLength := true }
  else if strCiEq h.name (ascii "connection") then
    let flags := matchConnection (valueTokens h.value) (resp.keepAlive, resp.connectionClose)
    some { resp with keepAlive := flags.1, connectionClose := flags.2 }
  else if strCiEq h.name (ascii "transfer-encoding") then
    some { resp with
      chunked := resp.chunked || (valueTokens h.value).any (strCiEq · (ascii "chunked")) }
  else some resp

/-- A header line beyond the capacity is interpreted but not stored. -/
def storeHeader (resp : ParsedResponse) (h : Header) : Option ParsedResponse :=
  applySemanticHeader h
    (if resp.headers.length < kMaxHeaders then { resp with headers := resp.headers ++ [h] } else resp)

def responseField (resp : ParsedResponse) : Parser UInt8 ParsedResponse := do
  let h ← headerLine
  check (storeHeader resp h)

def parse (buf : Str) : ParseOutcome ParsedResponse :=
  parseHead (message cr lf statusLine responseField some) buf

end HttpResponseParser

end Rut
