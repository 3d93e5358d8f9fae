import Rut.Conn.Buffer
import Rut.Http.Parser
import Rut.Route.Config.Responses

/-!
# Responses written by the runtime

A translation of the formatters in `callbacks.cc`. A response is the text that the source writes into
the empty send buffer of the connection, unless it is too long for it.

    formatStaticResponse               a status with its reason phrase as body
    formatResponseWithBody             a status with a body of the route configuration
    formatResponseWithBodyAndHeaders   the same with custom headers, if it fits
-/

namespace Rut

def crlf : Str := [cr, lf]

def statusReason (code : UInt16) : Str :=
  ascii <| match code.toNat with
    | 200 => "OK"
    | 201 => "Created"
    | 204 => "No Content"
    | 301 => "Moved Permanently"
    | 302 => "Found"
    | 304 => "Not Modified"
    | 400 => "Bad Request"
    | 401 => "Unauthorized"
    | 403 => "Forbidden"
    | 404 => "Not Found"
    | 405 => "Method Not Allowed"
    | 429 => "Too Many Requests"
    | 500 => "Internal Server Error"
    | 502 => "Bad Gateway"
    | 503 => "Service Unavailable"
    | _ => "Unknown"

def lastDigit (n : Nat) : UInt8 := 0x30 + UInt8.ofNat (n % 10)

/-- The thresholds of `write_content_length_digits`. -/
def digitThresholds : List Nat :=
  [1000000000, 100000000, 10000000, 1000000, 100000, 10000, 1000, 100, 10]

/-- `write_content_length_digits`: a digit for every threshold that the number reaches, and the last
one. -/
def writeContentLengthDigits (n : Nat) : Str :=
  ((digitThresholds.filter (· ≤ n)).map fun t => lastDigit (n / t)) ++ [lastDigit n]

/-- `HTTP/1.1 NNN reason` -/
def responseStatusLine (code : UInt16) : Str :=
  ascii "HTTP/1.1 " ++
    [lastDigit (code.toNat / 100), lastDigit (code.toNat / 10), lastDigit code.toNat] ++
    [space] ++ statusReason code ++ crlf

def connectionLine (keepAlive : Bool) : Str :=
  ascii (if keepAlive then "Connection: keep-alive" else "Connection: close") ++ crlf

/-- `write_response_headers`, up to and with the blank line. -/
def writeResponseHeaders (code : UInt16) (bodyLen : Nat) (keepAlive : Bool) (contentType : Str) :
    Str :=
  responseStatusLine code ++ ascii "Content-Length: " ++ writeContentLengthDigits bodyLen ++ crlf ++
    (if contentType = [] then [] else ascii "Content-Type: " ++ contentType ++ crlf) ++
    connectionLine keepAlive ++ crlf

def noBodyStatus (code : UInt16) : Bool := code < 200 || code = 204 || code = 304

def formatStaticResponse (code : UInt16) (keepAlive : Bool) : Str :=
  let body := if noBodyStatus code then [] else statusReason code
  writeResponseHeaders code body.length keepAlive [] ++ body

def kDefaultContentType : Str := ascii "text/plain; charset=utf-8"

def formatResponseWithBody (code : UInt16) (body : Str) (keepAlive : Bool) : Str :=
  if noBodyStatus code then formatStaticResponse code keepAlive
  else writeResponseHeaders code body.length keepAlive kDefaultContentType ++ body

/-! ## Custom headers -/

structure ResponseHeaderKV where
  key : Str
  value : Str
deriving DecidableEq, Repr

def ResponseHeaderKV.line (h : ResponseHeaderKV) : Str := h.key ++ ascii ": " ++ h.value ++ crlf

/-- The headers that are written: `Content-Length` is always computed. -/
def emittedHeaders (headers : List ResponseHeaderKV) : List ResponseHeaderKV :=
  headers.filter (fun h => !httpHeaderNameEqCi h.key (ascii "Content-Length"))

/-- The default content type is written for a body of the configuration without its own. -/
def emitDefaultContentType (bodyLen : Nat) (headers : List ResponseHeaderKV)
    (bodyIsFallback : Bool) : Bool :=
  !headers.any (fun h => httpHeaderNameEqCi h.key (ascii "Content-Type")) && bodyLen > 0 &&
    !bodyIsFallback

def digitCountLoop : Nat → Nat → Nat → Nat
  | 0, n, _ => n
  | fuel + 1, n, v => if v ≥ 10 then digitCountLoop fuel (n + 1) (v / 10) else n

/-- `decimal_digit_count` of a 32-bit number. -/
def decimalDigitCount (v : Nat) : Nat := digitCountLoop 10 1 v

/-- The number of bytes `format_response_with_body_and_headers` reckons with. -/
def neededBytes (code : UInt16) (bodyLen : Nat) (headers : List ResponseHeaderKV)
    (keepAlive bodyIsFallback : Bool) : Nat :=
  9 + 3 + 1 + 2 + (statusReason code).length + 16 + decimalDigitCount bodyLen + 2 +
    (if emitDefaultContentType bodyLen headers bodyIsFallback then 41 else 0) +
    ((emittedHeaders headers).map (fun h => h.key.length + 2 + h.value.length + 2)).sum +
    (if keepAlive then 24 else 19) + 2 + bodyLen

/-- The response that `format_response_with_body_and_headers` is about to write. -/
def responseWithBodyAndHeaders (code : UInt16) (body : Str) (headers : List ResponseHeaderKV)
    (keepAlive bodyIsFallback : Bool) : Str :=
  responseStatusLine code ++ ascii "Content-Length: " ++ writeContentLengthDigits body.length ++ crlf ++
    (if emitDefaultContentType body.length headers bodyIsFallback then
      ascii "Content-Type: " ++ kDefaultContentType ++ crlf else []) ++
    (emittedHeaders headers).flatMap ResponseHeaderKV.line ++ connectionLine keepAlive ++ crlf ++ body

/-- A response in the send buffer, and the status and the flag it leaves in the connection. -/
structure Formatted where
  text : Str
  status : UInt16
  keepAlive : Bool
deriving DecidableEq, Repr

/-- `format_response_with_body_and_headers`: the response if it fits into the send buffer, else a
response 500 that closes the connection. -/
def formatResponseWithBodyAndHeaders (code : UInt16) (body : Str) (headers : List ResponseHeaderKV)
    (keepAlive bodyIsFallback : Bool) : Formatted :=
  let body := if noBodyStatus code then [] else body
  if neededBytes code body.length headers keepAlive bodyIsFallback > kSliceSize then
    ⟨formatStaticResponse 500 false, 500, false⟩
  else ⟨responseWithBodyAndHeaders code body headers keepAlive bodyIsFallback, code, keepAlive⟩

/-- `kResponse200` and `kResponse200Close` -/
def kResponse200 (keepAlive : Bool) : Str :=
  ascii "HTTP/1.1 200 OK\r\nContent-Length: 2\r\n" ++ connectionLine keepAlive ++
    ascii "\r\nOK"

def k502 : Str :=
  ascii "HTTP/1.1 502 Bad Gateway\r\nContent-Length: 11\r\nConnection: close\r\n\r\nBad Gateway"

example : formatStaticResponse 502 false = k502 := by decide

end Rut
