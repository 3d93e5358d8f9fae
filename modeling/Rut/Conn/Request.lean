import Rut.Http.Chunked

/-!
# What a connection keeps of a request

A translation of `capture_request_metadata` in `callbacks.cc`. When a request is dispatched, the
connection reads everything it will need of it from the receive buffer:

    method, path, canonical path       for the route and the access log
    body mode, remaining length,       for the body that is still to come
      chunk parser
    initial send length                where the request, as far as received, ends in the buffer

The result depends on the buffer alone, so it is a function of it here.
-/

namespace Rut

open Lib.Scanner

inductive BodyMode where
  | none | contentLength | chunked | untilClose
deriving DecidableEq, Repr

/-- The fields of `ConnectionBase` that describe the current request. -/
structure RequestState where
  method : LogHttpMethod := .Get
  size : Nat := 0
  path : Str := []
  /-- the bytes of the view `req_path_canon`; `none` is the null view -/
  pathCanon : Option Str := none
  headerEnd : Nat := 0
  contentLength : Nat := 0
  initialSendLen : Nat := 0
  malformed : Bool := false
  bodyMode : BodyMode := .none
  bodyRemaining : Nat := 0
  chunkParser : ChunkedParser := {}
deriving DecidableEq, Repr

def kMaxReqPathLen : Nat := 64

/-! ## Methods -/

def mapLogMethod : HttpMethod → LogHttpMethod
  | .GET => .Get
  | .POST => .Post
  | .PUT => .Put
  | .DELETE => .Delete
  | .PATCH => .Patch
  | .HEAD => .Head
  | .OPTIONS => .Options
  | .CONNECT => .Connect
  | .TRACE => .Trace
  | .Unknown => .Other

/-- The method names `parse_log_method_fallback` looks for, in its order. -/
def logMethodNames : List (Str × LogHttpMethod) :=
  [(ascii "GET", .Get), (ascii "POST", .Post), (ascii "PUT", .Put), (ascii "DELETE", .Delete),
    (ascii "PATCH", .Patch), (ascii "HEAD", .Head), (ascii "OPTIONS", .Options),
    (ascii "CONNECT", .Connect), (ascii "TRACE", .Trace)]

/-- `parse_log_method_fallback`, with the length of the method name. -/
def parseLogMethodFallback (data : Str) : LogHttpMethod × Nat :=
  match logMethodNames.find? (fun x => (x.1 ++ [space]).isPrefixOf data) with
  | some (name, method) => (method, name.length)
  | none => (.Other, 0)

/-! ## Paths -/

/-- The copy of a path into `req_path`, which keeps room for a NUL. -/
def copyPath (path : Str) : Str := path.take (kMaxReqPathLen - 1)

/-- The parser's canonical view, moved onto the copy and clamped to it. -/
def rebaseCanon (reqPath : Str) (canon : CanonView) : Str :=
  if canon.off ≥ reqPath.length then []
  else
    (reqPath.drop canon.off).take
      (if canon.off + canon.text.length > reqPath.length then reqPath.length - canon.off
        else canon.text.length)

/-! ## Requests -/

namespace RequestState

/-- How much of the body is in the buffer, of which the header block takes `headerEnd` bytes. -/
def frameBody (q : RequestState) (req : ParsedRequest) (headerEnd : Nat) (body : Str) :
    RequestState :=
  if req.chunked then
    let r := ({} : ChunkedParser).feedAll body
    let malformed := r.verdict = .error
    { q with
      bodyMode := .chunked
      chunkParser := r.state
      malformed := malformed
      initialSendLen := if malformed then 0 else headerEnd + r.count }
  else if req.hasContentLength ∧ req.contentLength > 0 then
    let remaining := if body.length ≥ req.contentLength then 0 else req.contentLength - body.length
    { q with
      bodyMode := .contentLength
      contentLength := req.contentLength
      bodyRemaining := remaining
      initialSendLen := headerEnd + (req.contentLength - remaining) }
  else { q with initialSendLen := headerEnd }

def ofParsed (q : RequestState) (req : ParsedRequest) (headerEnd : Nat) (body : Str) :
    RequestState :=
  let path := copyPath req.path
  let q := { q with
    headerEnd := headerEnd
    method := mapLogMethod req.method
    path := path
    pathCanon := req.pathCanon.map (rebaseCanon path) }
  let q := q.frameBody req headerEnd body
  if q.initialSendLen > 0 then { q with size := q.initialSendLen } else q

/-- Anything else: whatever method and path can be recognised at the front of the buffer. -/
def ofFallback (q : RequestState) (data : Str) : RequestState :=
  let (method, methodLen) := parseLogMethodFallback data
  let q := { q with method := method }
  if methodLen = 0 ∨ methodLen + 1 ≥ data.length then q
  else
    let path := (data.drop (methodLen + 1)).takeWhile (fun b => b ≠ space && b ≠ cr && b ≠ lf)
    if path.head? ≠ some slash then { q with pathCanon := none }
    else { q with
      path := copyPath path
      pathCanon := some (canonicalizeRequest (copyPath path)) }

end RequestState

/-- `capture_request_metadata`. Without a method the path is taken to be `/`. -/
def captureRequestMetadata (recvBuf : Str) : RequestState :=
  let q : RequestState :=
    { method := .Other, size := recvBuf.length, path := [slash], pathCanon := some [] }
  if recvBuf = [] then q
  else
    match HttpParser.parse recvBuf with
    | .complete req headerEnd => q.ofParsed req headerEnd (recvBuf.drop headerEnd)
    | _ => q.ofFallback recvBuf

/-- `kMoreReqBody`, `kHasRemainingBody`: part of the declared body is still to come. -/
def RequestState.bodyPending (q : RequestState) : Bool :=
  (q.bodyMode = .contentLength && q.bodyRemaining > 0) ||
    (q.bodyMode = .chunked && q.chunkParser.state ≠ .complete)

end Rut
