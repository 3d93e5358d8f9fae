import Rut.Route.Config.Basic

/-!
# Response bodies and header sets of a configuration

`add_response_body` and `add_response_header_set` of `route_table.h`, with the validation of header
pairs in `http_header_validation.h`. What is added goes into pools of fixed size; the number of bytes
and entries in use is that of what has been added so far.
-/

namespace Rut

inductive HttpHeaderValidation where
  | Ok | EmptyKey | InvalidKeyChar | InvalidValueChar | ReservedKey
deriving DecidableEq, Repr

def isHttpTchar (c : UInt8) : Bool :=
  (0x30 ≤ c && c ≤ 0x39) || (0x41 ≤ c && c ≤ 0x5a) || (0x61 ≤ c && c ≤ 0x7a) ||
    (ascii "!#$%&'*+-.^_`|~").contains c

def httpHeaderNameEqCi (a b : Str) : Bool :=
  let fold (c : UInt8) : UInt8 := if 0x41 ≤ c ∧ c ≤ 0x5a then c + 0x20 else c
  a.map fold = b.map fold

def isReservedResponseHeaderName (name : Str) : Bool :=
  httpHeaderNameEqCi name (ascii "Content-Length") ||
    httpHeaderNameEqCi name (ascii "Transfer-Encoding") ||
    httpHeaderNameEqCi name (ascii "Connection")

def validateResponseHeader (key value : Str) : HttpHeaderValidation :=
  if key = [] then .EmptyKey
  else if key.any (fun c => !isHttpTchar c) then .InvalidKeyChar
  else if isReservedResponseHeaderName key then .ReservedKey
  else if value.any (fun c => c ≠ 0x09 && (c < 0x20 || c = 0x7f)) then .InvalidValueChar
  else .Ok

namespace RouteConfig

def kMaxResponseBodies : Nat := 128

def kResponseBodyPoolBytes : Nat := 8 * 1024

def kMaxResponseHeaderSets : Nat := 128

def kMaxHeaderPoolEntries : Nat := 512

def kResponseHeaderBytesPoolBytes : Nat := 8 * 1024

def kMaxHeadersPerSet : Nat := 32

def bodyPoolUsed (cfg : RouteConfig) : Nat := (cfg.responseBodies.map List.length).sum

def headerPoolUsed (cfg : RouteConfig) : Nat := (cfg.responseHeaderSets.map List.length).sum

def headerBytes (pairs : List (Str × Str)) : Nat :=
  (pairs.map fun p => p.1.length + p.2.length).sum

def headerBytesPoolUsed (cfg : RouteConfig) : Nat := (cfg.responseHeaderSets.map headerBytes).sum

/-- `add_response_body`: the configuration and the index of the body, counted from 1. -/
def addResponseBody (cfg : RouteConfig) (data : Str) : Option (RouteConfig × Nat) :=
  if cfg.responseBodies.length ≥ kMaxResponseBodies then none
  else if data.length > kResponseBodyPoolBytes - cfg.bodyPoolUsed then none
  else some ({ cfg with responseBodies := cfg.responseBodies ++ [data] },
    cfg.responseBodies.length + 1)

/-- The loop over the pairs: each is valid and none repeats a key of those before it. -/
def headerPairsOk : List (Str × Str) → List (Str × Str) → Bool
  | _, [] => true
  | before, p :: rest =>
    validateResponseHeader p.1 p.2 = .Ok && !before.any (fun q => httpHeaderNameEqCi p.1 q.1) &&
      headerPairsOk (before ++ [p]) rest

/-- `add_response_header_set`, likewise. -/
def addResponseHeaderSet (cfg : RouteConfig) (pairs : List (Str × Str)) :
    Option (RouteConfig × Nat) :=
  if pairs.length = 0 then none
  else if cfg.responseHeaderSets.length ≥ kMaxResponseHeaderSets then none
  else if pairs.length > kMaxHeadersPerSet then none
  else if pairs.length > kMaxHeaderPoolEntries - cfg.headerPoolUsed then none
  else if !headerPairsOk [] pairs then none
  else if headerBytes pairs > kResponseHeaderBytesPoolBytes - cfg.headerBytesPoolUsed then none
  else some ({ cfg with responseHeaderSets := cfg.responseHeaderSets ++ [pairs] },
    cfg.responseHeaderSets.length + 1)

/-! ## What has been accepted -/

variable {cfg cfg' : RouteConfig} {idx : Nat}

theorem length_le_of_addResponseBody {data : Str} (h : cfg.addResponseBody data = some (cfg', idx)) :
    data.length ≤ kResponseBodyPoolBytes := by
  unfold addResponseBody at h
  split at h
  · cases h
  · split at h
    · cases h
    · next hlen => omega

theorem validate_of_headerPairsOk {before pairs : List (Str × Str)}
    (h : headerPairsOk before pairs = true) :
    ∀ p ∈ pairs, validateResponseHeader p.1 p.2 = .Ok := by
  induction pairs generalizing before with
  | nil => simp
  | cons p rest ih =>
    rw [headerPairsOk, Bool.and_eq_true, Bool.and_eq_true, decide_eq_true_eq] at h
    exact List.forall_mem_cons.mpr ⟨h.1.1, ih h.2⟩

theorem of_addResponseHeaderSet {pairs : List (Str × Str)}
    (h : cfg.addResponseHeaderSet pairs = some (cfg', idx)) :
    pairs.length ≤ kMaxHeadersPerSet ∧ ∀ p ∈ pairs, validateResponseHeader p.1 p.2 = .Ok := by
  unfold addResponseHeaderSet at h
  split at h
  · cases h
  split at h
  · cases h
  split at h
  · cases h
  next hcount =>
    split at h
    · cases h
    split at h
    · cases h
    next hok =>
      rw [Bool.not_eq_true', Bool.not_eq_false] at hok
      exact ⟨Nat.le_of_not_lt hcount, validate_of_headerPairsOk hok⟩

end RouteConfig

end Rut
