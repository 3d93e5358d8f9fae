import Rut.Route.Art.Basic
import Rut.Route.Trie.Basic

/-!
# Route configurations

A translation of `route_select.cc`, of the dispatch part of `route_table.h` and of
`configure_route_dispatch` in `compile_to_config.h`.

    needsSegmentAware    : must this list of paths be served by the segment trie?
    addProxy, addStatic, addJitHandler  : register one route with the chosen dispatcher
    matchCanonical       : the position in `routes` of the route for a canonical path
    matchTarget          : the same for a raw request target

A `const char*` argument is the list of its bytes before the terminating NUL. An outer `none` is a
call that does not return; `Config.Verified` shows that there is none on a built configuration.
-/

namespace Rut

/-! ## Choosing a dispatcher -/

def isStrictBytePrefix (a b : Str) : Bool := a.length < b.length && a.isPrefixOf b

/-- `boundary_sensitive_after_prefix`: the root path is a prefix of everything at a boundary. -/
def boundarySensitiveAfterPrefix (shorter longer : Str) : Bool :=
  shorter ≠ [] && longer[shorter.length]? ≠ some slash

def hasParamSegmentFrom : Bool → Str → Bool
  | _, [] => false
  | atSegmentStart, c :: rest =>
    if c = slash then hasParamSegmentFrom true rest
    else if atSegmentStart && c = colon then true
    else hasParamSegmentFrom false rest

def pathHasParamSegment (path : Str) : Bool := hasParamSegmentFrom true path

/-- The body of the pairwise loop. -/
def boundarySensitivePair (p q : Str) : Bool :=
  let a := finalizePathCanonical p
  let b := finalizePathCanonical q
  if isStrictBytePrefix a b then boundarySensitiveAfterPrefix a b
  else if isStrictBytePrefix b a then boundarySensitiveAfterPrefix b a
  else false

/-- `has_boundary_sensitive_overlap`, over all pairs `i < j`. -/
def hasBoundarySensitiveOverlap : List Str → Bool
  | [] => false
  | p :: paths => paths.any (boundarySensitivePair p) || hasBoundarySensitiveOverlap paths

def needsSegmentAware (paths : List Str) : Bool :=
  paths.any pathHasParamSegment || hasBoundarySensitiveOverlap paths

/-! ## Configurations -/

inductive RouteAction where
  | static | proxy | jitHandler
deriving DecidableEq, Repr

/-- One route. The handler is its code address, `none` for `nullptr`. -/
structure RouteEntry where
  path : Str := []
  method : UInt8 := 0
  action : RouteAction
  upstreamId : UInt16 := 0
  statusCode : UInt16 := 0
  fn : Option Nat := none
  needsReqBody : Bool := false
deriving DecidableEq, Repr

def RouteEntry.kMaxPathLen : Nat := 128

inductive DispatchKind where
  | artJit | segmentTrie
deriving DecidableEq, Repr

structure RouteConfig where
  routes : List RouteEntry := []
  dispatchKind : DispatchKind := .artJit
  artJitFn : Option (Str → UInt8 → UInt16) := none
  trie : RouteTrie := .clear
  artState : ArtTrie := .clear
  upstreamCount : Nat := 0
  /-- `response_bodies`, and the key-value pairs of each of `response_header_sets` -/
  responseBodies : List Str := []
  responseHeaderSets : List (List (Str × Str)) := []

namespace RouteConfig

def kMaxRoutes : Nat := 128

/-- Refused once a route has been added. -/
def useArt (cfg : RouteConfig) : Option RouteConfig :=
  if cfg.routes.length > 0 then none else some { cfg with dispatchKind := .artJit }

def useSegmentTrie (cfg : RouteConfig) : Option RouteConfig :=
  if cfg.routes.length > 0 then none else some { cfg with dispatchKind := .segmentTrie }

/-! ## Adding routes -/

/-- `is_routable_path`: origin-form, no query or fragment, shorter than `kMaxPathLen`. -/
def isRoutablePath (path : Str) : Bool :=
  path.head? = some slash && path.all (fun ch => ch ≠ question && ch ≠ hash) &&
    path.length < RouteEntry.kMaxPathLen

def dispatchAcceptsPathShape (cfg : RouteConfig) (path : Str) : Bool :=
  if pathHasParamSegment path then cfg.dispatchKind = .segmentTrie else true

def paramCountFrom : Bool → Nat → Str → Bool
  | _, _, [] => true
  | atStart, count, c :: rest =>
    if c = slash then paramCountFrom true count rest
    else if atStart && c = colon then
      if count + 1 > kMaxRouteParams then false else paramCountFrom false (count + 1) rest
    else paramCountFrom false count rest

def paramCountFits (path : Str) : Bool := paramCountFrom true 0 path

/-- `populate_dispatch_state`: hand the new route to the chosen dispatcher. -/
def populateDispatchState (cfg : RouteConfig) (r : RouteEntry) : Option (RouteConfig × Bool) :=
  let idx := UInt16.ofNat cfg.routes.length
  match cfg.dispatchKind with
  | .artJit =>
    (cfg.artState.insert r.path r.method idx).map (fun s => ({ cfg with artState := s.1 }, s.2))
  | .segmentTrie =>
    let s := cfg.trie.insert r.path r.method idx
    some ({ cfg with trie := s.1 }, s.2)

/-- What the three `add_*` functions share: the checks of the path and the method, and the
registration of the entry `r` under them. -/
def addRoute (cfg : RouteConfig) (path : Str) (method : UInt8) (r : RouteEntry) :
    Option (RouteConfig × Bool) :=
  if cfg.routes.length ≥ kMaxRoutes then some (cfg, false)
  else if !isRoutablePath path then some (cfg, false)
  else if !cfg.dispatchAcceptsPathShape path then some (cfg, false)
  else if !paramCountFits path then some (cfg, false)
  else
    let methodKey := routeMethodKeyFromLegacyChar method
    if routeMethodSlot methodKey = none then some (cfg, false)
    else
      let r := { r with path := path, method := methodKey }
      match cfg.populateDispatchState r with
      | none => none
      | some (cfg', false) => some (cfg', false)
      | some (cfg', true) => some ({ cfg' with routes := cfg'.routes ++ [r] }, true)

def addProxy (cfg : RouteConfig) (path : Str) (method : UInt8) (upstreamId : UInt16) :
    Option (RouteConfig × Bool) :=
  if upstreamId.toNat ≥ cfg.upstreamCount then some (cfg, false)
  else cfg.addRoute path method { action := .proxy, upstreamId := upstreamId }

def addStatic (cfg : RouteConfig) (path : Str) (method : UInt8) (status : UInt16) :
    Option (RouteConfig × Bool) :=
  cfg.addRoute path method { action := .static, statusCode := status }

def addJitHandler (cfg : RouteConfig) (path : Str) (method : UInt8) (fn : Option Nat)
    (needsReqBody : Bool) : Option (RouteConfig × Bool) :=
  if fn = none then some (cfg, false)
  else cfg.addRoute path method
    { action := .jitHandler, fn := fn, needsReqBody := needsReqBody }

/-! ## Matching -/

/-- `match_canonical`: the position of the matched route and the captured parameters. A null view
is `none` and matches nothing, not even a catch-all route. -/
def matchCanonical (cfg : RouteConfig) (canon : Option Str) (method : UInt8) (outParamCap : Nat) :
    Option (Option Nat × List RouteParam) :=
  match canon with
  | none => some (none, [])
  | some path =>
    let found : Option (UInt16 × List RouteParam) :=
      match cfg.dispatchKind with
      | .artJit =>
        match cfg.artJitFn with
        | some fn => some (fn path method, [])
        | none => (cfg.artState.matchCanonicalKey path method).map (fun idx => (idx, []))
      | .segmentTrie => cfg.trie.matchKey path method outParamCap
    found.map (fun r => (if r.1.toNat ≥ cfg.routes.length then none else some r.1.toNat, r.2))

/-- `RouteConfig::match`: only origin-form targets match. -/
def matchTarget (cfg : RouteConfig) (target : Str) (method : UInt8) : Option (Option Nat) :=
  if target.head? ≠ some slash then some none
  else (cfg.matchCanonical (some (canonicalizeRequest target))
    (routeMethodKeyFromLegacyChar method) 0).map (·.1)

/-! ## Building a configuration -/

/-- A call of one of the `add_*` functions. -/
inductive AddCall where
  | proxy (path : Str) (method : UInt8) (upstreamId : UInt16)
  | static (path : Str) (method : UInt8) (status : UInt16)
  | jitHandler (path : Str) (method : UInt8) (fn : Nat) (needsReqBody : Bool)
deriving DecidableEq, Repr

def AddCall.path : AddCall → Str
  | proxy path _ _ | static path _ _ | jitHandler path _ _ _ => path

def AddCall.method : AddCall → UInt8
  | proxy _ method _ | static _ method _ | jitHandler _ method _ _ => method

def add (cfg : RouteConfig) : AddCall → Option (RouteConfig × Bool)
  | .proxy path method upstreamId => cfg.addProxy path method upstreamId
  | .static path method status => cfg.addStatic path method status
  | .jitHandler path method fn needsReqBody => cfg.addJitHandler path method (some fn) needsReqBody

/-- Add the routes one after the other; a call that fails discards the configuration. -/
def addAll : RouteConfig → List AddCall → Option RouteConfig
  | cfg, [] => some cfg
  | cfg, c :: calls =>
    match cfg.add c with
    | some (cfg', true) => addAll cfg' calls
    | _ => none

/-- `configure_route_dispatch`: pick the dispatcher for the paths about to be added. -/
def configureRouteDispatch (cfg : RouteConfig) (paths : List Str) : Option RouteConfig :=
  if cfg.routes.length ≠ 0 then none
  else if paths.length > kMaxRoutes then none
  else if needsSegmentAware paths then cfg.useSegmentTrie
  else cfg.useArt

end RouteConfig
end Rut
