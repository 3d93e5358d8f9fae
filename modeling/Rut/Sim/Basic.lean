import Rut.Route.Config.Basic

/-!
# The simulator's route selection

A translation of `Engine::init`, `route_matches` and `select_route` of `simulate_engine.cc`, and of
`register_jit_routes` of `compile_to_config.h`, which builds the configuration of the production
dispatcher from the same module.

    Engine.init         one compiled route for each function of the module, in order
    routeMatches        one pattern against one path, byte by byte
    selectRoute         the best of all matching routes, as its position
    registerJitRoutes   the same functions, added to a `RouteConfig`

The machine code of the handlers plays no role here: `lookup` stands for `JitEngine::lookup`, which
finds the address of a symbol.
-/

namespace Rut

/-! ## Modules -/

/-- What the two dispatchers read of a `rir::Function`; `needsReqBody` is the result of
`rir_function_needs_req_body`. -/
structure RirFunction where
  name : Str
  routePattern : Str
  httpMethod : UInt8 := 0
  needsReqBody : Bool := false
deriving DecidableEq, Repr

/-- The bytes of a C string: up to the first NUL. -/
def cstr (s : Str) : Str := s.takeWhile (· ≠ 0)

/-- `format_handler_symbol` into a buffer of 256 bytes. -/
def formatHandlerSymbol (name : Str) : Str := ascii "handler_" ++ name.take (254 - 8)

namespace RouteConfig

/-- The loop of `register_jit_routes`. -/
def registerLoop (lookup : Str → Option Nat) : RouteConfig → List RirFunction → Option RouteConfig
  | cfg, [] => some cfg
  | cfg, fn :: functions =>
    if fn.routePattern.length ≥ RouteEntry.kMaxPathLen then none
    else
      match lookup (cstr (formatHandlerSymbol fn.name)) with
      | none => none
      | some addr =>
        match cfg.addJitHandler (cstr fn.routePattern) fn.httpMethod (some addr)
            fn.needsReqBody with
        | some (cfg', true) => registerLoop lookup cfg' functions
        | _ => none

def registerJitRoutes (cfg : RouteConfig) (functions : List RirFunction)
    (lookup : Str → Option Nat) : Option RouteConfig :=
  if cfg.routes.length ≠ 0 then none
  else
    match cfg.configureRouteDispatch (functions.map RirFunction.routePattern) with
    | none => none
    | some cfg' => registerLoop lookup cfg' functions

end RouteConfig

namespace Sim

/-! ## The engine -/

/-- `Engine::CompiledRoute` -/
structure CompiledRoute where
  method : UInt8 := 0
  pattern : Str := []
  fn : Nat
  needsReqBody : Bool := false
deriving DecidableEq, Repr

structure Engine where
  routes : List CompiledRoute
deriving DecidableEq, Repr

def Engine.kMaxRoutes : Nat := 128

/-- The array `pattern`, with room for the terminating NUL. -/
def CompiledRoute.kPatternSize : Nat := 128

/-- One iteration of the loop of `Engine::init`. -/
def compileRoute (lookup : Str → Option Nat) (fn : RirFunction) : Option CompiledRoute :=
  match lookup (cstr (formatHandlerSymbol fn.name)) with
  | none => none
  | some addr =>
    if fn.routePattern.length ≥ CompiledRoute.kPatternSize then none
    else some ⟨routeMethodKeyFromLegacyChar fn.httpMethod, fn.routePattern, addr, fn.needsReqBody⟩

/-- `Engine::init` for a module whose code has been generated. -/
def Engine.init (functions : List RirFunction) (lookup : Str → Option Nat) : Option Engine :=
  if functions.length > Engine.kMaxRoutes then none
  else (functions.mapM (compileRoute lookup)).map Engine.mk

/-! ## One pattern -/

/-- Where the loop of `route_matches` stands in the pattern. `paramName` is the inner loop that
skips the name of a parameter. -/
inductive PatternPos where
  | segmentStart | inside | paramName
deriving DecidableEq, Repr

/-- What `route_matches` hands out. -/
structure RouteMatch where
  params : List RouteParam := []
  depth : Nat := 0
  staticSegments : Nat := 0
  staticMask : Nat := 0
deriving DecidableEq, Repr

/-- Enter a segment that is not a parameter. -/
def RouteMatch.enterStatic (m : RouteMatch) : RouteMatch :=
  { m with
    depth := m.depth + 1
    staticSegments := m.staticSegments + 1
    staticMask := if m.depth + 1 < 64 then m.staticMask ||| 1 <<< (63 - (m.depth + 1))
      else m.staticMask }

/-- Bind a parameter; beyond the capacity it is matched but not stored. -/
def RouteMatch.bindParam (cap : Nat) (name value : Str) (m : RouteMatch) : RouteMatch :=
  { m with
    depth := m.depth + 1
    params := if m.params.length < cap then m.params ++ [⟨name, value⟩] else m.params }

/-- A byte that ends the value of a parameter. -/
def endsValue (b : UInt8) : Bool := b = slash || b = question || b = hash

/-- The loop of `route_matches` over the rest of the pattern and the rest of the path. -/
def routeMatchesFrom (cap : Nat) : Str → PatternPos → Str → RouteMatch → Option RouteMatch
  | [], _, _, m => some m
  | c :: pattern, pos, path, m =>
    if pos = .paramName ∧ c ≠ slash then routeMatchesFrom cap pattern .paramName path m
    else if pos = .segmentStart ∧ c = colon then
      let value := path.takeWhile (fun b => !endsValue b)
      if value = [] then none
      else routeMatchesFrom cap pattern .paramName (path.drop value.length)
        (m.bindParam cap (pattern.takeWhile (· ≠ slash)) value)
    else
      match path with
      | [] => none
      | b :: path =>
        if b = question ∨ b = hash then none
        else if c ≠ b then none
        else routeMatchesFrom cap pattern (if c = slash then .segmentStart else .inside) path
          (if pos = .segmentStart ∧ c ≠ slash then m.enterStatic else m)

def routeMatches (route : CompiledRoute) (path : Str) (outParamCap : Nat) : Option RouteMatch :=
  routeMatchesFrom outParamCap route.pattern .segmentStart path {}

/-! ## All routes -/

/-- The best route so far: its position and what its match has reported. -/
structure BestRoute where
  idx : Nat
  depth : Nat
  staticSegments : Nat
  staticMask : Nat
  methodSpecific : Bool
  params : List RouteParam
deriving DecidableEq, Repr

/-- One iteration of the loop of `select_route`. -/
def selectStep (methodKey : UInt8) (path : Str) (outParamCap : Nat) (best : Option BestRoute)
    (ri : CompiledRoute × Nat) : Option BestRoute :=
  if ri.1.method ≠ 0 ∧ ri.1.method ≠ methodKey then best
  else
    match routeMatches ri.1 path kMaxRouteParams with
    | none => best
    | some m =>
      let methodSpecific : Bool := ri.1.method ≠ 0
      let candidate : BestRoute := ⟨ri.2, m.depth, m.staticSegments, m.staticMask, methodSpecific,
        m.params.take outParamCap⟩
      match best with
      | none => some candidate
      | some b =>
        if m.depth > b.depth ∨
            (m.depth = b.depth ∧ m.staticSegments > b.staticSegments) ∨
            (m.depth = b.depth ∧ m.staticSegments = b.staticSegments ∧
              m.staticMask > b.staticMask) ∨
            (m.depth = b.depth ∧ m.staticSegments = b.staticSegments ∧
              m.staticMask = b.staticMask ∧ methodSpecific ∧ ¬ b.methodSpecific) then
          some candidate
        else some b

/-- `select_route`: the position of the route and its parameters; `none` is `nullptr`. -/
def selectRoute (engine : Engine) (methodKey : UInt8) (path : Str) (outParamCap : Nat) :
    Option (Nat × List RouteParam) :=
  (engine.routes.zipIdx.foldl (selectStep methodKey path outParamCap) none).map
    (fun b => (b.idx, b.params))

/-- `visible_path_len`: the target up to its query or fragment. -/
def visiblePath (target : Str) : Str := target.takeWhile (fun b => b ≠ question && b ≠ hash)

/-- The function `simulate_one` runs for a captured request, as its position in the module. -/
def simulatedRoute (engine : Engine) (method : HttpMethod) (target : Str) : Option Nat :=
  (selectRoute engine method.routeMethodKey (visiblePath target) kMaxRouteParams).map (·.1)

end Sim
end Rut
