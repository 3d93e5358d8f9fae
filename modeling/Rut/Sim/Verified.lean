import Rut.Conn.Request
import Rut.Route.Config.Verified
import Rut.Sim.Matching

/-!
# When the simulator chooses the production route

The simulator and the production dispatcher each take the best of the routes that match. They differ
in what they let match and in how they break the last tie.

* Slashes: the simulator compares bytes, so a pattern with a trailing or doubled slash, or a request
  with a doubled one, is taken literally.
* Boundaries: a pattern may end inside a segment of the request, which the segment trie refuses and
  the radix trie allows.
* Names: of two patterns that differ in the names of parameters only, the simulator takes the first,
  while the segment trie takes the one whose nodes were created first.

None of this matters for a request whose best route is the same in spite of it. `SelectsAlike` says on
the patterns and the request when that is so: a route that matches on one side only has to lose, on
that side, against one that matches on both, and the routes that match on both have to have one winner.
-/

namespace Rut

open Lib List RouteConfig

/-! ## What the engine and the configuration hold -/

/-- The pattern and the method key of a function, which is all that the simulator reads. -/
def RirFunction.route (f : RirFunction) : Str × UInt8 :=
  (f.routePattern, routeMethodKeyFromLegacyChar f.httpMethod)

variable {lookup : Str → Option Nat} {functions : List RirFunction} {engine : Sim.Engine}
  {cfg : RouteConfig}

theorem Sim.compileRoute_eq {f : RirFunction} {r : Sim.CompiledRoute}
    (h : Sim.compileRoute lookup f = some r) : (r.pattern, r.method) = f.route := by
  unfold Sim.compileRoute at h
  split at h
  · cases h
  · split at h
    · cases h
    · cases h
      rfl

theorem Sim.Engine.init_routes (h : Sim.Engine.init functions lookup = some engine) :
    engine.routes.map (fun r => (r.pattern, r.method)) = functions.map RirFunction.route := by
  have hsome : (functions.mapM (compileRoute lookup)).map Engine.mk = some engine := by
    unfold Sim.Engine.init at h
    split at h
    · cases h
    · exact h
  obtain ⟨routes, hroutes, rfl⟩ := Option.map_eq_some_iff.mp hsome
  clear h hsome
  induction functions generalizing routes with
  | nil =>
    cases hroutes
    rfl
  | cons f functions ih =>
    rw [mapM_cons] at hroutes
    simp only [Option.bind_eq_bind, Option.bind_eq_some_iff, Option.pure_def] at hroutes
    obtain ⟨r, hr, rs, hrs, heq⟩ := hroutes
    cases heq
    rw [map_cons, map_cons, compileRoute_eq hr, ih rs hrs]

namespace RouteConfig

/-- The configuration a module is registered in: nothing but its declarative content. -/
structure Fresh (base : RouteConfig) : Prop where
  routes : base.routes = []
  trie : base.trie = .clear
  art : base.artState = .clear
  jit : base.artJitFn = none

/-- The registration of a module is a sequence of `add_jit_handler` calls. -/
theorem registerLoop_spec {lookup : Str → Option Nat} : ∀ {functions : List RirFunction}
    {cfg cfg' : RouteConfig}, registerLoop lookup cfg functions = some cfg' →
    ∃ calls, cfg.addAll calls = some cfg' ∧
      calls.map (fun c => (c.path, c.method)) =
        functions.map (fun f => (cstr f.routePattern, f.httpMethod))
  | [], cfg, cfg', h => by
    cases h
    exact ⟨[], rfl, rfl⟩
  | f :: functions, cfg, cfg', h => by
    rw [registerLoop] at h
    split at h
    · cases h
    split at h
    · cases h
    next addr _ =>
    split at h
    · next cfg₁ hadd =>
      obtain ⟨calls, hcalls, hmap⟩ := registerLoop_spec h
      refine ⟨.jitHandler (cstr f.routePattern) f.httpMethod addr f.needsReqBody :: calls, ?_, ?_⟩
      · rw [addAll, add, hadd]
        exact hcalls
      · rw [map_cons, map_cons, hmap]
        rfl
    · cases h

/-- What a registered module has become. -/
structure Registered (cfg : RouteConfig) (functions : List RirFunction) : Prop where
  built : Built cfg
  routes : cfg.routes.map (fun r => (r.path, r.method)) = functions.map fun f =>
    (cstr f.routePattern, routeMethodKeyFromLegacyChar f.httpMethod)
  valid : ∀ f ∈ functions, routeMethodSlot f.httpMethod ≠ none
  kind : cfg.dispatchKind =
    if needsSegmentAware (functions.map RirFunction.routePattern) then .segmentTrie else .artJit
  jit : cfg.artJitFn = none

theorem registerJitRoutes_spec {base cfg : RouteConfig} {functions : List RirFunction}
    {lookup : Str → Option Nat} (hbase : Fresh base)
    (h : registerJitRoutes base functions lookup = some cfg) : Registered cfg functions := by
  rw [registerJitRoutes, if_neg (by simp [hbase.routes])] at h
  split at h
  · cases h
  next cfg₀ hcfg₀ =>
  have hcfg₀' : Fresh cfg₀ ∧ cfg₀.dispatchKind =
      if needsSegmentAware (functions.map RirFunction.routePattern) then .segmentTrie
      else .artJit := by
    rw [configureRouteDispatch, if_neg (by simp [hbase.routes])] at hcfg₀
    split at hcfg₀
    · cases hcfg₀
    have hnone : ¬ base.routes.length > 0 := by simp [hbase.routes]
    split at hcfg₀
    · next hsel =>
      rw [useSegmentTrie, if_neg hnone] at hcfg₀
      cases hcfg₀
      exact ⟨⟨hbase.routes, hbase.trie, hbase.art, hbase.jit⟩, (if_pos hsel).symm⟩
    · next hsel =>
      rw [useArt, if_neg hnone] at hcfg₀
      cases hcfg₀
      exact ⟨⟨hbase.routes, hbase.trie, hbase.art, hbase.jit⟩, (if_neg hsel).symm⟩
  obtain ⟨hfresh, hkind⟩ := hcfg₀'
  obtain ⟨calls, hcalls, hmap⟩ := registerLoop_spec h
  have hpop := addAll_spec (built_empty hfresh.routes hfresh.trie hfresh.art) hcalls
  refine ⟨hpop.built, ?_, ?_, hpop.kind.trans hkind, hpop.jit.trans hfresh.jit⟩
  · rw [hpop.routes, hfresh.routes, map_nil, nil_append]
    have hkeys := congrArg (List.map fun x : Str × UInt8 =>
      (x.1, routeMethodKeyFromLegacyChar x.2)) hmap
    rw [map_map, map_map] at hkeys
    exact hkeys
  · intro f hf
    have hmem : (cstr f.routePattern, f.httpMethod) ∈ calls.map (fun c => (c.path, c.method)) := by
      rw [hmap]
      exact mem_map.mpr ⟨f, hf, rfl⟩
    obtain ⟨c, hc, hcf⟩ := mem_map.mp hmem
    rw [← (Prod.mk.inj hcf).2]
    exact hpop.valid c hc

end RouteConfig

/-! ## The order of the simulator -/

/-- Depth, number of static segments, mask, method of its own. -/
abbrev SimKey := ℕ ×ₗ ℕ ×ₗ ℕ ×ₗ Bool

/-- One function of a module, for the two selections. -/
structure Candidate where
  pattern : Str
  slot : MethodSlot
  idx : Nat
deriving DecidableEq

def candidate (x : RirFunction × Nat) : Candidate :=
  ⟨x.1.routePattern, (routeMethodSlot x.1.httpMethod).getD 0, x.2⟩

def candidates (functions : List RirFunction) : List Candidate := functions.zipIdx.map candidate

namespace Candidate

def simKey (c : Candidate) : SimKey :=
  toLex ((segments c.pattern).length, toLex ((staticFlags (segments c.pattern)).count true,
    toLex (maskOf (staticFlags (segments c.pattern)), decide (c.slot ≠ 0))))

/-- The function is for the method, and the bytes of its pattern match. -/
def simServes (path : Str) (m : MethodSlot) (c : Candidate) : Bool :=
  piecesMatch (c.pattern.splitOn slash) (path.splitOn slash) && (c.slot = m || c.slot = 0)

/-- What production registers, with the pattern as a C string. -/
def entry {κ : Type} (keyOf : Str → κ) (c : Candidate) : Registration κ :=
  ⟨keyOf (cstr c.pattern), c.slot, UInt16.ofNat c.idx⟩

end Candidate

namespace Sim

def BestRoute.key (b : BestRoute) : SimKey :=
  toLex (b.depth, toLex (b.staticSegments, toLex (b.staticMask, b.methodSpecific)))

/-- What a route offers to the loop of `select_route`. -/
def offer (methodKey : UInt8) (path : Str) (outParamCap : Nat) (x : (Str × UInt8) × Nat) :
    Option BestRoute :=
  if x.1.2 ≠ 0 ∧ x.1.2 ≠ methodKey then none
  else (routeMatchesFrom kMaxRouteParams x.1.1 .segmentStart path {}).map (fun m =>
    ⟨x.2, m.depth, m.staticSegments, m.staticMask, decide (x.1.2 ≠ 0), m.params.take outParamCap⟩)

theorem selectStep_eq (methodKey : UInt8) (path : Str) (cap : Nat) (best : Option BestRoute)
    (ri : CompiledRoute × Nat) :
    selectStep methodKey path cap best ri =
      match offer methodKey path cap ((ri.1.pattern, ri.1.method), ri.2) with
      | some b => List.argAux (fun b c => BestRoute.key c < BestRoute.key b) best b
      | none => best := by
  unfold selectStep offer routeMatches
  by_cases hm : ri.1.method ≠ 0 ∧ ri.1.method ≠ methodKey
  · rw [if_pos hm, if_pos hm]
  rw [if_neg hm, if_neg hm]
  cases routeMatchesFrom kMaxRouteParams ri.1.pattern .segmentStart path {} with
  | none => rfl
  | some m =>
    cases best with
    | none => rfl
    | some b =>
      have hlt : b.key < BestRoute.key ⟨ri.2, m.depth, m.staticSegments, m.staticMask,
          decide (ri.1.method ≠ 0), m.params.take cap⟩ ↔
          m.depth > b.depth ∨
          (m.depth = b.depth ∧ m.staticSegments > b.staticSegments) ∨
          (m.depth = b.depth ∧ m.staticSegments = b.staticSegments ∧
            m.staticMask > b.staticMask) ∨
          (m.depth = b.depth ∧ m.staticSegments = b.staticSegments ∧
            m.staticMask = b.staticMask ∧ decide (ri.1.method ≠ 0) = true ∧
            ¬ b.methodSpecific = true) := by
        simp only [BestRoute.key, Prod.Lex.toLex_lt_toLex, Bool.lt_iff]
        grind
      show (if _ then _ else _) = if _ then _ else _
      by_cases hkey : b.key < BestRoute.key ⟨ri.2, m.depth, m.staticSegments, m.staticMask,
          decide (ri.1.method ≠ 0), m.params.take cap⟩
      · rw [if_pos hkey, if_pos (hlt.mp hkey)]
      · rw [if_neg hkey, if_neg (fun h => hkey (hlt.mpr h))]

/-- The loop of `select_route` keeps the first of the greatest offers. -/
theorem foldl_selectStep (methodKey : UInt8) (path : Str) (cap : Nat) (engine : Engine) :
    engine.routes.zipIdx.foldl (selectStep methodKey path cap) none =
      (((engine.routes.map (fun r => (r.pattern, r.method))).zipIdx).filterMap
        (offer methodKey path cap)).argmax BestRoute.key := by
  rw [zipIdx_map, filterMap_map, List.argmax, foldl_filterMap]
  congr 1
  funext best ri
  rw [selectStep_eq]
  have hoffer : (offer methodKey path cap ∘ Prod.map (fun r => (r.pattern, r.method)) id) ri =
      offer methodKey path cap ((ri.1.pattern, ri.1.method), ri.2) := rfl
  rw [hoffer]
  cases offer methodKey path cap ((ri.1.pattern, ri.1.method), ri.2) <;> rfl

end Sim

/-! ## The simulator's selection -/

/-- The slot of a method as the production dispatcher computes it. -/
def HttpMethod.slot (method : HttpMethod) : MethodSlot :=
  (routeMethodSlot (mapLogMethod method).routeMethodKey).getD 0

theorem HttpMethod.routeMethodSlot_eq (method : HttpMethod) :
    routeMethodSlot (mapLogMethod method).routeMethodKey = some method.slot := by
  cases method <;> rfl

set_option maxRecDepth 8000 in
/-- The simulator's test of the method is the one of the slots. -/
theorem admits_iff {key : UInt8} (h : routeMethodSlot key ≠ none)
    (hkey : routeMethodKeyFromLegacyChar key = key) (method : HttpMethod) :
    (¬ (key ≠ 0 ∧ key ≠ method.routeMethodKey) ↔
      (routeMethodSlot key).getD 0 = method.slot ∨ (routeMethodSlot key).getD 0 = 0) ∧
    (key ≠ 0 ↔ (routeMethodSlot key).getD 0 ≠ 0) := by
  have hall : ∀ n : Fin 256, routeMethodSlot (UInt8.ofFin n) ≠ none →
      routeMethodKeyFromLegacyChar (UInt8.ofFin n) = UInt8.ofFin n → ∀ method ∈
        [HttpMethod.GET, .POST, .PUT, .DELETE, .PATCH, .HEAD, .OPTIONS, .CONNECT, .TRACE, .Unknown],
      (¬ (UInt8.ofFin n ≠ 0 ∧ UInt8.ofFin n ≠ method.routeMethodKey) ↔
        (routeMethodSlot (UInt8.ofFin n)).getD 0 = method.slot ∨
          (routeMethodSlot (UInt8.ofFin n)).getD 0 = 0) ∧
      (UInt8.ofFin n ≠ 0 ↔ (routeMethodSlot (UInt8.ofFin n)).getD 0 ≠ 0) := by
    decide
  exact hall key.toFin h hkey method (by cases method <;> simp)

theorem pairwise_candidates (functions : List RirFunction) :
    (candidates functions).Pairwise fun a b => a.idx < b.idx := by
  rw [candidates, pairwise_map, pairwise_iff_getElem]
  intro i j hi hj hij
  simpa [candidate] using hij

theorem simulatedRoute_eq (hreg : cfg.Registered functions)
    (hinit : Sim.Engine.init functions lookup = some engine) (method : HttpMethod) (target : Str) :
    Sim.simulatedRoute engine method target =
      (((candidates functions).filter (Candidate.simServes (Sim.visiblePath target) method.slot)).argmax
        Candidate.simKey).map Candidate.idx := by
  have hsel : Sim.simulatedRoute engine method target =
      ((engine.routes.zipIdx.foldl (Sim.selectStep method.routeMethodKey (Sim.visiblePath target)
        kMaxRouteParams) none)).map Sim.BestRoute.idx := by
    rw [Sim.simulatedRoute, Sim.selectRoute, Option.map_map]
    rfl
  rw [hsel, Sim.foldl_selectStep, Sim.Engine.init_routes hinit, zipIdx_map, filterMap_map]
  apply argmax_filterMap_eq
  rintro ⟨f, i⟩ hx
  have hf : f ∈ functions := fst_mem_of_mem_zipIdx hx
  have hslot : routeMethodSlot (routeMethodKeyFromLegacyChar f.httpMethod) ≠ none := by
    rw [routeMethodSlot_key]
    exact hreg.valid f hf
  obtain ⟨hadm, hspec⟩ := admits_iff hslot
    (routeMethodKeyFromLegacyChar_idem f.httpMethod) method
  rw [routeMethodSlot_key] at hadm hspec
  have hmatch := Sim.routeMatchesFrom_eq kMaxRouteParams f.routePattern (Sim.visible_visiblePath target)
  have hserves : Candidate.simServes (Sim.visiblePath target) method.slot (candidate (f, i)) = true ↔
      piecesMatch (f.routePattern.splitOn slash) ((Sim.visiblePath target).splitOn slash) = true ∧
        ((routeMethodSlot f.httpMethod).getD 0 = method.slot ∨
          (routeMethodSlot f.httpMethod).getD 0 = 0) := by
    rw [Candidate.simServes, Bool.and_eq_true, Bool.or_eq_true]
    exact and_congr_right' (or_congr decide_eq_true_iff decide_eq_true_iff)
  show (Sim.offer _ _ _ (f.route, i)).map _ = _
  unfold Sim.offer RirFunction.route
  by_cases hm : routeMethodKeyFromLegacyChar f.httpMethod ≠ 0 ∧
      routeMethodKeyFromLegacyChar f.httpMethod ≠ method.routeMethodKey
  · rw [if_pos hm, if_neg fun h => hadm.mpr (hserves.mp h).2 hm]
    rfl
  · rw [if_neg hm]
    split at hmatch
    · next hpieces =>
      obtain ⟨m, hm', hof⟩ := hmatch
      rw [hm', if_pos (hserves.mpr ⟨hpieces, hadm.mp hm⟩)]
      show some (toLex (m.depth, toLex (m.staticSegments, toLex (m.staticMask,
        decide (routeMethodKeyFromLegacyChar f.httpMethod ≠ 0)))), i) = _
      rw [hof.depth, hof.staticSegments, hof.staticMask, decide_eq_decide.mpr hspec]
      rfl
    · next hpieces =>
      rw [hmatch, if_neg fun h => hpieces (hserves.mp h).1]
      rfl

/-! ## The production selection -/

/-- The dispatcher looks at the functions in the same order. -/
theorem registered_eq (hreg : cfg.Registered functions) {κ : Type} (keyOf : Str → κ) :
    registered keyOf cfg.routes = (candidates functions).map (Candidate.entry keyOf) := by
  have hroutes : registered keyOf cfg.routes =
      (cfg.routes.map fun r => (r.path, r.method)).zipIdx.map fun x =>
        ⟨keyOf x.1.1, (routeMethodSlot x.1.2).getD 0, UInt16.ofNat x.2⟩ := by
    rw [zipIdx_map, map_map, registered, mapIdx_eq_zipIdx_map]
    rfl
  rw [hroutes, hreg.routes, zipIdx_map, candidates, map_map, map_map]
  refine map_congr_left fun x _ => ?_
  exact congrArg (fun slot => Registration.mk (keyOf (cstr x.1.routePattern)) (slot.getD 0)
    (UInt16.ofNat x.2)) (routeMethodSlot_key _)

theorem map_argmax_registered (hreg : cfg.Registered functions) {κ γ : Type} [LinearOrder γ]
    (keyOf : Str → κ) (p : Registration κ → Bool) (key : Registration κ → γ) :
    (((registered keyOf cfg.routes).filter p).argmax key).map (fun e => e.routeIdx.toNat) =
      (((candidates functions).filter (p ∘ Candidate.entry keyOf)).argmax
        (key ∘ Candidate.entry keyOf)).map Candidate.idx := by
  rw [registered_eq hreg, filter_map, argmax_map, Option.map_map]
  refine Option.map_congr fun c hc => ?_
  obtain ⟨x, hx, rfl⟩ := mem_map.mp (mem_of_mem_filter (argmax_mem hc))
  have hlen : cfg.routes.length = functions.length := by
    simpa using congrArg List.length hreg.routes
  have hlt : (candidate x).idx < functions.length := (mem_zipIdx' hx).1
  exact toNat_ofNat_position hreg.built.size (by omega)

namespace Candidate

/-- The segment trie matches nothing but targets that start with a slash. -/
def trieServes (target : Str) (m : MethodSlot) (c : Candidate) : Bool :=
  target.head? = some slash && serves (segments (Sim.visiblePath target)) m (c.entry segments)

def artServes (target : Str) (m : MethodSlot) (c : Candidate) : Bool :=
  target.head? = some slash &&
    bytePrefixServes (canonicalizeRequest target) m (c.entry finalizePathCanonical)

/-- The order of the segment trie for the functions `cs` of a module. -/
def trieKey (cs : List Candidate) (c : Candidate) :=
  routeKey (cs.map (Candidate.entry segments)) (c.entry segments)

def artKey (c : Candidate) : ℕ ×ₗ Bool := Rut.artKey (c.entry finalizePathCanonical)

end Candidate

theorem matchTarget_eq_trie (hreg : cfg.Registered functions) (hkind : cfg.dispatchKind = .segmentTrie)
    (method : HttpMethod) (target : Str) :
    cfg.matchTarget target (mapLogMethod method).routeMethodKey = some
      ((((candidates functions).filter (Candidate.trieServes target method.slot)).argmax
        (Candidate.trieKey (candidates functions))).map Candidate.idx) := by
  by_cases horigin : target.head? = some slash
  · have hreq : segments (canonicalizeRequest target) = segments (Sim.visiblePath target) :=
      segments_finalizePathCanonical _
    rw [matchTarget_trie hreg.built hkind horigin, method.routeMethodSlot_eq,
      Option.bind_some, hreq, bestRoute, map_argmax_registered hreg, registered_eq hreg]
    unfold Candidate.trieServes
    rw [decide_eq_true horigin]
    rfl
  · rw [matchTarget, if_pos horigin]
    unfold Candidate.trieServes
    simp [horigin]

theorem matchTarget_eq_art (hreg : cfg.Registered functions) (hkind : cfg.dispatchKind = .artJit)
    (method : HttpMethod) (target : Str) :
    cfg.matchTarget target (mapLogMethod method).routeMethodKey = some
      ((((candidates functions).filter (Candidate.artServes target method.slot)).argmax
        Candidate.artKey).map Candidate.idx) := by
  by_cases horigin : target.head? = some slash
  · rw [matchTarget_art hreg.built hkind hreg.jit horigin, method.routeMethodSlot_eq,
      Option.bind_some, map_argmax_registered hreg]
    unfold Candidate.artServes
    rw [decide_eq_true horigin]
    rfl
  · rw [matchTarget, if_pos horigin]
    unfold Candidate.artServes
    simp [horigin]

/-! ## The two selections -/

/-- The functions of a module that match a request only by their bytes, or only for the dispatcher the
module gets, are all behind one that matches both ways; and the ones that match both ways, which the
dispatcher may rank differently because of the names of their parameters, have one that is first in
both orders. -/
def SelectsAlike (functions : List RirFunction) (method : HttpMethod) (target : Str) : Prop :=
  let cs := candidates functions
  let simServes := Candidate.simServes (Sim.visiblePath target) method.slot
  let simBelow := Below Candidate.simKey Candidate.idx
  if needsSegmentAware (functions.map RirFunction.routePattern) then
    Concordant cs simServes (Candidate.trieServes target method.slot) simBelow
      (Below (Candidate.trieKey cs) Candidate.idx)
  else
    Concordant cs simServes (Candidate.artServes target method.slot) simBelow
      (Below Candidate.artKey Candidate.idx)

/-- For every module and every request: the simulator selects the function that the production
dispatcher selects, or neither selects one, exactly when the patterns of the module and the request
are such that both select alike. -/
theorem simulatedRoute_eq_matchTarget_iff (functions : List RirFunction)
    {base cfg : RouteConfig} {engine : Sim.Engine} {lookup lookup' : Str → Option Nat}
    (hbase : base.Fresh) (hreg : base.registerJitRoutes functions lookup = some cfg)
    (hinit : Sim.Engine.init functions lookup' = some engine)
    (method : HttpMethod) (target : Str) :
    cfg.matchTarget target (mapLogMethod method).routeMethodKey =
        some (Sim.simulatedRoute engine method target) ↔ SelectsAlike functions method target := by
  have hR := registerJitRoutes_spec hbase hreg
  have hpos := pairwise_candidates functions
  rw [simulatedRoute_eq hR hinit]
  unfold SelectsAlike
  dsimp only
  split
  · next hsel =>
    have hkind : cfg.dispatchKind = .segmentTrie := hR.kind.trans (if_pos hsel)
    rw [matchTarget_eq_trie hR hkind, Option.some_inj, eq_comm]
    exact map_argmax_eq_iff hpos
  · next hsel =>
    have hkind : cfg.dispatchKind = .artJit := hR.kind.trans (if_neg hsel)
    rw [matchTarget_eq_art hR hkind, Option.some_inj, eq_comm]
    exact map_argmax_eq_iff hpos

/-- A parameter for `GET`, a static route beside it, one that ends inside the first segment of both, and
the root. -/
def sampleModule : List RirFunction :=
  [⟨ascii "user", ascii "/users/:id", 1, false⟩, ⟨ascii "me", ascii "/users/me", 0, false⟩,
    ⟨ascii "us", ascii "/us", 0, false⟩, ⟨ascii "root", ascii "/", 0, true⟩]

set_option maxRecDepth 8000 in
/-- The route that matches by its bytes only is behind the one that is selected. -/
theorem simulatedRoute_eq_matchTarget_iff_sampleModule :
    ∃ cfg engine, registerJitRoutes {} sampleModule (fun _ => some 1) = some cfg ∧
      Sim.Engine.init sampleModule (fun _ => some 1) = some engine ∧
      Sim.simulatedRoute engine .GET (ascii "/users/me/?full") = some 1 ∧
      SelectsAlike sampleModule .GET (ascii "/users/me/?full") := by
  have hreg : (registerJitRoutes {} sampleModule (fun _ => some 1)).isSome = true := by
    decide
  have hinit : (Sim.Engine.init sampleModule (fun _ => some 1)).isSome = true := by decide
  obtain ⟨cfg, hreg⟩ := Option.isSome_iff_exists.mp hreg
  obtain ⟨engine, hinit⟩ := Option.isSome_iff_exists.mp hinit
  have hmatch : (registerJitRoutes {} sampleModule (fun _ => some 1)).bind
      (·.matchTarget (ascii "/users/me/?full") 1) = some (some 1) := by decide
  have hsim : (Sim.Engine.init sampleModule (fun _ => some 1)).map
      (Sim.simulatedRoute · .GET (ascii "/users/me/?full")) = some (some 1) := by decide
  rw [hreg] at hmatch
  rw [hinit] at hsim
  have hsim' : Sim.simulatedRoute engine .GET (ascii "/users/me/?full") = some 1 :=
    Option.some.inj hsim
  refine ⟨cfg, engine, hreg, hinit, hsim', ?_⟩
  apply (simulatedRoute_eq_matchTarget_iff sampleModule ⟨rfl, rfl, rfl, rfl⟩ hreg hinit .GET _).mp
  rw [hsim']
  exact hmatch

set_option maxRecDepth 8000 in
/-- Where the two selections part: a pattern that ends inside a segment hides the one that covers
it, a trailing slash is taken literally, and parameters under two names are ordered differently. -/
theorem simulatedRoute_ne_matchTarget :
    (let fns : List RirFunction :=
        [⟨ascii "f", ascii "/a", 0, false⟩, ⟨ascii "g", ascii "/ab", 0, false⟩];
      (registerJitRoutes {} fns (fun _ => some 1)).bind
          (·.matchTarget (ascii "/ab") 1) = some (some 1) ∧
        (Sim.Engine.init fns (fun _ => some 1)).map
          (Sim.simulatedRoute · .GET (ascii "/ab")) = some (some 0)) ∧
    (let fns : List RirFunction := [⟨ascii "f", ascii "/api/", 0, false⟩];
      (registerJitRoutes {} fns (fun _ => some 1)).bind
          (·.matchTarget (ascii "/api") 1) = some (some 0) ∧
        (Sim.Engine.init fns (fun _ => some 1)).map
          (Sim.simulatedRoute · .GET (ascii "/api")) = some none) ∧
    (let fns : List RirFunction :=
        [⟨ascii "f", ascii "/:a/z", 0, false⟩, ⟨ascii "g", ascii "/:b/x", 0, false⟩,
          ⟨ascii "h", ascii "/:a/x", 0, false⟩];
      (registerJitRoutes {} fns (fun _ => some 1)).bind
          (·.matchTarget (ascii "/1/x") 1) = some (some 2) ∧
        (Sim.Engine.init fns (fun _ => some 1)).map
          (Sim.simulatedRoute · .GET (ascii "/1/x")) = some (some 1)) := by
  decide

end Rut
