import Rut.Route.Art.Memory
import Rut.Route.Trie.Memory
import Rut.Route.Config.Build
import Rut.Route.Config.Tables

/-!
# Configurations in memory

`RouteConfig` as the arrays it consists of. The path of a route is an array inside its entry, and the
dispatchers point into it. An `add_*` function writes the next entry before it knows whether the
dispatcher has room for the route, so that a call that fails leaves bytes behind, in an entry that is
not counted and that the next call writes again; and a dispatcher that gives up has to leave no
pointer into that entry.

`load` is the configuration that is read in memory. A call depends on memory through `load` only, and
one that fails leaves it as it was; so nothing that is called later can tell (`call_congr`).
-/

namespace Rut

open Lib RouteConfig RouteEntry Function

/-- `RouteEntry` without the array `path`. -/
structure RouteCell where
  pathLen : Nat := 0
  method : UInt8 := 0
  action : RouteAction
  upstreamId : UInt16 := 0
  statusCode : UInt16 := 0
  fn : Option Nat := none
  needsReqBody : Bool := false

/-- The first bytes of the array `path` of entry `i`. -/
def pathView (i len : Nat) : View := ⟨i * kMaxPathLen, len⟩

def RouteCell.resolve (paths : Nat → UInt8) (i : Nat) (c : RouteCell) : RouteEntry where
  path := (pathView i c.pathLen).read paths
  method := c.method
  action := c.action
  upstreamId := c.upstreamId
  statusCode := c.statusCode
  fn := c.fn
  needsReqBody := c.needsReqBody

/-- An entry whose path and method are still to be set. -/
def RouteCell.entry (c : RouteCell) : RouteEntry where
  action := c.action
  upstreamId := c.upstreamId
  statusCode := c.statusCode
  fn := c.fn
  needsReqBody := c.needsReqBody

/-- `paths` are the `path` arrays of all entries, one after the other; what they and the entries that
are not counted hold is arbitrary. -/
structure ConfigMem where
  routes : Arena RouteCell
  paths : Nat → UInt8
  dispatchKind : DispatchKind
  artJitFn : Option (Str → UInt8 → UInt16)
  trie : TrieMem
  artState : ArtMem
  upstreamCount : Nat
  tables : ResponseTables

namespace ConfigMem

def kMaxUpstreams : Nat := 64

def load (m : ConfigMem) : RouteConfig where
  routes := m.routes.live.mapIdx fun i c => c.resolve m.paths i
  dispatchKind := m.dispatchKind
  artJitFn := m.artJitFn
  trie := m.trie.load m.paths
  artState := m.artState.load m.paths
  upstreamCount := m.upstreamCount
  responseBodies := m.tables.bodies
  responseHeaderSets := m.tables.headerSets

/-- `RouteConfig()`, on whatever memory. -/
def start (array : ConfigMem) : ConfigMem where
  routes := { array.routes with used := 0 }
  paths := array.paths
  dispatchKind := .artJit
  artJitFn := none
  trie := array.trie.clear
  artState := array.artState.clear
  upstreamCount := 0
  tables := {}

/-! ## Before the first route -/

/-- `use_art` and `use_segment_trie`. -/
def useDispatch (m : ConfigMem) (kind : DispatchKind) : ConfigMem × Bool :=
  if m.routes.used > 0 then (m, false) else ({ m with dispatchKind := kind }, true)

/-- `add_upstream`; of the target only its index is used here. -/
def addUpstream (m : ConfigMem) : ConfigMem × Option Nat :=
  if m.upstreamCount ≥ kMaxUpstreams then (m, none)
  else ({ m with upstreamCount := m.upstreamCount + 1 }, some m.upstreamCount)

/-- `add_response_body` and `add_response_header_set`. -/
def addResponse (m : ConfigMem) (c : TableCall) : ConfigMem × Option Nat :=
  let s := m.tables.step c
  ({ m with tables := s.1 }, if s.2 = 0 then none else some s.2)

/-! ## Adding routes -/

def dispatchAcceptsPathShape (m : ConfigMem) (path : Str) : Bool :=
  if pathHasParamSegment path then m.dispatchKind = .segmentTrie else true

/-- The path and its length, as far as the loop copies them. -/
def copyPath (m : ConfigMem) (path : Str) : ConfigMem :=
  let i := m.routes.used
  { m with
    routes := m.routes.set i { m.routes.cells i with pathLen := path.length }
    paths := (Arena.append ⟨m.paths, i * kMaxPathLen⟩ path).cells }

/-- The end of the path, and the other fields. -/
def fillEntry (m : ConfigMem) (r : RouteCell) : ConfigMem :=
  let i := m.routes.used
  let len := (m.routes.cells i).pathLen
  { m with
    routes := m.routes.set i { r with pathLen := len }
    paths := update m.paths (i * kMaxPathLen + len) 0 }

/-- The entry is the one behind those that are counted. -/
def populateDispatchState (m : ConfigMem) : Option (ConfigMem × Bool) :=
  let i := m.routes.used
  let r := m.routes.cells i
  let idx := UInt16.ofNat i
  match m.dispatchKind with
  | .artJit =>
    (m.artState.insert m.paths (pathView i r.pathLen) r.method idx).map
      fun s => ({ m with artState := s.1 }, s.2)
  | .segmentTrie =>
    let s := m.trie.insert m.paths (pathView i r.pathLen) r.method idx
    some ({ m with trie := s.1 }, s.2)

/-- `route_count++` -/
def countRoute (m : ConfigMem) : ConfigMem :=
  { m with routes := { m.routes with used := m.routes.used + 1 } }

/-- What the three `add_*` functions share. No path is `nullptr`. -/
def addRoute (m : ConfigMem) (path : Option Str) (method : UInt8) (r : RouteCell) :
    Option (ConfigMem × Bool) :=
  match path with
  | none => some (m, false)
  | some path =>
    if m.routes.used ≥ kMaxRoutes then some (m, false)
    else if !isRoutablePath path then some (m, false)
    else if !m.dispatchAcceptsPathShape path then some (m, false)
    else if !paramCountFits path then some (m, false)
    else
      let methodKey := routeMethodKeyFromLegacyChar method
      if routeMethodSlot methodKey = none then some (m, false)
      else
        let m := m.copyPath (path.take (kMaxPathLen - 1))
        if path.length > kMaxPathLen - 1 then some (m, false)
        else
          match (m.fillEntry { r with method := methodKey }).populateDispatchState with
          | none => none
          | some (m, false) => some (m, false)
          | some (m, true) => some (m.countRoute, true)

def addProxy (m : ConfigMem) (path : Option Str) (method : UInt8) (upstreamId : UInt16) :
    Option (ConfigMem × Bool) :=
  if upstreamId.toNat ≥ m.upstreamCount then some (m, false)
  else m.addRoute path method { action := .proxy, upstreamId := upstreamId }

def addStatic (m : ConfigMem) (path : Option Str) (method : UInt8) (status : UInt16) :
    Option (ConfigMem × Bool) :=
  m.addRoute path method { action := .static, statusCode := status }

def addJitHandler (m : ConfigMem) (path : Option Str) (method : UInt8) (fn : Option Nat)
    (needsReqBody : Bool) : Option (ConfigMem × Bool) :=
  if fn = none then some (m, false)
  else m.addRoute path method { action := .jitHandler, fn := fn, needsReqBody := needsReqBody }

/-! ## Matching -/

/-- `match_canonical`: the position of the entry that is returned, what is read there, and the
parameters. -/
def matchCanonical (m : ConfigMem) (canon : Option Str) (method : UInt8) (outParamCap : Nat) :
    Option (Option (Nat × Option RouteEntry) × List RouteParam) :=
  (m.load.matchCanonical canon method outParamCap).map fun found =>
    (found.1.map fun idx => (idx, m.load.routes[idx]?), found.2)

def matchTarget (m : ConfigMem) (target : Str) (method : UInt8) :
    Option (Option (Nat × Option RouteEntry)) :=
  if target.head? ≠ some slash then some none
  else (m.matchCanonical (some (canonicalizeRequest target))
    (routeMethodKeyFromLegacyChar method) 0).map (·.1)

/-! ## Calls -/

inductive Call where
  | useArt
  | useSegmentTrie
  | installArtJitFn (fn : Str → UInt8 → UInt16)
  | addUpstream
  | addProxy (path : Option Str) (method : UInt8) (upstreamId : UInt16)
  | addStatic (path : Option Str) (method : UInt8) (status : UInt16)
  | addJitHandler (path : Option Str) (method : UInt8) (fn : Option Nat) (needsReqBody : Bool)
  | addResponse (c : TableCall)

/-- What a call returns: nothing is a failure, otherwise an index, or 0 for those that return none. -/
def returned (s : ConfigMem × Bool) : ConfigMem × Option Nat := (s.1, if s.2 then some 0 else none)

def call (m : ConfigMem) : Call → Option (ConfigMem × Option Nat)
  | .useArt => some (returned (m.useDispatch .artJit))
  | .useSegmentTrie => some (returned (m.useDispatch .segmentTrie))
  | .installArtJitFn fn => some ({ m with artJitFn := some fn }, some 0)
  | .addUpstream => some m.addUpstream
  | .addProxy path method upstreamId => (m.addProxy path method upstreamId).map returned
  | .addStatic path method status => (m.addStatic path method status).map returned
  | .addJitHandler path method fn needsReqBody =>
    (m.addJitHandler path method fn needsReqBody).map returned
  | .addResponse c => some (m.addResponse c)

def callAll (m : ConfigMem) (calls : List Call) : Option ConfigMem :=
  calls.foldlM (fun m c => (m.call c).map (·.1)) m

inductive Op where
  | call (c : Call)
  | matchCanonical (canon : Option Str) (method : UInt8) (outParamCap : Nat)
  | matchTarget (target : Str) (method : UInt8)

/-- What a call shows to the outside. -/
inductive Seen where
  | returned (result : Option Nat) (routes : List RouteEntry)
  | found (entry : Option (Option (Nat × Option RouteEntry) × List RouteParam))
  | foundTarget (entry : Option (Option (Nat × Option RouteEntry)))

def observe : ConfigMem → List Op → List Seen
  | _, [] => []
  | m, .call c :: ops =>
    match m.call c with
    | none => []
    | some (m', result) => .returned result m'.load.routes :: observe m' ops
  | m, .matchCanonical canon method cap :: ops =>
    .found (m.matchCanonical canon method cap) :: observe m ops
  | m, .matchTarget target method :: ops => .foundTarget (m.matchTarget target method) :: observe m ops

/-! ## The entry that is not counted -/

variable {m m' : ConfigMem}

/-- Everything but the entries that are not counted is the same. -/
structure SameCounted (m m' : ConfigMem) : Prop where
  used : m'.routes.used = m.routes.used
  cells : ∀ i < m.routes.used, m'.routes.cells i = m.routes.cells i
  paths : ∀ a < m.routes.used * kMaxPathLen, m.paths a = m'.paths a
  rest : m' = { m with routes := m'.routes, paths := m'.paths }

theorem SameCounted.trans {m'' : ConfigMem} (h : SameCounted m m') (h' : SameCounted m' m'') :
    SameCounted m m'' where
  used := h'.used.trans h.used
  cells i hi := (h'.cells i (by rw [h.used]; exact hi)).trans (h.cells i hi)
  paths a ha := (h.paths a ha).trans (h'.paths a (by rw [h.used]; exact ha))
  rest := by
    rw [h'.rest]
    exact congrArg (fun x : ConfigMem => { x with routes := m''.routes, paths := m''.paths }) h.rest

theorem sameCounted_copyPath (m : ConfigMem) (path : Str) : SameCounted m (m.copyPath path) where
  used := rfl
  cells _ hi := update_of_ne (Nat.ne_of_lt hi) ..
  paths a ha := ((Arena.extends_append ⟨m.paths, _⟩ path).keeps a ha).symm
  rest := rfl

theorem sameCounted_fillEntry (m : ConfigMem) (r : RouteCell) : SameCounted m (m.fillEntry r) where
  used := rfl
  cells _ hi := update_of_ne (Nat.ne_of_lt hi) ..
  paths a ha := (update_of_ne (by omega) ..).symm
  rest := rfl

/-- No pointer and no counted entry reaches into the entries that are not counted. -/
structure Sound (m : ConfigMem) : Prop where
  built : Built m.load
  fresh : m.routes.used = 0 → m.load.trie = .clear ∧ m.load.artState = .clear
  trie : m.trie.Within (m.routes.used * kMaxPathLen)
  art : m.artState.Within (m.routes.used * kMaxPathLen)
  fits : ∀ i < m.routes.used, (m.routes.cells i).pathLen < kMaxPathLen

theorem below_pathView {i n len : Nat} (hi : i < n) (hlen : len < kMaxPathLen) :
    (pathView i len).Below (n * kMaxPathLen) := by
  intro k hk
  have hk : k < len := hk
  have hmul : (i + 1) * kMaxPathLen ≤ n * kMaxPathLen :=
    Nat.mul_le_mul_right _ hi
  rw [Nat.succ_mul] at hmul
  show i * kMaxPathLen + k < _
  omega

/-- So what they hold is not read. -/
theorem Sound.load_eq (h : Sound m) (hsame : SameCounted m m') : m'.load = m.load := by
  have hroutes : m'.load.routes = m.load.routes := by
    apply List.ext_getElem?
    intro i
    show (m'.routes.live.mapIdx _)[i]? = (m.routes.live.mapIdx _)[i]?
    rw [List.getElem?_mapIdx, List.getElem?_mapIdx, Arena.getElem?_live, Arena.getElem?_live,
      hsame.used]
    split
    · next hi =>
      have hpath := (below_pathView hi (h.fits i hi)).read_congr hsame.paths
      rw [hsame.cells i hi]
      simp only [Option.map_some, RouteCell.resolve, hpath]
    · rfl
  have htrie : m'.load.trie = m.load.trie := by
    show m'.trie.load m'.paths = m.trie.load m.paths
    rw [h.trie.load_congr hsame.paths, show m'.trie = m.trie by rw [hsame.rest]]
  have hart : m'.load.artState = m.load.artState := by
    show m'.artState.load m'.paths = m.artState.load m.paths
    rw [h.art.load_congr hsame.paths, show m'.artState = m.artState by rw [hsame.rest]]
  have hrest : m'.load =
      { m.load with
        routes := m'.load.routes, trie := m'.load.trie, artState := m'.load.artState } := by
    rw [hsame.rest]
    rfl
  rw [hrest, hroutes, htrie, hart]

theorem Sound.sameCounted (h : Sound m) (hsame : SameCounted m m') : Sound m' where
  built := h.load_eq hsame ▸ h.built
  fresh hzero := by
    rw [h.load_eq hsame]
    exact h.fresh (hsame.used.symm.trans hzero)
  trie := by
    rw [hsame.used, show m'.trie = m.trie by rw [hsame.rest]]
    exact h.trie
  art := by
    rw [hsame.used, show m'.artState = m.artState by rw [hsame.rest]]
    exact h.art
  fits i hi := by
    rw [hsame.used] at hi
    rw [hsame.cells i hi]
    exact h.fits i hi

/-! ## A call and what is loaded -/

theorem load_populateDispatchState (m : ConfigMem) :
    m.populateDispatchState.map (fun s => (s.1.load, s.2)) =
      m.load.populateDispatchState
        ((m.routes.cells m.routes.used).resolve m.paths m.routes.used) := by
  have hlen : m.load.routes.length = m.routes.used :=
    (List.length_mapIdx ..).trans Arena.length_live
  obtain ⟨routes, paths, kind, jit, trie, art, upstreamCount, tables⟩ := m
  generalize hcfg : load ⟨routes, paths, kind, jit, trie, art, upstreamCount, tables⟩ = cfg at hlen ⊢
  unfold populateDispatchState RouteConfig.populateDispatchState
  rw [hlen]
  subst hcfg
  cases kind with
  | artJit =>
    have hinsert := ArtMem.load_insert paths art
      (pathView routes.used (routes.cells routes.used).pathLen)
      (routes.cells routes.used).method (UInt16.ofNat routes.used)
    have hcfg := congrArg (Option.map fun s => ({ load ⟨routes, paths, .artJit, jit, trie, art,
      upstreamCount, tables⟩ with artState := s.1 }, s.2)) hinsert
    refine Eq.trans ?_ hcfg
    rw [Option.map_map, Option.map_map]
    rfl
  | segmentTrie =>
    have hinsert := TrieMem.load_insert paths trie
      (pathView routes.used (routes.cells routes.used).pathLen)
      (routes.cells routes.used).method (UInt16.ofNat routes.used)
    exact congrArg (fun s : RouteTrie × Bool => some ({ load ⟨routes, paths, .segmentTrie, jit, trie,
      art, upstreamCount, tables⟩ with trie := s.1 }, s.2)) hinsert

/-- Counting the entry that has been written. -/
theorem load_countRoute (m : ConfigMem) :
    m.countRoute.load =
      { m.load with
        routes := m.load.routes ++
          [(m.routes.cells m.routes.used).resolve m.paths m.routes.used] } := by
  have hlive : Arena.live { m.routes with used := m.routes.used + 1 } =
      m.routes.live ++ [m.routes.cells m.routes.used] := by
    show Arena.slice _ 0 (m.routes.used + 1) = _
    rw [Arena.slice_succ, Nat.zero_add]
    rfl
  have hroutes : (Arena.live { m.routes with used := m.routes.used + 1 }).mapIdx
      (fun i c => RouteCell.resolve m.paths i c) =
        m.load.routes ++ [(m.routes.cells m.routes.used).resolve m.paths m.routes.used] := by
    rw [hlive, List.mapIdx_concat, Arena.length_live]
    rfl
  unfold load countRoute
  rw [hroutes]
  rfl

/-- What the dispatcher is handed: the entry that has been written. -/
theorem resolve_written (m : ConfigMem) (path : Str) (r : RouteCell) :
    (((m.copyPath path).fillEntry r).routes.cells m.routes.used).resolve
        ((m.copyPath path).fillEntry r).paths m.routes.used =
      { r.entry with path := path, method := r.method } := by
  have hcell : ((m.copyPath path).fillEntry r).routes.cells m.routes.used =
      { r with pathLen := path.length } := by
    have hlen : ((m.copyPath path).routes.cells m.routes.used).pathLen = path.length :=
      congrArg RouteCell.pathLen (update_self m.routes.used _ m.routes.cells)
    rw [← hlen]
    exact update_self m.routes.used _ (m.copyPath path).routes.cells
  have hpath : (pathView m.routes.used path.length).read ((m.copyPath path).fillEntry r).paths = path := by
    -- The NUL is written behind the path.
    have hlen : ((m.copyPath path).routes.cells m.routes.used).pathLen = path.length :=
      congrArg RouteCell.pathLen (update_self m.routes.used _ m.routes.cells)
    have hread := Arena.slice_append ⟨m.paths, m.routes.used * kMaxPathLen⟩ path
    refine Eq.trans ?_ hread
    apply View.read_congr
    intro i hi
    have hi : i < path.length := hi
    show update (m.copyPath path).paths (m.routes.used * kMaxPathLen +
      ((m.copyPath path).routes.cells m.routes.used).pathLen) 0
        (m.routes.used * kMaxPathLen + i) = _
    rw [hlen, update_of_ne (by omega)]
    rfl
  rw [hcell]
  unfold RouteCell.resolve
  rw [hpath]
  rfl

theorem pathLen_written (m : ConfigMem) (path : Str) (r : RouteCell) :
    (((m.copyPath path).fillEntry r).routes.cells m.routes.used).pathLen = path.length := by
  have hpath := congrArg (List.length ∘ RouteEntry.path) (resolve_written m path r)
  exact (View.length_read ..).symm.trans hpath

/-- Handing the entry to the dispatcher: the pointers it keeps lie in the entries up to this one, and
if it refuses, in those before it. -/
theorem Sound.populateDispatchState (h : Sound m)
    (hlen : (m.routes.cells m.routes.used).pathLen < kMaxPathLen) {ok : Bool}
    (hrun : m.populateDispatchState = some (m', ok)) (n : Nat) (hn : m.routes.used ≤ n)
    (hok : ok = true → m.routes.used < n) :
    m'.trie.Within (n * kMaxPathLen) ∧ m'.artState.Within (n * kMaxPathLen) ∧
      m' = { m with trie := m'.trie, artState := m'.artState } := by
  have hbound : m.routes.used * kMaxPathLen ≤ n * kMaxPathLen :=
    Nat.mul_le_mul_right _ hn
  unfold ConfigMem.populateDispatchState at hrun
  split at hrun
  · obtain ⟨⟨art, ok'⟩, hinsert, heq⟩ := Option.map_eq_some_iff.mp hrun
    obtain ⟨rfl, rfl⟩ := Prod.mk.inj heq
    refine ⟨h.trie.mono hbound, ?_, rfl⟩
    exact (h.art.mono hbound).insert m.paths hinsert fun htrue => below_pathView (hok htrue) hlen
  · obtain ⟨rfl, hres⟩ := Prod.mk.inj (Option.some.inj hrun)
    refine ⟨?_, h.art.mono hbound, rfl⟩
    apply (h.trie.mono hbound).insert
    intro htrue
    have hlt := hok (hres.symm.trans htrue)
    have hmul : (m.routes.used + 1) * kMaxPathLen ≤ n * kMaxPathLen :=
      Nat.mul_le_mul_right _ hlt
    rw [Nat.succ_mul] at hmul
    show m.routes.used * kMaxPathLen + (m.routes.cells m.routes.used).pathLen ≤ _
    omega

theorem length_routes (m : ConfigMem) : m.load.routes.length = m.routes.used :=
  (List.length_mapIdx ..).trans Arena.length_live

/-- The function on memory is the function on what is loaded. -/
theorem addRoute_spec (h : Sound m) (path : Option Str) (method : UInt8) (r : RouteCell) :
    ∃ m' ok, m.addRoute path method r = some (m', ok) ∧ Sound m' ∧ m'.tables = m.tables ∧
      path.elim (some (m.load, false)) (fun p => m.load.addRoute p method r.entry) =
        some (m'.load, ok) := by
  cases path with
  | none => exact ⟨m, false, rfl, h, rfl, rfl⟩
  | some path =>
  show ∃ (m' : ConfigMem) (ok : Bool), _ ∧ _ ∧ _ ∧
    m.load.addRoute path method r.entry = some (m'.load, ok)
  unfold addRoute RouteConfig.addRoute
  dsimp only
  rw [length_routes, show m.load.dispatchAcceptsPathShape path = m.dispatchAcceptsPathShape path from rfl]
  split
  · exact ⟨m, false, rfl, h, rfl, rfl⟩
  next hroom =>
  split
  · exact ⟨m, false, rfl, h, rfl, rfl⟩
  next hroutable =>
  split
  · exact ⟨m, false, rfl, h, rfl, rfl⟩
  split
  · exact ⟨m, false, rfl, h, rfl, rfl⟩
  split
  · exact ⟨m, false, rfl, h, rfl, rfl⟩
  -- The check of the path has seen its end.
  have hlen : path.length < kMaxPathLen := by
    simp only [isRoutablePath, Bool.not_eq_true, Bool.not_eq_false', Bool.and_eq_true,
      decide_eq_true_eq] at hroutable
    exact hroutable.2
  have htake : path.take (kMaxPathLen - 1) = path := List.take_of_length_le (by omega)
  rw [if_neg (by omega), htake]
  set key := routeMethodKeyFromLegacyChar method
  set m₁ := (m.copyPath path).fillEntry { r with method := key } with hm₁
  have hsame : SameCounted m m₁ :=
    (sameCounted_copyPath m path).trans (sameCounted_fillEntry _ _)
  have hused : m₁.routes.used = m.routes.used := rfl
  have h₁ : Sound m₁ := h.sameCounted hsame
  have hload : m₁.load = m.load := h.load_eq hsame
  have hentry := resolve_written m path { r with method := key }
  have hfit : (m₁.routes.cells m₁.routes.used).pathLen < kMaxPathLen :=
    (pathLen_written m path { r with method := key }).trans_lt hlen
  have hpop := load_populateDispatchState m₁
  rw [hload, hused, hentry] at hpop
  change _ = m.load.populateDispatchState { r.entry with path := path, method := key } at hpop
  obtain hf | ⟨cfg, hok, hbuilt, -⟩ := populateDispatchState_spec h.built
    (show m.load.routes.length < kMaxRoutes by rw [length_routes]; exact Nat.not_le.mp hroom)
    { r.entry with path := path, method := key }
  · rw [hf] at hpop ⊢
    obtain ⟨⟨m₂, ok⟩, hrun, heq⟩ := Option.map_eq_some_iff.mp hpop
    obtain ⟨hload₂, rfl⟩ := Prod.mk.inj heq
    obtain ⟨htrie, hart, hrest⟩ := h₁.populateDispatchState hfit hrun m₁.routes.used
      (Nat.le_refl _) nofun
    have hload₂ : m₂.load = m₁.load := hload₂.trans hload.symm
    rw [hrun]
    refine ⟨m₂, false, rfl, ?_, by rw [hrest]; rfl, by rw [hload₂, hload]⟩
    exact {
      built := hload₂ ▸ h₁.built
      fresh := fun hzero => hload₂ ▸ h₁.fresh (by rw [← hzero, hrest])
      trie := by rw [hrest]; exact htrie
      art := by rw [hrest]; exact hart
      fits := by rw [hrest]; exact h₁.fits }
  · rw [hok] at hpop ⊢
    obtain ⟨⟨m₂, ok⟩, hrun, heq⟩ := Option.map_eq_some_iff.mp hpop
    obtain ⟨hload₂, rfl⟩ := Prod.mk.inj heq
    obtain ⟨htrie, hart, hrest⟩ := h₁.populateDispatchState hfit hrun
      (m₁.routes.used + 1) (Nat.le_succ _) fun _ => Nat.lt_succ_self _
    have hroutes₂ : m₂.routes = m₁.routes := by rw [hrest]
    have hpaths₂ : m₂.paths = m₁.paths := by rw [hrest]
    have hcount := load_countRoute m₂
    rw [hroutes₂, hpaths₂, hused, hentry, show m₂.load = cfg from hload₂] at hcount
    rw [hrun]
    refine ⟨_, true, rfl, ?_, by rw [hrest]; rfl, ?_⟩
    · exact {
        built := by
          rw [hcount]
          exact hbuilt
        fresh := nofun
        trie := by
          show m₂.trie.Within ((m₂.routes.used + 1) * _)
          rw [hroutes₂]
          exact htrie
        art := by
          show m₂.artState.Within ((m₂.routes.used + 1) * _)
          rw [hroutes₂]
          exact hart
        fits := by
          intro i hi
          have hi : i < m₂.routes.used + 1 := hi
          rw [hroutes₂] at hi
          show (m₂.routes.cells i).pathLen < _
          rw [hroutes₂]
          obtain hlt | heq := Nat.lt_succ_iff_lt_or_eq.mp hi
          · exact h₁.fits i hlt
          · rw [heq]
            exact hfit }
    · rw [hcount]
      rfl

/-! ## Calls that fail -/

/-- Nothing that is read distinguishes the two. -/
def Same (m m' : ConfigMem) : Prop := m.load = m'.load ∧ m.tables = m'.tables

theorem sound_start (array : ConfigMem) : Sound (start array) where
  built := built_empty rfl (TrieMem.load_clear ..) (ArtMem.load_clear ..)
  fresh _ := ⟨TrieMem.load_clear .., ArtMem.load_clear ..⟩
  trie := TrieMem.within_clear array.trie _
  art := ArtMem.within_clear array.artState _
  fits := nofun

/-- A route that is refused has changed nothing. -/
theorem addRoute_returns (h : Sound m) (path : Option Str) (method : UInt8) (r : RouteCell) :
    ∃ m' ok, m.addRoute path method r = some (m', ok) ∧ Sound m' ∧ (ok = false → Same m' m) := by
  obtain ⟨m', ok, hrun, h', htables, hload⟩ := addRoute_spec h path method r
  refine ⟨m', ok, hrun, h', ?_⟩
  rintro rfl
  refine ⟨?_, htables⟩
  cases path with
  | none => exact (congrArg Prod.fst (Option.some.inj hload)).symm
  | some path =>
    have hload : m.load.addRoute path method r.entry = some (m'.load, false) := hload
    obtain hf | ⟨cfg, hok, -⟩ := RouteConfig.addRoute_spec h.built path method r.entry
    · exact congrArg Prod.fst (Option.some.inj (hload.symm.trans hf))
    · exact absurd (congrArg Prod.snd (Option.some.inj (hload.symm.trans hok))) nofun

theorem addRoute_congr (h : Sound m) (h' : Sound m') (hsame : Same m m') {path : Option Str}
    {method : UInt8} {r : RouteCell} {n n' : ConfigMem} {ok ok' : Bool}
    (hrun : m.addRoute path method r = some (n, ok))
    (hrun' : m'.addRoute path method r = some (n', ok')) : Same n n' ∧ ok = ok' := by
  obtain ⟨x, b, hx, -, htables, hload⟩ := addRoute_spec h path method r
  obtain ⟨x', b', hx', -, htables', hload'⟩ := addRoute_spec h' path method r
  obtain ⟨rfl, rfl⟩ := Prod.mk.inj (Option.some.inj (hrun.symm.trans hx))
  obtain ⟨rfl, rfl⟩ := Prod.mk.inj (Option.some.inj (hrun'.symm.trans hx'))
  rw [hsame.1] at hload
  obtain ⟨hcfg, hok⟩ := Prod.mk.inj (Option.some.inj (hload.symm.trans hload'))
  exact ⟨⟨hcfg, htables.trans (hsame.2.trans htables'.symm)⟩, hok⟩

theorem step_zero {t t' : ResponseTables} {c : TableCall} (h : t.step c = (t', 0)) : t' = t := by
  have hpos : ∀ {x : ResponseTables} {n : Nat}, (x, n + 1) = (t', 0) → False := nofun
  cases c with
  | body data =>
    change t.addResponseBody data = _ at h
    unfold ResponseTables.addResponseBody at h
    split at h
    · exact (congrArg Prod.fst h).symm
    split at h
    · exact (congrArg Prod.fst h).symm
    · exact (hpos h).elim
  | headerSet pairs =>
    change t.addResponseHeaderSet pairs = _ at h
    unfold ResponseTables.addResponseHeaderSet at h
    iterate 6
      split at h
      · exact (congrArg Prod.fst h).symm
    exact (hpos h).elim

/-- Choosing a dispatcher while there is no route. -/
theorem Sound.choose (h : Sound m) (hnone : ¬ m.routes.used > 0) (kind : DispatchKind) :
    Sound { m with dispatchKind := kind } := by
  have hroutes : m.load.routes = [] := by
    apply List.eq_nil_of_length_eq_zero
    rw [length_routes]
    omega
  have hclear := h.fresh (Nat.eq_zero_of_not_pos hnone)
  exact {
    built := built_empty hroutes hclear.1 hclear.2
    fresh := fun _ => hclear
    trie := h.trie
    art := h.art
    fits := h.fits }

/-- The call has returned, and if it has failed nothing is changed. -/
def Kept (m : ConfigMem) (x : Option (ConfigMem × Option Nat)) : Prop :=
  ∃ m' out, x = some (m', out) ∧ Sound m' ∧ (out = none → Same m' m)

theorem kept_returned {x : Option (ConfigMem × Bool)}
    (h : ∃ m' ok, x = some (m', ok) ∧ Sound m' ∧ (ok = false → Same m' m)) :
    Kept m (x.map returned) := by
  obtain ⟨m', ok, rfl, h', hfail⟩ := h
  cases ok with
  | false => exact ⟨m', none, rfl, h', fun _ => hfail rfl⟩
  | true => exact ⟨m', some 0, rfl, h', nofun⟩

theorem Sound.useDispatch (h : Sound m) (kind : DispatchKind) :
    Kept m (some (returned (m.useDispatch kind))) := by
  unfold ConfigMem.useDispatch
  split
  · exact ⟨m, none, rfl, h, fun _ => ⟨rfl, rfl⟩⟩
  · next hnone => exact ⟨_, some 0, rfl, h.choose hnone kind, nofun⟩

/-- Every call returns, and one that fails has changed nothing. -/
theorem call_returns (h : Sound m) (c : Call) : Kept m (m.call c) := by
  have hself : Same m m := ⟨rfl, rfl⟩
  have hbuilt : ∀ {cfg : RouteConfig}, cfg.routes = m.load.routes →
      cfg.dispatchKind = m.load.dispatchKind → cfg.trie = m.load.trie →
      cfg.artState = m.load.artState → Built cfg := by
    intro cfg hroutes hkind htrie hart
    constructor
    · rw [hroutes]
      exact h.built.size
    · rw [hkind, hart, hroutes]
      exact h.built.art
    · rw [hkind, htrie, hroutes]
      exact h.built.trie
  cases c with
  | useArt => exact h.useDispatch .artJit
  | useSegmentTrie => exact h.useDispatch .segmentTrie
  | installArtJitFn fn =>
    refine ⟨_, some 0, rfl, ?_, nofun⟩
    exact ⟨hbuilt rfl rfl rfl rfl, h.fresh, h.trie, h.art, h.fits⟩
  | addUpstream =>
    show Kept m (some m.addUpstream)
    unfold addUpstream
    split
    · exact ⟨m, none, rfl, h, fun _ => hself⟩
    · refine ⟨_, some m.upstreamCount, rfl, ?_, nofun⟩
      exact ⟨hbuilt rfl rfl rfl rfl, h.fresh, h.trie, h.art, h.fits⟩
  | addProxy path method upstreamId =>
    apply kept_returned
    unfold addProxy
    split
    · exact ⟨m, false, rfl, h, fun _ => hself⟩
    · exact addRoute_returns h path method _
  | addStatic path method status => exact kept_returned (addRoute_returns h path method _)
  | addJitHandler path method fn needsReqBody =>
    apply kept_returned
    unfold addJitHandler
    split
    · exact ⟨m, false, rfl, h, fun _ => hself⟩
    · exact addRoute_returns h path method _
  | addResponse c =>
    refine ⟨_, _, rfl, ?_, ?_⟩
    · exact ⟨hbuilt rfl rfl rfl rfl, h.fresh, h.trie, h.art, h.fits⟩
    · intro hout
      have hzero : (m.tables.step c).2 = 0 := by
        by_contra hne
        rw [if_neg hne] at hout
        cases hout
      have hstep : (m.tables.step c).1 = m.tables := step_zero (Prod.ext rfl hzero)
      rw [hstep]
      exact hself

/-- Both calls have returned the same and left what reads the same. -/
def Alike (x x' : Option (ConfigMem × Option Nat)) : Prop :=
  ∀ n n' out out', x = some (n, out) → x' = some (n', out') → Same n n' ∧ out = out'

theorem alike_some {n n' : ConfigMem} (h : Same n n') (out : Option Nat) :
    Alike (some (n, out)) (some (n', out)) := by
  intro y y' a a' hy hy'
  cases hy
  cases hy'
  exact ⟨h, rfl⟩

theorem alike_addRoute (h : Sound m) (h' : Sound m') (hsame : Same m m') (path : Option Str)
    (method : UInt8) (r : RouteCell) :
    Alike ((m.addRoute path method r).map returned) ((m'.addRoute path method r).map returned) := by
  intro n n' out out' hrun hrun'
  obtain ⟨⟨y, ok⟩, hy, heq⟩ := Option.map_eq_some_iff.mp hrun
  obtain ⟨⟨y', ok'⟩, hy', heq'⟩ := Option.map_eq_some_iff.mp hrun'
  obtain ⟨hsame', rfl⟩ := addRoute_congr h h' hsame hy hy'
  cases heq
  cases heq'
  exact ⟨hsame', rfl⟩

/-- A call sees what is loaded and nothing else. -/
theorem call_congr (h : Sound m) (h' : Sound m') (hsame : Same m m') (c : Call) :
    Alike (m.call c) (m'.call c) := by
  have hused : m'.routes.used = m.routes.used := by
    rw [← length_routes, ← length_routes, hsame.1]
  have hcount : m'.upstreamCount = m.upstreamCount :=
    congrArg RouteConfig.upstreamCount hsame.1.symm
  have huse : ∀ kind, Alike (some (returned (m.useDispatch kind)))
      (some (returned (m'.useDispatch kind))) := by
    intro kind
    unfold useDispatch
    rw [hused]
    split
    · exact alike_some hsame none
    · apply alike_some
      exact ⟨congrArg (fun cfg : RouteConfig => { cfg with dispatchKind := kind }) hsame.1, hsame.2⟩
  cases c with
  | useArt => exact huse .artJit
  | useSegmentTrie => exact huse .segmentTrie
  | installArtJitFn fn =>
    apply alike_some
    exact ⟨congrArg (fun cfg : RouteConfig => { cfg with artJitFn := some fn }) hsame.1, hsame.2⟩
  | addUpstream =>
    show Alike (some m.addUpstream) (some m'.addUpstream)
    unfold addUpstream
    rw [hcount]
    split
    · exact alike_some hsame none
    · apply alike_some
      refine ⟨?_, hsame.2⟩
      exact congrArg (fun cfg : RouteConfig => { cfg with upstreamCount := m.upstreamCount + 1 })
        hsame.1
  | addProxy path method upstreamId =>
    show Alike ((m.addProxy path method upstreamId).map returned)
      ((m'.addProxy path method upstreamId).map returned)
    unfold addProxy
    rw [hcount]
    split
    · exact alike_some hsame none
    · exact alike_addRoute h h' hsame path method _
  | addStatic path method status => exact alike_addRoute h h' hsame path method _
  | addJitHandler path method fn needsReqBody =>
    show Alike ((m.addJitHandler path method fn needsReqBody).map returned)
      ((m'.addJitHandler path method fn needsReqBody).map returned)
    unfold addJitHandler
    split
    · exact alike_some hsame none
    · exact alike_addRoute h h' hsame path method _
  | addResponse c =>
    show Alike (some (m.addResponse c)) (some (m'.addResponse c))
    unfold addResponse
    rw [← hsame.2]
    apply alike_some
    refine ⟨?_, rfl⟩
    exact congrArg (fun cfg : RouteConfig => { cfg with
      responseBodies := (m.tables.step c).1.bodies
      responseHeaderSets := (m.tables.step c).1.headerSets }) hsame.1

theorem Same.matchCanonical (h : Same m m') (canon : Option Str) (method : UInt8) (cap : Nat) :
    m.matchCanonical canon method cap = m'.matchCanonical canon method cap := by
  rw [ConfigMem.matchCanonical, ConfigMem.matchCanonical, h.1]

/-- What reads the same matches the same. -/
theorem Same.matchTarget (h : Same m m') (target : Str) (method : UInt8) :
    m.matchTarget target method = m'.matchTarget target method := by
  rw [ConfigMem.matchTarget, ConfigMem.matchTarget, h.matchCanonical]

/-- So no sequence of calls can tell the two apart. -/
theorem observe_congr (h : Sound m) (h' : Sound m') (hsame : Same m m') (ops : List Op) :
    m.observe ops = m'.observe ops := by
  induction ops generalizing m m' with
  | nil => rfl
  | cons op ops ih =>
    cases op with
    | matchCanonical canon method cap =>
      rw [observe, observe, hsame.matchCanonical, ih h h' hsame]
    | matchTarget target method =>
      rw [observe, observe, hsame.matchTarget, ih h h' hsame]
    | call c =>
      obtain ⟨n, out, hrun, hn, -⟩ := call_returns h c
      obtain ⟨n', out', hrun', hn', -⟩ := call_returns h' c
      obtain ⟨hsame', rfl⟩ := call_congr h h' hsame c n n' out out' hrun hrun'
      rw [observe, observe, hrun, hrun']
      dsimp only
      rw [hsame'.1, ih hn hn' hsame']

/-- Every call returns. -/
theorem callAll_returns (h : Sound m) (calls : List Call) :
    ∃ m', m.callAll calls = some m' ∧ Sound m' := by
  induction calls generalizing m with
  | nil => exact ⟨m, rfl, h⟩
  | cons c calls ih =>
    obtain ⟨n, out, hrun, hn, -⟩ := call_returns h c
    obtain ⟨m', hrest, h'⟩ := ih hn
    refine ⟨m', ?_, h'⟩
    rw [callAll, List.foldlM_cons, hrun]
    exact hrest

/-- A lookup returns, and what it returns is an entry that is counted. -/
theorem matchCanonical_returns (h : Sound m) (canon : Option Str) (method : UInt8) (cap : Nat) :
    ∃ found params, m.matchCanonical canon method cap = some (found, params) ∧
      ∀ idx entry, found = some (idx, entry) → idx < m.routes.used ∧ entry = m.load.routes[idx]? := by
  have hpos : ∃ idx params, m.load.matchCanonical canon method cap = some (idx, params) ∧
      ∀ i ∈ idx, i < m.routes.used := by
    cases canon with
    | none => exact ⟨none, [], rfl, nofun⟩
    | some path =>
      have hrange : ∀ {x : Option (UInt16 × List RouteParam)}, x.isSome →
          ∃ idx params, x.map (fun r =>
              (if r.1.toNat ≥ m.load.routes.length then none else some r.1.toNat, r.2)) =
            some (idx, params) ∧ ∀ i ∈ idx, i < m.routes.used := by
        intro x hx
        obtain ⟨⟨i, params⟩, rfl⟩ := Option.isSome_iff_exists.mp hx
        refine ⟨_, params, rfl, ?_⟩
        intro j hj
        split at hj
        · cases hj
        · next hlt =>
          cases hj
          rw [length_routes] at hlt
          exact Nat.not_le.mp hlt
      apply hrange
      cases hk : m.load.dispatchKind with
      | artJit =>
        cases m.load.artJitFn with
        | some fn => rfl
        | none =>
          cases hslot : routeMethodSlotFromKey method with
          | none => simp [ArtTrie.matchCanonicalKey, hslot]
          | some slot =>
            rw [ArtTrie.matchCanonicalKey_eq (h.built.art hk).1 path hslot]
            rfl
      | segmentTrie =>
        rw [RouteTrie.matchKey_of_reached (h.built.trie hk)]
        rfl
  obtain ⟨idx, params, hmatch, hlt⟩ := hpos
  refine ⟨idx.map fun i => (i, m.load.routes[i]?), params, ?_, ?_⟩
  · rw [matchCanonical, hmatch]
    rfl
  · intro i entry hfound
    obtain ⟨j, hj, heq⟩ := Option.map_eq_some_iff.mp hfound
    cases heq
    exact ⟨hlt _ hj, rfl⟩

/-- For every configuration that a sequence of calls leads to, failing ones among them, and every
further call: it returns; every lookup before it returns a counted entry or none; and if it fails,
every lookup finds the same as before, parameters included, and no sequence of later calls can tell
that it was made. -/
theorem observe_of_call_failed (array : ConfigMem) (calls : List Call) (c : Call) :
    ∃ m m' out, (start array).callAll calls = some m ∧ m.call c = some (m', out) ∧
      (∀ canon method cap, ∃ found params, m.matchCanonical canon method cap = some (found, params) ∧
        ∀ idx entry, found = some (idx, entry) →
          idx < m.routes.used ∧ entry = m.load.routes[idx]?) ∧
      (out = none →
        (∀ canon method cap, m'.matchCanonical canon method cap = m.matchCanonical canon method cap) ∧
        (∀ target method, m'.matchTarget target method = m.matchTarget target method) ∧
        ∀ ops, m'.observe ops = m.observe ops) := by
  obtain ⟨m, hrun, h⟩ := callAll_returns (sound_start array) calls
  obtain ⟨m', out, hcall, h', hfail⟩ := call_returns h c
  refine ⟨m, m', out, hrun, hcall, matchCanonical_returns h, fun hout => ?_⟩
  have hsame := hfail hout
  exact ⟨hsame.matchCanonical, hsame.matchTarget, observe_congr h' h hsame⟩

end ConfigMem

end Rut
