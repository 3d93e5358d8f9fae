import Rut.Conn.Basic
import Rut.Http.Heads
import Rut.Route.Config.Build

/-!
# The route of a request

A connection does not look up the request target itself. It keeps a copy of the target, of at most 63
bytes, and moves the parser's canonical view onto the copy:

    canonical path      c
    looked up           c.take (63 - number of leading slashes)

So the route is the one of the target if the canonical path ends inside the copy. If it does not, the
two paths are told apart by a configuration with a single route (`exists_route_of_cut`): one that ends
where the copy ends, or one segment later.
-/

namespace Rut

open List RouteConfig HttpParser

/-! ## The copy of the path -/

/-- The canonical path of an origin-form target lies inside the copy that a connection keeps. -/
def KeepsCanon (target : Str) : Prop :=
  target.head? = some slash → (canonicalizeRequest target).length ≤
    kMaxReqPathLen - 1 - (target.takeWhile (· = slash)).length

instance (target : Str) : Decidable (KeepsCanon target) := inferInstanceAs (Decidable (_ → _))

theorem rebaseCanon_copyPath {path text : Str} {off : Nat} (h : text <+: path.drop off) :
    rebaseCanon (copyPath path) ⟨off, text⟩ = text.take (kMaxReqPathLen - 1 - off) := by
  obtain ⟨rest, hrest⟩ := h
  have hlen : text.length + rest.length = path.length - off := by
    rw [← length_append, hrest, length_drop]
  have hcopy : (copyPath path).length = min 63 path.length := length_take
  have hdrop : (copyPath path).drop off = (text ++ rest).take (63 - off) := by
    rw [copyPath, drop_take, hrest]
    rfl
  show _ = text.take (63 - off)
  rw [rebaseCanon]
  dsimp only
  split
  · next hoff =>
    -- the view starts behind the copy
    rcases Nat.lt_or_ge off 63 with h63 | h63
    · rw [length_eq_zero_iff.mp (by omega : text.length = 0), take_nil]
    · rw [Nat.sub_eq_zero_of_le h63, take_zero]
  · next hoff =>
    rw [hdrop, take_take]
    split
    · rw [take_append_of_le_length (by omega)]
      congr 1
      omega
    · rw [take_append_of_le_length (by omega), take_of_length_le (by omega),
        take_of_length_le (by omega)]

theorem take_canonLen (target : Str) : target.take (canonLen target) =
    target.takeWhile (fun b => b ≠ question && b ≠ hash) :=
  (prefix_iff_eq_take.mp (List.takeWhile_prefix _)).symm

theorem takeWhile_slash_takeWhile (target : Str) :
    (target.takeWhile (fun b => b ≠ question && b ≠ hash)).takeWhile (· = slash) =
      target.takeWhile (· = slash) := by
  rw [takeWhile_takeWhile]
  congr 1
  funext b
  by_cases hb : b = slash
  · subst hb
    decide
  · simp [hb]

/-- The canonical path stands behind the leading slashes. -/
theorem canonicalizeRequest_of_append (target : Str) :
    canonicalizeRequest target <+: target.drop (target.takeWhile (· = slash)).length := by
  have hpart := List.takeWhile_prefix (fun b => b ≠ question && b ≠ hash) (l := target)
  have hdrop : ∀ l : Str, l.dropWhile (· = slash) = l.drop (l.takeWhile (· = slash)).length := by
    intro l
    have hsplit := takeWhile_append_dropWhile (p := (· = slash)) (l := l)
    exact (drop_left' rfl).symm.trans (congrArg (List.drop _) hsplit)
  refine (List.rdropWhile_prefix _ _).trans ?_
  rw [hdrop, takeWhile_slash_takeWhile]
  exact hpart.drop _

/-- It ends before the query and the fragment. -/
theorem canonicalizeRequest_text {target : Str} {ch : UInt8} (h : ch ∈ canonicalizeRequest target) :
    ch ≠ question ∧ ch ≠ hash := by
  have hdrop := (List.rdropWhile_prefix (· = slash) _).subset h
  have hpart := (dropWhile_sublist (· = slash)).subset hdrop
  simpa using mem_takeWhile_imp hpart

/-- What the connection looks up, against what the target says. -/
theorem canon_of_targetCanon {target : Str} (h : target.head? = some slash) :
    (targetCanon target).map (rebaseCanon (copyPath target)) =
      some ((canonicalizeRequest target).take
        (kMaxReqPathLen - 1 - (target.takeWhile (· = slash)).length)) := by
  rw [targetCanon, if_pos h, take_canonLen, finalizePathView, takeWhile_slash_takeWhile,
    Option.map_some]
  exact congrArg some (rebaseCanon_copyPath (canonicalizeRequest_of_append target))

namespace RequestState

variable (q : RequestState) (req : ParsedRequest) (headerEnd : Nat) (body : Str)

theorem frameBody_method : (q.frameBody req headerEnd body).method = q.method := by
  rw [frameBody]
  split_ifs <;> rfl

theorem frameBody_pathCanon : (q.frameBody req headerEnd body).pathCanon = q.pathCanon := by
  rw [frameBody]
  split_ifs <;> rfl

theorem ofParsed_method : (q.ofParsed req headerEnd body).method = mapLogMethod req.method := by
  unfold ofParsed
  dsimp only
  split <;> exact frameBody_method ..

theorem ofParsed_pathCanon : (q.ofParsed req headerEnd body).pathCanon =
    req.pathCanon.map (rebaseCanon (copyPath req.path)) := by
  unfold ofParsed
  dsimp only
  split <;> exact frameBody_pathCanon ..

end RequestState

theorem captureRequestMetadata_complete {buf : Str} {req : ParsedRequest} {n : Nat}
    (h : parse buf = .complete req n) :
    (captureRequestMetadata buf).method = mapLogMethod req.method ∧
      (captureRequestMetadata buf).pathCanon = req.pathCanon.map (rebaseCanon (copyPath req.path)) := by
  have hne : buf ≠ [] := by
    rintro rfl
    cases h
  unfold captureRequestMetadata
  rw [if_neg hne, h]
  exact ⟨RequestState.ofParsed_method .., RequestState.ofParsed_pathCanon ..⟩

/-- The method and the canonical path of a request, as the parser reports them. -/
theorem parse_complete_target {buf : Str} {req : ParsedRequest} {n : Nat}
    (h : parse buf = .complete req n) :
    req.method ≠ .Unknown ∧ req.pathCanon = targetCanon req.path := by
  obtain ⟨s, t, ts, rest, f, ⟨lit, hlit, -, -, -, hs⟩, -, -, -, -, -, hreq, -⟩ :=
    parse_complete h
  have hmethod : req.method = s.method := by rw [hreq]; rfl
  constructor
  · rw [hmethod]
    exact (methodLiterals_spec _ hlit).1
  · have hpath : req.path = s.path := by rw [hreq]; rfl
    have hcanon : req.pathCanon = s.pathCanon := by rw [hreq]; rfl
    rw [hcanon, hpath, hs]

/-! ## The lookup does not depend on the room for parameters -/

/-- The key of a parsed method is the same for the connection and for the table. -/
theorem routeMethodKey_mapLogMethod {method : HttpMethod} (h : method ≠ .Unknown) :
    routeMethodKeyFromLegacyChar method.routeMethodKey = (mapLogMethod method).routeMethodKey := by
  cases method <;> first | rfl | exact absurd rfl h

theorem routeMethodSlotFromKey_of_known {method : HttpMethod} (h : method ≠ .Unknown) :
    ∃ m, routeMethodSlotFromKey (routeMethodKeyFromLegacyChar method.routeMethodKey) = some m := by
  cases method <;> first | exact ⟨_, rfl⟩ | exact absurd rfl h

theorem matchCanonical_cap (cfg : RouteConfig) (canon : Option Str) (key : UInt8) (cap cap' : Nat) :
    (cfg.matchCanonical canon key cap).map (·.1) = (cfg.matchCanonical canon key cap').map (·.1) := by
  cases canon with
  | none => rfl
  | some path =>
    unfold matchCanonical
    cases cfg.dispatchKind with
    | artJit => rfl
    | segmentTrie =>
      unfold RouteTrie.matchKey
      cases routeMethodSlotFromKey key with
      | none => rfl
      | some slot => simp only [Option.map_map]; rfl

/-- `canonicalize_request` as a view of the target. -/
def canonicalizeRequestView (target : Str) : CanonView :=
  finalizePathView (target.takeWhile (fun b => b ≠ question && b ≠ hash))

theorem text_canonicalizeRequestView (target : Str) :
    (canonicalizeRequestView target).text = canonicalizeRequest target := rfl

/-- The view that the scan of the request line leaves behind is the one a second pass over the target
would find, and a lookup by it is the lookup by the target. -/
theorem pathCanon_eq_canonicalizeRequest {buf : Str} {req : ParsedRequest} {n : Nat}
    (h : parse buf = .complete req n) :
    req.pathCanon = (if req.path.head? = some slash then some (canonicalizeRequestView req.path)
      else none) ∧
    ∀ (cfg : RouteConfig) (method : UInt8) (cap : Nat),
      (cfg.matchCanonical (req.pathCanon.map (·.text)) (routeMethodKeyFromLegacyChar method) cap).map
        (·.1) = cfg.matchTarget req.path method := by
  have hview : req.pathCanon =
      if req.path.head? = some slash then some (canonicalizeRequestView req.path) else none := by
    rw [(parse_complete_target h).2, targetCanon, take_canonLen]
    rfl
  refine ⟨hview, fun cfg method cap => ?_⟩
  rw [hview, matchTarget]
  by_cases horigin : req.path.head? = some slash
  · rw [if_pos horigin, if_neg (not_not.mpr horigin), Option.map_some,
      text_canonicalizeRequestView]
    exact matchCanonical_cap ..
  · rw [if_neg horigin, if_pos horigin]
    rfl

set_option maxRecDepth 8000 in
theorem pathCanon_eq_canonicalizeRequest_fragment :
    ∃ req n, parse (ascii "GET //a/#/b HTTP/1.1\r\n\r\n") = .complete req n ∧
      req.pathCanon = (if req.path.head? = some slash then some (canonicalizeRequestView req.path)
        else none) ∧
      ∀ (cfg : RouteConfig) (method : UInt8) (cap : Nat),
        (cfg.matchCanonical (req.pathCanon.map (·.text)) (routeMethodKeyFromLegacyChar method)
          cap).map (·.1) = cfg.matchTarget req.path method := by
  have hparse : parse (ascii "GET //a/#/b HTTP/1.1\r\n\r\n") =
      .complete {
        method := .GET, path := ascii "//a/#/b", pathCanon := some ⟨2, ascii "a"⟩, version := .Http11
        keepAlive := true } 24 := by decide
  exact ⟨_, _, hparse, pathCanon_eq_canonicalizeRequest hparse⟩

/-! ## Configurations with a single route -/

/-- In an empty trie every path with few enough segments finds room. -/
theorem insertLoop_leaf : ∀ {segs : List Str} {t : RouteTrie} {cur : Nat},
    cur < t.nodes.length → (t.node cur).children = [] →
    t.nodes.length + segs.length ≤ RouteTrie.kMaxNodes →
    ∃ t' cur', t.insertLoop cur segs = some (t', cur')
  | [], t, cur, _, _, _ => ⟨t, cur, rfl⟩
  | s :: segs, t, cur, hcur, hleaf, hroom => by
    have hnone : t.findChild cur s = none := by
      rw [RouteTrie.findChild, hleaf]
      split <;> rfl
    rw [length_cons] at hroom
    rw [RouteTrie.insertLoop, hnone]
    rw [hleaf, if_neg (by simp [TrieNode.kMaxChildren]; omega)]
    apply insertLoop_leaf
    · rw [RouteTrie.length_appendChild]
      omega
    · rw [RouteTrie.node_appendChild_new hcur]
    · rw [RouteTrie.length_appendChild]
      omega

/-- A path without parameters, and one with a parameter at its end, are within the bound. -/
theorem paramCountFrom_of_static : ∀ {p : Str} (atStart : Bool) (count : Nat),
    hasParamSegmentFrom atStart p = false →
    paramCountFrom atStart count p = true ∧
      (count < kMaxRouteParams →
        paramCountFrom atStart count (p ++ [slash, colon, 'x'.toUInt8]) = true)
  | [], atStart, count, _ => by
    refine ⟨rfl, fun h => ?_⟩
    have hle : ¬ count + 1 > kMaxRouteParams := by omega
    simp [paramCountFrom, hle, slash, colon]
  | c :: p, atStart, count, h => by
    rw [hasParamSegmentFrom] at h
    simp only [cons_append, paramCountFrom]
    split at h
    · next hc =>
      rw [if_pos hc, if_pos hc]
      exact paramCountFrom_of_static true count h
    · next hc =>
      split at h
      · cases h
      · next hcol =>
        rw [if_neg hc, if_neg hc, if_neg hcol, if_neg hcol]
        exact paramCountFrom_of_static false count h

/-- The configuration with one static route for `path`, served by the segment trie. -/
def loneRoute (path : Str) : Option RouteConfig :=
  ({ dispatchKind := .segmentTrie } : RouteConfig).addAll [.static path kRouteMethodAny 200]

theorem loneRoute_isSome {path : Str} (hroutable : isRoutablePath path = true)
    (hparams : paramCountFits path = true)
    (hsegs : (segments path).length ≤ kMaxPathSegments) : (loneRoute path).isSome = true := by
  have hnodes : RouteTrie.clear.nodes.length + ((segments path).take kMaxPathSegments).length ≤
      RouteTrie.kMaxNodes := by
    have : RouteTrie.kMaxNodes = 4097 := rfl
    have : kMaxPathSegments = 64 := rfl
    have : RouteTrie.clear.nodes.length = 1 := rfl
    rw [length_take]
    omega
  have hroot : 0 < RouteTrie.clear.nodes.length := by decide
  obtain ⟨t, cur, hloop⟩ := insertLoop_leaf hroot rfl hnodes
  have hshape : dispatchAcceptsPathShape { dispatchKind := .segmentTrie } path = true := by
    rw [dispatchAcceptsPathShape]
    split <;> rfl
  have hinsert : (RouteTrie.clear.insert path kRouteMethodAny 0).2 = true := by
    rw [RouteTrie.insert, show routeMethodSlot kRouteMethodAny = some 0 from rfl]
    rw [tokenizeSegments_eq]
    dsimp only
    rw [if_neg (by omega), hloop]
  have hpopulate : ∀ r : RouteEntry, r.path = path → r.method = kRouteMethodAny →
      ∃ cfg, populateDispatchState { dispatchKind := .segmentTrie } r =
        some (cfg, true) := by
    rintro r rfl hmethod
    rw [← hinsert, ← hmethod]
    exact ⟨_, rfl⟩
  obtain ⟨cfg, hcfg⟩ := hpopulate
    { path := path, method := kRouteMethodAny, action := .static, statusCode := 200 } rfl rfl
  have hadd : add { dispatchKind := .segmentTrie } (.static path kRouteMethodAny 200) =
      some ({ cfg with routes := cfg.routes ++
        [{ path := path, method := kRouteMethodAny, action := .static, statusCode := 200 }] }, true) := by
    rw [add, addStatic, addRoute, if_neg (by decide), hroutable,
      hshape, hparams]
    simp only [Bool.not_true, Bool.false_eq_true, if_false]
    rw [if_neg (by decide)]
    rw [show routeMethodKeyFromLegacyChar kRouteMethodAny = kRouteMethodAny from rfl, hcfg]
  rw [loneRoute, addAll, hadd]
  rfl

/-- It serves the requests whose segments start with those of the path. -/
theorem route_of_loneRoute {path : Str} {cfg : RouteConfig} (h : loneRoute path = some cfg)
    (canon : Str) {key : UInt8} {m : MethodSlot} (hkey : routeMethodSlotFromKey key = some m)
    (cap : Nat) :
    (cfg.matchCanonical (some canon) key cap).map (·.1) =
      some (if matchesPrefix (segments path) (segments canon) then some 0 else none) := by
  have hpop := addAll_spec (built_empty rfl rfl rfl) h
  obtain ⟨r, hr⟩ := length_eq_one_iff.mp
    (by simpa using congrArg List.length hpop.routes : cfg.routes.length = 1)
  obtain ⟨hpath, hmethod⟩ : r.path = path ∧
      r.method = routeMethodKeyFromLegacyChar kRouteMethodAny := by
    have := hpop.routes
    rw [hr] at this
    simpa [RouteConfig.AddCall.path, RouteConfig.AddCall.method] using this
  have hreg : registered segments cfg.routes = [⟨segments path, 0, 0⟩] := by
    rw [hr, ← hpath]
    simp [registered, RouteEntry.slot, hmethod]
    rfl
  rw [matchCanonical_trie hpop.built hpop.kind, hkey, Option.bind_some, hreg, bestRoute,
    filter_singleton]
  have hserves : serves (segments canon) m ⟨segments path, 0, 0⟩ =
      matchesPrefix (segments path) (segments canon) := by simp [serves]
  rw [hserves]
  cases matchesPrefix (segments path) (segments canon) <;> rfl

theorem hasParamSegmentFrom_of_append : ∀ {p q : Str} {atStart : Bool},
    hasParamSegmentFrom atStart (p ++ q) = false → hasParamSegmentFrom atStart p = false
  | [], _, _, _ => rfl
  | c :: p, q, atStart, h => by
    rw [cons_append, hasParamSegmentFrom] at h
    rw [hasParamSegmentFrom]
    split_ifs at h ⊢ with hc hcol
    · exact hasParamSegmentFrom_of_append h
    · exact hasParamSegmentFrom_of_append h

theorem isRoutablePath_slash {p : Str} (hlen : p.length + 1 < RouteEntry.kMaxPathLen)
    (htext : ∀ ch ∈ p, ch ≠ question ∧ ch ≠ hash) :
    isRoutablePath (slash :: p) = true := by
  have hslash : slash ≠ question ∧ slash ≠ hash := by decide
  simpa [isRoutablePath, hslash, hlen] using htext

set_option maxRecDepth 8000 in
/-- A path and its cut are told apart by one route: where a segment is cut, by the route that ends in
the cut segment, and otherwise by the route that asks for one segment more. -/
theorem exists_route_of_cut {a b : Str} (hlen : a.length ≤ 62) (hb : b ≠ [])
    (hlast : b.getLast? ≠ some slash) (hstatic : pathHasParamSegment (a ++ b) = false)
    (htext : ∀ ch ∈ a, ch ≠ question ∧ ch ≠ hash) :
    ∃ path cfg, loneRoute path = some cfg ∧
      matchesPrefix (segments path) (segments a) ≠
        matchesPrefix (segments path) (segments (a ++ b)) := by
  have hparams := paramCountFrom_of_static true 0 (hasParamSegmentFrom_of_append hstatic)
  have hsegs := length_segments_le_length a
  rcases segments_append_cases (a := a) hb hlast with
    ⟨rest, hrest, hab⟩ | ⟨u, s, t, rest, hs, ht, ha, hab⟩
  · have hpath : segments (slash :: (a ++ [slash, colon, 'x'.toUInt8])) =
        segments a ++ [[colon, 'x'.toUInt8]] := by
      rw [segments_slash_cons, segments_append_cons]
      rfl
    have hsome : (loneRoute (slash :: (a ++ [slash, colon, 'x'.toUInt8]))).isSome = true := by
      apply loneRoute_isSome
      · apply isRoutablePath_slash
        · rw [length_append]
          show _ + 3 + 1 < 128
          omega
        · intro ch hch
          rcases mem_append.mp hch with hch | hch
          · exact htext ch hch
          · clear * - hch
            revert ch
            decide
      · exact hparams.2 (by decide)
      · rw [hpath, length_append]
        show _ + 1 ≤ 64
        omega
    obtain ⟨cfg, hcfg⟩ := Option.isSome_iff_exists.mp hsome
    refine ⟨_, cfg, hcfg, ?_⟩
    obtain ⟨r, rest, rfl⟩ := exists_cons_of_ne_nil hrest
    have hcut : matchesPrefix (segments a ++ [[colon, 'x'.toUInt8]]) (segments a) = false := by
      rw [Bool.eq_false_iff]
      intro h
      simpa using matchesPrefix_length h
    rw [hpath, hab, hcut, matchesPrefix_append]
    simp [matchesPrefix, isParamSegment]
  · have hsome : (loneRoute (slash :: a)).isSome = true := by
      apply loneRoute_isSome
      · apply isRoutablePath_slash _ htext
        show _ + 1 < 128
        omega
      · exact hparams.1
      · exact hsegs.trans (hlen.trans (by decide))
    obtain ⟨cfg, hcfg⟩ := Option.isSome_iff_exists.mp hsome
    refine ⟨_, cfg, hcfg, ?_⟩
    have hparam : isParamSegment s = false := by
      rw [pathHasParamSegment_eq, any_eq_false] at hstatic
      have hst := hstatic (s ++ t) (by simp [hab])
      rw [isParamSegment, List.head?_append_of_ne_nil _ hs] at hst
      simpa [isParamSegment] using hst
    have hne : s ≠ s ++ t := by simpa using ht
    rw [segments_slash_cons, hab, ha, matchesPrefix_append, matchesPrefix_append]
    simp [matchesPrefix, hparam, hne]

/-- For every request whose header block is complete: if its canonical path lies inside the copy, then
the connection dispatches to the route that the target matches, under every configuration. If the
path has no segment that starts with `':'`, this is also necessary, and one-route configurations
suffice to tell. -/
theorem route_eq_matchTarget {buf : Str} {req : ParsedRequest} {n : Nat}
    (h : parse buf = .complete req n) :
    (KeepsCanon req.path → ∀ cfg : RouteConfig,
      ((captureRequestMetadata buf).route cfg).map (·.1) =
        cfg.matchTarget req.path req.method.routeMethodKey) ∧
    (pathHasParamSegment (canonicalizeRequest req.path) = false →
      (∀ (path : Str) (cfg : RouteConfig), loneRoute path = some cfg →
        ((captureRequestMetadata buf).route cfg).map (·.1) =
          cfg.matchTarget req.path req.method.routeMethodKey) →
      KeepsCanon req.path) := by
  obtain ⟨hknown, hcanon⟩ := parse_complete_target h
  obtain ⟨hmethod, hview⟩ := captureRequestMetadata_complete h
  have hroute : ∀ cfg : RouteConfig, ((captureRequestMetadata buf).route cfg).map (·.1) =
      (cfg.matchCanonical ((targetCanon req.path).map (rebaseCanon (copyPath req.path)))
        (routeMethodKeyFromLegacyChar req.method.routeMethodKey) 0).map (·.1) := by
    intro cfg
    rw [RequestState.route, hmethod, hview, hcanon, routeMethodKey_mapLogMethod hknown]
    exact matchCanonical_cap ..
  by_cases horigin : req.path.head? = some slash
  · rw [canon_of_targetCanon horigin] at hroute
    constructor
    · intro hkeeps cfg
      rw [hroute, matchTarget, if_neg (by simp [horigin]),
        take_of_length_le (hkeeps horigin)]
    · intro hstatic hall _
      by_contra hcut
      obtain ⟨m, hm⟩ := routeMethodSlotFromKey_of_known hknown
      have hslashes : 0 < (req.path.takeWhile (· = slash)).length := by
        obtain ⟨rest, hrest⟩ := List.head?_eq_some_iff.mp horigin
        simp [hrest]
      generalize hcn : kMaxReqPathLen - 1 - (req.path.takeWhile (· = slash)).length = k at hroute hcut
      generalize hc : canonicalizeRequest req.path = c at hroute hcut hstatic
      have hk : k ≤ 62 := by
        have : kMaxReqPathLen = 64 := rfl
        omega
      have hdrop : c.drop k ≠ [] := by
        rw [← length_pos_iff, length_drop]
        omega
      obtain ⟨path, cfg, hcfg, hne⟩ := exists_route_of_cut (a := c.take k) (b := c.drop k)
        ((length_take_le ..).trans hk) hdrop
        (by
          rw [List.getLast?_drop, if_neg (by omega), ← hc]
          exact getLast?_finalizePathCanonical _)
        (by rwa [take_append_drop])
        (fun ch hch => canonicalizeRequest_text (hc ▸ mem_of_mem_take hch))
      have hagree := hall path cfg hcfg
      rw [take_append_drop] at hne
      rw [hroute, matchTarget, if_neg (by simp [horigin]), hc,
        route_of_loneRoute hcfg _ hm, route_of_loneRoute hcfg _ hm] at hagree
      have hinj : ∀ x y : Bool, some (if x then some 0 else none) =
          some (if y then some 0 else (none : Option Nat)) → x = y := by decide
      exact hne (hinj _ _ hagree)
  · -- the view of any other target is null, and null matches nothing
    rw [targetCanon, if_neg horigin] at hroute
    refine ⟨fun _ cfg => ?_, fun _ _ hslash => absurd hslash horigin⟩
    rw [hroute, matchTarget, if_pos horigin]
    rfl

set_option maxRecDepth 8000 in
theorem route_eq_matchTarget_query :
    KeepsCanon (ascii "/a?b") ∧ ∀ cfg : RouteConfig,
      ((captureRequestMetadata (ascii "GET /a?b HTTP/1.1\r\n\r\n")).route cfg).map (·.1) =
        cfg.matchTarget (ascii "/a?b") HttpMethod.GET.routeMethodKey := by
  have hparse : parse (ascii "GET /a?b HTTP/1.1\r\n\r\n") =
      .complete {
        method := .GET, path := ascii "/a?b", pathCanon := some ⟨1, ascii "a"⟩, version := .Http11
        keepAlive := true } 21 := by decide
  have hkeeps : KeepsCanon (ascii "/a?b") := by decide
  exact ⟨hkeeps, (route_eq_matchTarget hparse).1 hkeeps⟩

def longPath : Str := slash :: List.replicate 63 'a'.toUInt8

set_option maxRecDepth 8000 in
/-- With a route for this very path, the request for it goes unrouted. -/
theorem route_ne_matchTarget :
    parse (ascii "GET " ++ longPath ++ ascii " HTTP/1.1\r\n\r\n") =
      .complete {
        method := .GET, path := longPath, pathCanon := some ⟨1, longPath.drop 1⟩, version := .Http11
        keepAlive := true } 81 ∧
    ((addAll {} [.static longPath kRouteMethodAny 200]).bind fun cfg =>
      cfg.matchTarget longPath HttpMethod.GET.routeMethodKey) = some (some 0) ∧
    ((addAll {} [.static longPath kRouteMethodAny 200]).bind fun cfg =>
      ((captureRequestMetadata (ascii "GET " ++ longPath ++ ascii " HTTP/1.1\r\n\r\n")).route cfg).map
        (·.1)) = some none := by
  refine ⟨?_, ?_, ?_⟩ <;> decide

end Rut
