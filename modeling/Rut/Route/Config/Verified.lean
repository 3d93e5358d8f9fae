import Rut.Route.Config.Build

/-!
# When the two dispatchers agree

`configure_route_dispatch` picks the radix trie when no path has a parameter and no path is a byte
prefix of another one inside a segment. That is a condition on the registered paths only, while a
request may itself end a registered path inside a segment: with the one route `/api` the request
`/apij` is served by the radix trie and missed by the segment trie.

`matchTarget_art_eq_trie_iff` says exactly when the two agree on a request. Each side is the first
greatest element of the same list of registrations (`matchTarget_art`, `matchTarget_trie`), so what
is compared are two filters and two orders.
-/

namespace Rut

open Lib List

/-! ## What the selection rules out -/

theorem isStrictBytePrefix_iff {a b : Str} :
    isStrictBytePrefix a b = true ↔ a.length < b.length ∧ a <+: b := by
  simp [isStrictBytePrefix]

/-- No path is a byte prefix of another one inside a segment. -/
theorem slash_after_prefix : ∀ {paths : List Str}, hasBoundarySensitiveOverlap paths = false →
    ∀ {p q : Str}, p ∈ paths → q ∈ paths →
    isStrictBytePrefix (finalizePathCanonical p) (finalizePathCanonical q) = true →
    boundarySensitiveAfterPrefix (finalizePathCanonical p) (finalizePathCanonical q) = false
  | path :: paths, h, p, q, hp, hq, hpq => by
    simp only [hasBoundarySensitiveOverlap, Bool.or_eq_false_iff, any_eq_false] at h
    have hlt := (isStrictBytePrefix_iff.mp hpq).1
    rcases mem_cons.mp hp with rfl | hp' <;> rcases mem_cons.mp hq with rfl | hq'
    · exact absurd hlt (lt_irrefl _)
    · simpa [boundarySensitivePair, hpq] using h.1 q hq'
    · have hqp : isStrictBytePrefix (finalizePathCanonical q) (finalizePathCanonical p) = false := by
        rw [Bool.eq_false_iff]
        exact fun hqp => absurd (isStrictBytePrefix_iff.mp hqp).1 hlt.not_gt
      simpa [boundarySensitivePair, hpq, hqp] using h.1 p hp'
    · exact slash_after_prefix h.2 hp' hq' hpq

/-! ## One list of registrations for both dispatchers -/

/-- The registration of the segment trie for a registration of the radix trie. -/
def toTrieEntry (e : ArtEntry) : TrieEntry := ⟨segments e.key, e.slot, e.routeIdx⟩

theorem registered_segments (routes : List RouteEntry) :
    registered segments routes =
      (registered finalizePathCanonical routes).map toTrieEntry := by
  apply ext_getElem?
  intro i
  simp only [registered, List.getElem?_map, List.getElem?_mapIdx, Option.map_map]
  congr 1
  funext r
  simp only [Function.comp, toTrieEntry, segments_finalizePathCanonical]

/-- Registrations depend on the paths and method keys only. -/
theorem registered_congr {κ : Type} (keyOf : Str → κ) {routes routes' : List RouteEntry}
    (h : routes.map (fun r => (r.path, r.method)) = routes'.map (fun r => (r.path, r.method))) :
    registered keyOf routes = registered keyOf routes' := by
  have hmap : ∀ rs : List RouteEntry, registered keyOf rs =
      (rs.map (fun r => (r.path, r.method))).mapIdx
        (fun i x => ⟨keyOf x.1, (routeMethodSlot x.2).getD 0, UInt16.ofNat i⟩) := by
    intro rs
    apply ext_getElem?
    intro i
    simp only [registered, List.getElem?_map, List.getElem?_mapIdx, Option.map_map]
    rfl
  rw [hmap, hmap, h]

section Agreement

variable {es : List ArtEntry} {p : Str} {m : MethodSlot} {e : ArtEntry}

theorem bytePrefixServes_iff :
    bytePrefixServes p m e = true ↔ e.key <+: p ∧ (e.slot = m ∨ e.slot = 0) := by
  simp [bytePrefixServes]

variable (hclean : ∀ e ∈ es, Clean e.key) (hp : Clean p)
  (hstatic : ∀ e ∈ es, ∀ s ∈ segments e.key, isParamSegment s = false)

include hclean hp hstatic in
/-- The segment trie wants the path to end at a segment boundary of the request. -/
theorem serves_toTrieEntry (he : e ∈ es) :
    serves (segments p) m (toTrieEntry e) = true ↔
      EndsAtBoundary e.key p ∧ (e.slot = m ∨ e.slot = 0) := by
  rw [← segments_prefix_iff (hclean e he) hp, ← matchesPrefix_of_static (hstatic e he),
    serves, Bool.and_eq_true, Bool.or_eq_true]
  exact and_congr_right' (or_congr decide_eq_true_iff decide_eq_true_iff)

include hclean in
/-- On the registrations that end at a boundary the two orders agree. -/
theorem routeKey_le_iff_artKey_le {a b : ArtEntry} (ha : a ∈ es) (hb : b ∈ es)
    (ha' : EndsAtBoundary a.key p) (hb' : EndsAtBoundary b.key p) :
    routeKey (es.map toTrieEntry) (toTrieEntry a) ≤ routeKey (es.map toTrieEntry) (toTrieEntry b) ↔
      artKey a ≤ artKey b := by
  have hcmp : ∀ {a b : ArtEntry}, a ∈ es → b ∈ es → EndsAtBoundary a.key p →
      EndsAtBoundary b.key p → (segments a.key).length < (segments b.key).length →
      a.key.length < b.key.length := by
    intro a b ha hb ha' hb' hlt
    have hpre : segments a.key <+: segments b.key :=
      prefix_of_prefix_length_le ha'.segments_prefix hb'.segments_prefix hlt.le
    have hab := ((segments_prefix_iff (hclean a ha) (hclean b hb)).mp hpre).isPrefix
    refine lt_of_le_of_ne hab.length_le fun heq => ?_
    rw [hab.eq_of_length heq] at hlt
    exact lt_irrefl _ hlt
  rcases lt_trichotomy (segments a.key).length (segments b.key).length with h | h | h
  · have := hcmp ha hb ha' hb' h
    refine iff_of_true (Prod.Lex.toLex_le_toLex.mpr (.inl h)) (Prod.Lex.toLex_le_toLex.mpr (.inl this))
  · -- as many segments of one request: the same path
    have hsegs : segments a.key = segments b.key :=
      (prefix_of_prefix_length_le ha'.segments_prefix hb'.segments_prefix h.le).eq_of_length h
    have hkey := eq_of_segments_eq (hclean a ha) (hclean b hb) hsegs
    simp only [routeKey, artKey, toTrieEntry, Prod.Lex.toLex_le_toLex, hkey, lt_irrefl, true_and,
      false_or, le_refl, and_true]
    exact le_iff_lt_or_eq.symm
  · have := hcmp hb ha hb' ha' h
    refine iff_of_false (fun hle => ?_) (fun hle => ?_)
    · rcases Prod.Lex.toLex_le_toLex.mp hle with h' | h'
      · exact absurd h' h.not_gt
      · exact absurd h'.1 h.ne'
    · rcases Prod.Lex.toLex_le_toLex.mp hle with h' | h'
      · exact absurd h' this.not_gt
      · exact absurd h'.1 this.ne'

include hclean hp hstatic in
/-- If every byte prefix of the request ends at a boundary, both choose the same registration. -/
theorem bestRoute_toTrieEntry
    (hbound : ∀ e ∈ es, bytePrefixServes p m e = true → EndsAtBoundary e.key p) :
    bestRoute (es.map toTrieEntry) (segments p) m =
      ((es.filter (bytePrefixServes p m)).argmax artKey).map toTrieEntry := by
  have hfilter : es.filter (serves (segments p) m ∘ toTrieEntry) =
      es.filter (bytePrefixServes p m) := by
    apply filter_congr
    intro e he
    rw [Bool.eq_iff_iff, Function.comp, serves_toTrieEntry hclean hp hstatic he]
    constructor
    · rintro ⟨hend, hslot⟩
      exact bytePrefixServes_iff.mpr ⟨hend.isPrefix, hslot⟩
    · intro h
      exact ⟨hbound e he h, (bytePrefixServes_iff.mp h).2⟩
  rw [bestRoute, filter_map, argmax_map, hfilter]
  congr 1
  apply argmax_congr
  intro a ha b hb
  obtain ⟨ha, hsa⟩ := mem_filter.mp ha
  obtain ⟨hb, hsb⟩ := mem_filter.mp hb
  exact routeKey_le_iff_artKey_le hclean ha hb (hbound a ha hsa) (hbound b hb hsb)

/-- If some byte prefix of the request ends inside a segment, the longest one does. -/
theorem argmax_not_endsAtBoundary
    (hoverlap : ∀ a ∈ es, ∀ b ∈ es, isStrictBytePrefix a.key b.key = true →
      boundarySensitiveAfterPrefix a.key b.key = false)
    (he : e ∈ es) (hs : bytePrefixServes p m e = true) (hin : ¬ EndsAtBoundary e.key p) :
    ∃ b, (es.filter (bytePrefixServes p m)).argmax artKey = some b ∧
      ¬ EndsAtBoundary b.key p := by
  cases hmax : (es.filter (bytePrefixServes p m)).argmax artKey with
  | none =>
    have := mem_filter.mpr ⟨he, hs⟩
    rw [argmax_eq_none.mp hmax] at this
    cases this
  | some b =>
    refine ⟨b, rfl, fun hend => hin ?_⟩
    obtain ⟨hb, hsb⟩ := mem_filter.mp (argmax_mem hmax)
    have hle := le_of_mem_argmax (mem_filter.mpr ⟨he, hs⟩) hmax
    have hlen : e.key.length ≤ b.key.length := by
      rcases Prod.Lex.toLex_le_toLex.mp hle with h | h
      · exact h.le
      · exact h.1.le
    have hpre := (bytePrefixServes_iff.mp hs).1
    have hpre' := (bytePrefixServes_iff.mp hsb).1
    have heb : e.key <+: b.key := prefix_of_prefix_length_le hpre hpre' hlen
    rcases Nat.lt_or_eq_of_le hlen with hlt | heq
    · -- the longer path goes on with a slash, and so does the request
      have := hoverlap e he b hb (isStrictBytePrefix_iff.mpr ⟨hlt, heb⟩)
      simp only [boundarySensitiveAfterPrefix, ne_eq, Bool.and_eq_false_iff, decide_eq_false_iff_not,
        not_not] at this
      rcases this with hnil | hslash
      · exact .inl hnil
      · refine .inr (.inr (List.IsPrefix.trans ?_ hpre'))
        obtain ⟨rest, hrest⟩ := heb
        rw [← hrest, List.getElem?_append_right le_rfl, Nat.sub_self] at hslash
        cases rest with
        | nil => simp at hslash
        | cons c rest =>
          obtain rfl : c = slash := by simpa using hslash
          exact ⟨rest, by rw [← hrest]; simp⟩
    · rw [heb.eq_of_length heq]
      exact hend

include hclean hp hstatic in
/-- The segment trie never returns a registration that ends inside a segment. -/
theorem bestRoute_ne_of_not_endsAtBoundary
    (hinj : ∀ a ∈ es, ∀ b ∈ es, a.routeIdx = b.routeIdx → a = b) (he : e ∈ es)
    (hin : ¬ EndsAtBoundary e.key p) :
    (bestRoute (es.map toTrieEntry) (segments p) m).map (fun e => e.routeIdx.toNat) ≠
      some e.routeIdx.toNat := by
  intro h
  obtain ⟨e', hbest, hidx⟩ := Option.map_eq_some_iff.mp h
  obtain ⟨hmem, hserves⟩ := mem_filter.mp (argmax_mem hbest)
  obtain ⟨a, ha, rfl⟩ := mem_map.mp hmem
  have hae : a = e := hinj a ha e he (UInt16.toNat_inj.mp hidx)
  rw [serves_toTrieEntry hclean hp hstatic ha, hae] at hserves
  exact hin hserves.1

end Agreement

namespace RouteConfig

/-! ## The configurations built from one list -/

/-- The route answers requests of this method: it has the method's slot or the slot of "any". -/
def AddCall.Answers (c : AddCall) (method : UInt8) : Prop :=
  routeMethodSlot method ≠ none ∧
    (routeMethodSlot c.method = routeMethodSlot method ∨ routeMethodSlot c.method = some 0)

variable {calls : List AddCall} {cfg : RouteConfig}

/-- The registrations of a configuration built from nothing, in terms of the calls. -/
theorem mem_registered_calls {base : RouteConfig} (h : Populated base cfg calls)
    (hbase : base.routes = []) {e : ArtEntry}
    (he : e ∈ registered finalizePathCanonical cfg.routes) :
    ∃ c ∈ calls, e.key = finalizePathCanonical c.path ∧ routeMethodSlot c.method = some e.slot := by
  obtain ⟨i, r, hi, rfl⟩ := mem_registered.mp he
  have hmem : (r.path, r.method) ∈ cfg.routes.map (fun r => (r.path, r.method)) :=
    mem_map_of_mem (mem_of_getElem? hi)
  rw [h.routes, hbase, map_nil, nil_append] at hmem
  obtain ⟨c, hc, hcr⟩ := mem_map.mp hmem
  obtain ⟨hpath, hmethod⟩ := Prod.mk.inj hcr
  refine ⟨c, hc, by rw [hpath], ?_⟩
  obtain ⟨m, hm⟩ := Option.ne_none_iff_exists'.mp (h.valid c hc)
  show _ = some r.slot
  rw [RouteEntry.slot, ← hmethod, routeMethodSlot_key, hm, Option.getD_some]

theorem exists_registered_of_call {base : RouteConfig} (h : Populated base cfg calls)
    (hbase : base.routes = []) {c : AddCall} (hc : c ∈ calls) :
    ∃ e ∈ registered finalizePathCanonical cfg.routes,
      e.key = finalizePathCanonical c.path ∧ routeMethodSlot c.method = some e.slot := by
  have hmem : (c.path, routeMethodKeyFromLegacyChar c.method) ∈
      cfg.routes.map (fun r => (r.path, r.method)) := by
    rw [h.routes, hbase, map_nil, nil_append]
    exact mem_map_of_mem hc
  obtain ⟨r, hr, hrc⟩ := mem_map.mp hmem
  obtain ⟨hpath, hmethod⟩ := Prod.mk.inj hrc
  obtain ⟨i, hi⟩ := mem_iff_getElem?.mp hr
  refine ⟨_, mem_registered.mpr ⟨i, r, hi, rfl⟩, by rw [hpath], ?_⟩
  obtain ⟨m, hm⟩ := Option.ne_none_iff_exists'.mp (h.valid c hc)
  show _ = some r.slot
  rw [RouteEntry.slot, hmethod, routeMethodSlot_key, hm, Option.getD_some]

/-- For every list of routes that is not sent to the segment trie and every origin-form request, with
no empty segment inside a path: the radix trie and the segment trie built from the list return the
same route exactly when no registered path that is a byte prefix of the request and answers its
method ends inside a segment. -/
theorem matchTarget_art_eq_trie_iff (upstreamCount : Nat) (calls : List AddCall)
    {art trie : RouteConfig} (hsel : needsSegmentAware (calls.map AddCall.path) = false)
    (hart : (configureRouteDispatch { upstreamCount := upstreamCount }
      (calls.map AddCall.path)).bind (addAll · calls) = some art)
    (htrie : (useSegmentTrie { upstreamCount := upstreamCount }).bind (addAll · calls) = some trie)
    (hinner : ∀ c ∈ calls, NoEmptyInner (finalizePathCanonical c.path))
    (target : Str) (method : UInt8) (horigin : target.head? = some slash)
    (hreq : NoEmptyInner (canonicalizeRequest target)) :
    ∃ r r', art.matchTarget target method = some r ∧ trie.matchTarget target method = some r' ∧
      (r = r' ↔ ∀ c ∈ calls, c.Answers method →
        finalizePathCanonical c.path <+: canonicalizeRequest target →
        EndsAtBoundary (finalizePathCanonical c.path) (canonicalizeRequest target)) := by
  -- both are populated from the same calls, so they hold the same registrations
  have hart' : addAll { upstreamCount := upstreamCount } calls = some art := by
    simp only [configureRouteDispatch, hsel, length_nil, ne_eq, not_true_eq_false, if_false,
      Bool.false_eq_true, useArt, gt_iff_lt, lt_irrefl] at hart
    split at hart
    · cases hart
    · exact hart
  have hpa := addAll_spec (built_empty rfl rfl rfl) hart'
  have hpt := addAll_spec (built_empty rfl rfl rfl) (by simpa [useSegmentTrie] using htrie)
  have hsame : registered segments trie.routes =
      (registered finalizePathCanonical art.routes).map toTrieEntry := by
    rw [← registered_segments]
    exact registered_congr _ (hpt.routes.trans hpa.routes.symm)
  refine ⟨_, _, matchTarget_art hpa.built hpa.kind hpa.jit horigin,
    matchTarget_trie hpt.built hpt.kind horigin, ?_⟩
  rw [hsame]
  have hcall := fun {e} he => mem_registered_calls hpa rfl (e := e) he
  have hclean : ∀ e ∈ registered finalizePathCanonical art.routes, Clean e.key := by
    intro e he
    obtain ⟨c, hc, hkey, -⟩ := hcall he
    rw [hkey]
    exact clean_finalizePathCanonical (hinner c hc)
  have hp : Clean (canonicalizeRequest target) := clean_finalizePathCanonical hreq
  simp only [needsSegmentAware, Bool.or_eq_false_iff, any_eq_false] at hsel
  have hstatic : ∀ e ∈ registered finalizePathCanonical art.routes, ∀ s ∈ segments e.key,
      isParamSegment s = false := by
    intro e he s hs
    obtain ⟨c, hc, hkey, -⟩ := hcall he
    have hparam := hsel.1 c.path (mem_map_of_mem hc)
    rw [pathHasParamSegment_eq, Bool.not_eq_true, any_eq_false] at hparam
    rw [hkey, segments_finalizePathCanonical] at hs
    simpa using hparam s hs
  cases hslot : routeMethodSlot method with
  | none => exact iff_of_true rfl fun c _ h => absurd hslot h.1
  | some m =>
    simp only [Option.bind_some]
    by_cases hbound : ∀ e ∈ registered finalizePathCanonical art.routes,
        bytePrefixServes (canonicalizeRequest target) m e = true →
          EndsAtBoundary e.key (canonicalizeRequest target)
    · apply iff_of_true
      · rw [bestRoute_toTrieEntry hclean hp hstatic hbound, Option.map_map]
        rfl
      · intro c hc hans hpre
        obtain ⟨e, he, hkey, hs⟩ := exists_registered_of_call hpa rfl hc
        rw [← hkey] at hpre ⊢
        apply hbound e he
        rw [bytePrefixServes_iff]
        refine ⟨hpre, ?_⟩
        simpa [hs, hslot] using hans.2
    · simp only [not_forall] at hbound
      obtain ⟨e, he, hs, hin⟩ := hbound
      apply iff_of_false
      · obtain ⟨b, hmax, hbin⟩ := argmax_not_endsAtBoundary (fun a ha b hb hab => by
          obtain ⟨c, hc, hkey, -⟩ := hcall ha
          obtain ⟨c', hc', hkey', -⟩ := hcall hb
          rw [hkey, hkey'] at hab ⊢
          exact slash_after_prefix hsel.2 (mem_map_of_mem hc) (mem_map_of_mem hc') hab)
          he hs hin
        rw [hmax]
        exact Ne.symm (bestRoute_ne_of_not_endsAtBoundary hclean hp hstatic
          (fun a ha b hb => eq_of_routeIdx_eq hpa.built.size ha hb)
          (mem_of_mem_filter (argmax_mem hmax)) hbin)
      · intro hall
        obtain ⟨c, hc, hkey, hcs⟩ := hcall he
        obtain ⟨hpre, hslots⟩ := bytePrefixServes_iff.mp hs
        rw [hkey] at hpre hin
        refine hin (hall c hc ⟨by simp [hslot], ?_⟩ hpre)
        simpa [hcs, hslot] using hslots

/-- A path, a longer one below it for `GET` only, and the root. -/
def sampleCalls : List AddCall :=
  [.static (ascii "/api") 0 200, .proxy (ascii "/api/users/") 'G'.toUInt8 0,
    .jitHandler (ascii "/") 0 7 false]

theorem matchTarget_art_eq_trie_iff_sampleCalls :
    ∃ art trie, needsSegmentAware (sampleCalls.map AddCall.path) = false ∧
      (configureRouteDispatch { upstreamCount := 1 }
        (sampleCalls.map AddCall.path)).bind (addAll · sampleCalls) = some art ∧
      (useSegmentTrie { upstreamCount := 1 }).bind (addAll · sampleCalls) = some trie ∧
      (∀ c ∈ sampleCalls, NoEmptyInner (finalizePathCanonical c.path)) ∧
      (ascii "/apij?x").head? = some slash ∧
      NoEmptyInner (canonicalizeRequest (ascii "/apij?x")) ∧
      ∃ r r', art.matchTarget (ascii "/apij?x") 1 = some r ∧
        trie.matchTarget (ascii "/apij?x") 1 = some r' ∧
        (r = r' ↔ ∀ c ∈ sampleCalls, c.Answers 1 →
          finalizePathCanonical c.path <+: canonicalizeRequest (ascii "/apij?x") →
          EndsAtBoundary (finalizePathCanonical c.path) (canonicalizeRequest (ascii "/apij?x"))) := by
  have hart : ((configureRouteDispatch { upstreamCount := 1 }
      (sampleCalls.map AddCall.path)).bind (addAll · sampleCalls)).isSome = true := by decide
  have htrie : ((useSegmentTrie { upstreamCount := 1 }).bind (addAll · sampleCalls)).isSome = true := by
    decide
  obtain ⟨art, hart⟩ := Option.isSome_iff_exists.mp hart
  obtain ⟨trie, htrie⟩ := Option.isSome_iff_exists.mp htrie
  exact ⟨art, trie, by decide, hart, htrie, by decide, by decide, by decide,
    matchTarget_art_eq_trie_iff 1 sampleCalls (by decide) hart htrie (by decide) (ascii "/apij?x") 1
      (by decide) (by decide)⟩

/-- The selection does not make the dispatchers agree: a request may end a registered path inside a
segment, and it may repeat a slash that the segment trie drops. -/
theorem matchTarget_art_ne_trie :
    needsSegmentAware [ascii "/api"] = false ∧
    ((configureRouteDispatch {} [ascii "/api"]).bind (addAll · [.static (ascii "/api") 0 200])).bind
      (·.matchTarget (ascii "/apij") 1) = some (some 0) ∧
    ((useSegmentTrie {}).bind (addAll · [.static (ascii "/api") 0 200])).bind
      (·.matchTarget (ascii "/apij") 1) = some none ∧
    needsSegmentAware [ascii "/a/b"] = false ∧
    ((configureRouteDispatch {} [ascii "/a/b"]).bind (addAll · [.static (ascii "/a/b") 0 200])).bind
      (·.matchTarget (ascii "/a//b") 1) = some none ∧
    ((useSegmentTrie {}).bind (addAll · [.static (ascii "/a/b") 0 200])).bind
      (·.matchTarget (ascii "/a//b") 1) = some (some 0) := by
  decide

end RouteConfig
end Rut
