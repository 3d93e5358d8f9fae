import Rut.Route.Art.Verified
import Rut.Route.Paths
import Rut.Route.Trie.Verified

/-!
# Built configurations

`Built` ties the dispatcher of a configuration to its list of routes: route `i` is the `i`-th
registration, under its canonical path in the radix trie or under its segments in the segment trie.
Every call of an `add_*` function returns and keeps it, and a call that fails changes nothing
(`add_spec`). On a built configuration a lookup returns, and it returns the first greatest
registration in the order of its dispatcher (`matchTarget_art`, `matchTarget_trie`).
-/

namespace Rut

open Lib List

/-! ## Registrations of a list of routes -/

def RouteEntry.slot (r : RouteEntry) : MethodSlot := (routeMethodSlot r.method).getD 0

section Registered

variable {κ : Type} {keyOf : Str → κ} {routes : List RouteEntry} {e e' : Registration κ}

/-- Route `i` is registered with index `i`. -/
def registered (keyOf : Str → κ) (routes : List RouteEntry) : List (Registration κ) :=
  routes.mapIdx fun i r => ⟨keyOf r.path, r.slot, UInt16.ofNat i⟩

theorem registered_concat (r : RouteEntry) :
    registered keyOf (routes ++ [r]) =
      registered keyOf routes ++ [⟨keyOf r.path, r.slot, UInt16.ofNat routes.length⟩] :=
  mapIdx_concat

theorem mem_registered : e ∈ registered keyOf routes ↔
    ∃ i r, routes[i]? = some r ∧ e = ⟨keyOf r.path, r.slot, UInt16.ofNat i⟩ := by
  rw [registered, mem_iff_getElem?]
  simp only [getElem?_mapIdx, Option.map_eq_some_iff]
  exact exists_congr fun i => exists_congr fun r => and_congr_right fun _ => eq_comm

variable (hsize : routes.length ≤ RouteConfig.kMaxRoutes)

include hsize in
theorem toNat_ofNat_position {i : Nat} (hi : i ≤ routes.length) : (UInt16.ofNat i).toNat = i := by
  apply UInt16.toNat_ofNat_of_lt'
  have : UInt16.size = 65536 := rfl
  unfold RouteConfig.kMaxRoutes at hsize
  omega

include hsize in
theorem kInvalidRoute_out_of_range : kInvalidRoute.toNat ≥ routes.length := by
  have : kInvalidRoute.toNat = 65535 := rfl
  unfold RouteConfig.kMaxRoutes at hsize
  omega

include hsize in
theorem toNat_routeIdx (h : e ∈ registered keyOf routes) : e.routeIdx.toNat < routes.length := by
  obtain ⟨i, r, hi, rfl⟩ := mem_registered.mp h
  obtain ⟨hlt, -⟩ := List.getElem?_eq_some_iff.mp hi
  show (UInt16.ofNat i).toNat < routes.length
  rwa [toNat_ofNat_position hsize hlt.le]

include hsize in
/-- The index identifies the registration. -/
theorem eq_of_routeIdx_eq (h : e ∈ registered keyOf routes) (h' : e' ∈ registered keyOf routes)
    (heq : e.routeIdx = e'.routeIdx) : e = e' := by
  obtain ⟨i, r, hi, rfl⟩ := mem_registered.mp h
  obtain ⟨j, r', hj, rfl⟩ := mem_registered.mp h'
  obtain ⟨hlt, -⟩ := List.getElem?_eq_some_iff.mp hi
  obtain ⟨hlt', -⟩ := List.getElem?_eq_some_iff.mp hj
  have hij : (UInt16.ofNat i).toNat = (UInt16.ofNat j).toNat := congrArg UInt16.toNat heq
  rw [toNat_ofNat_position hsize hlt.le, toNat_ofNat_position hsize hlt'.le] at hij
  subst hij
  rw [hi] at hj
  cases hj
  rfl

end Registered

/-! ## The scan of the radix trie as a maximum -/

/-- A registration the radix trie may return. -/
def bytePrefixServes (p : Str) (m : MethodSlot) (e : ArtEntry) : Bool :=
  e.key.isPrefixOf p && (e.slot = m || e.slot = 0)

/-- Longer paths first, then a method of its own. -/
def artKey (e : ArtEntry) : ℕ ×ₗ Bool := toLex (e.key.length, decide (e.slot ≠ 0))

theorem longestPrefix_eq_argmax (es : List ArtEntry) (p : Str) (m : MethodSlot) :
    longestPrefix es p m =
      (((es.filter (bytePrefixServes p m)).argmax artKey).map (·.routeIdx)).getD kInvalidRoute := by
  generalize hhits : es.filter (bytePrefixServes p m) = hits
  have hscan : es.filter (fun e => e.key.isPrefixOf p && (e.slot = m || e.slot = 0)) = hits := hhits
  unfold longestPrefix
  dsimp only
  rw [hscan]
  cases hmax : hits.argmax artKey with
  | none => rw [argmax_eq_none.mp hmax]; rfl
  | some e =>
    obtain ⟨hmem, hle, hfirst⟩ := argmax_eq_some_iff.mp hmax
    simp only [artKey, Prod.Lex.toLex_le_toLex] at hle hfirst
    have hlen : (hits.map (·.key.length)).max? = some e.key.length := by
      rw [max?_eq_some_iff]
      refine ⟨mem_map_of_mem hmem, fun n hn => ?_⟩
      obtain ⟨a, ha, rfl⟩ := mem_map.mp hn
      rcases hle a ha with h | h
      · exact h.le
      · exact h.1.le
    have hfind : (hits.filter (fun a => a.key.length = e.key.length)).find?
        (fun a => a.slot = e.slot) = some e := by
      rw [find?_filter]
      apply find?_of_idxOf_le hmem (by simp)
      intro a ha hq
      simp only [decide_eq_true_eq] at hq
      exact hfirst a ha (.inr ⟨hq.1.symm, by rw [hq.2]⟩)
    have hslot : e.slot = m ∨ e.slot = 0 := by
      have := (mem_filter.mp (hhits ▸ hmem)).2
      simp only [bytePrefixServes, Bool.and_eq_true, Bool.or_eq_true, decide_eq_true_eq] at this
      exact this.2
    rw [hlen]
    dsimp only
    -- the winner answers `m` itself or any method
    by_cases hm : e.slot = m
    · rw [← hm, hfind]
      rfl
    · have h0 : e.slot = 0 := hslot.resolve_left hm
      have hnone : (hits.filter (fun a => a.key.length = e.key.length)).find?
          (fun a => a.slot = m) = none := by
        rw [find?_eq_none]
        intro a ha hq
        obtain ⟨ha, halen⟩ := mem_filter.mp ha
        rcases hle a ha with h | ⟨-, h⟩
        · exact absurd (of_decide_eq_true halen) h.ne
        · rw [of_decide_eq_true hq, h0] at h
          rw [h0] at hm
          simp only [ne_eq, Ne.symm hm, not_false_eq_true, not_true_eq_false, decide_true,
            decide_false] at h
          exact absurd (h rfl) Bool.false_ne_true
      rw [hnone, ← h0, hfind]
      rfl

namespace RouteConfig

/-! ## Adding routes -/

/-- The dispatcher in use holds exactly the routes of the list. -/
structure Built (cfg : RouteConfig) : Prop where
  size : cfg.routes.length ≤ kMaxRoutes
  art : cfg.dispatchKind = .artJit →
    cfg.artState.Inv ∧ Holds cfg.artState.sem (registered finalizePathCanonical cfg.routes)
  trie : cfg.dispatchKind = .segmentTrie →
    RouteTrie.Reached cfg.trie (registered segments cfg.routes)

theorem built_empty {cfg : RouteConfig} (hroutes : cfg.routes = []) (htrie : cfg.trie = .clear)
    (hart : cfg.artState = .clear) : Built cfg where
  size := by simp [hroutes]
  art _ := by
    rw [hart, hroutes]
    exact ⟨ArtTrie.clear_inv, holds_nil ArtTrie.clear_sem⟩
  trie _ := by
    rw [htrie, hroutes]
    exact RouteTrie.clear_reached

/-- What a successful call of an `add_*` function has done. -/
structure Added (cfg cfg' : RouteConfig) (path : Str) (method : UInt8) : Prop where
  built : Built cfg'
  routes : ∃ r, cfg'.routes = cfg.routes ++ [r] ∧ r.path = path ∧
    r.method = routeMethodKeyFromLegacyChar method
  valid : routeMethodSlot method ≠ none
  shape : pathHasParamSegment path = true → cfg.dispatchKind = .segmentTrie
  kind : cfg'.dispatchKind = cfg.dispatchKind
  jit : cfg'.artJitFn = cfg.artJitFn

set_option maxRecDepth 8000 in
/-- A key is not taken for a letter. -/
theorem routeMethodKeyFromLegacyChar_idem (method : UInt8) :
    routeMethodKeyFromLegacyChar (routeMethodKeyFromLegacyChar method) =
      routeMethodKeyFromLegacyChar method := by
  have h : ∀ n : Fin 256,
      routeMethodKeyFromLegacyChar (routeMethodKeyFromLegacyChar (UInt8.ofFin n)) =
        routeMethodKeyFromLegacyChar (UInt8.ofFin n) := by decide
  exact h method.toFin

theorem routeMethodSlot_key (method : UInt8) :
    routeMethodSlot (routeMethodKeyFromLegacyChar method) = routeMethodSlot method := by
  rw [routeMethodSlot, routeMethodKeyFromLegacyChar_idem, routeMethodSlot]

variable {cfg : RouteConfig}

/-- Handing a route to the dispatcher either changes nothing or registers it. -/
theorem populateDispatchState_spec (h : Built cfg) (hroom : cfg.routes.length < kMaxRoutes)
    (r : RouteEntry) :
    cfg.populateDispatchState r = some (cfg, false) ∨
      ∃ cfg', cfg.populateDispatchState r = some (cfg', true) ∧
        Built { cfg' with routes := cfg'.routes ++ [r] } ∧ cfg'.routes = cfg.routes ∧
        cfg'.dispatchKind = cfg.dispatchKind ∧ cfg'.artJitFn = cfg.artJitFn := by
  have hsize : (cfg.routes ++ [r]).length ≤ kMaxRoutes := by
    rw [length_append]
    exact hroom
  have hidx : UInt16.ofNat cfg.routes.length ≠ kInvalidRoute := by
    intro he
    have := congrArg UInt16.toNat he
    rw [toNat_ofNat_position h.size le_rfl] at this
    have hout : kInvalidRoute.toNat ≥ (cfg.routes ++ [r]).length :=
      kInvalidRoute_out_of_range hsize
    rw [length_append, length_singleton] at hout
    omega
  obtain ⟨routes, kind, jit, trie, art, upstreams⟩ := cfg
  cases kind with
  | artJit =>
    obtain ⟨hI, hreg⟩ := h.art rfl
    unfold populateDispatchState
    dsimp only at hI hreg hidx hsize ⊢
    obtain hf | ⟨t, slot, hok, hslot, hins⟩ :=
      ArtTrie.insert_spec hI r.path r.method (UInt16.ofNat routes.length)
    · rw [hf]
      exact .inl rfl
    · rw [hok]
      have hs : r.slot = slot := by rw [RouteEntry.slot, hslot, Option.getD_some]
      refine .inr ⟨_, rfl, ⟨hsize, fun _ => ⟨hins.inv, ?_⟩, fun hk => nomatch hk⟩, rfl, rfl, rfl⟩
      rw [registered_concat, hs]
      exact hreg.step hins.sem_self hins.sem_other hidx
  | segmentTrie =>
    have hR := h.trie rfl
    unfold populateDispatchState
    dsimp only at hR hidx hsize ⊢
    obtain hf | ⟨t, slot, hok, hslot, hlen, hins⟩ :=
      RouteTrie.insert_spec hR.inv hR.history r.path r.method (UInt16.ofNat routes.length)
    · rw [hf]
      exact .inl rfl
    · rw [hok]
      have hs : r.slot = slot := by rw [RouteEntry.slot, hslot, Option.getD_some]
      refine .inr ⟨_, rfl, ⟨hsize, (fun hk => nomatch hk), fun _ => ?_⟩, rfl, rfl, rfl⟩
      rw [registered_concat, hs]
      exact hR.inserted hlen hins hidx

theorem addRoute_spec (h : Built cfg) (path : Str) (method : UInt8) (r : RouteEntry) :
    cfg.addRoute path method r = some (cfg, false) ∨
      ∃ cfg', cfg.addRoute path method r = some (cfg', true) ∧ Added cfg cfg' path method := by
  unfold addRoute
  split
  · exact .inl rfl
  next hroom =>
  split
  · exact .inl rfl
  split
  · exact .inl rfl
  next hshape =>
  split
  · exact .inl rfl
  dsimp only
  split
  · exact .inl rfl
  next hmethod =>
  obtain hf | ⟨cfg', hok, hbuilt, hroutes, hkind, hjit⟩ := populateDispatchState_spec h
    (not_le.mp hroom) { r with path := path, method := routeMethodKeyFromLegacyChar method }
  · rw [hf]
    exact .inl rfl
  · rw [hok]
    refine .inr ⟨_, rfl, hbuilt, ⟨_, congrArg (· ++ _) hroutes, rfl, rfl⟩, ?_, ?_, hkind, hjit⟩
    · rwa [← routeMethodSlot_key]
    · intro hparam
      simpa [dispatchAcceptsPathShape, hparam] using hshape

/-- Every call returns; it registers the route or leaves the configuration as it was. -/
theorem add_spec (h : Built cfg) (c : AddCall) :
    cfg.add c = some (cfg, false) ∨
      ∃ cfg', cfg.add c = some (cfg', true) ∧ Added cfg cfg' c.path c.method := by
  cases c with
  | proxy path method upstreamId =>
    simp only [add, addProxy]
    split
    · exact .inl rfl
    · exact addRoute_spec h path method _
  | static path method status => exact addRoute_spec h path method _
  | jitHandler path method fn needsReqBody => exact addRoute_spec h path method _

/-- What a successful sequence of calls has done. -/
structure Populated (cfg cfg' : RouteConfig) (calls : List AddCall) : Prop where
  built : Built cfg'
  routes : cfg'.routes.map (fun r => (r.path, r.method)) =
    cfg.routes.map (fun r => (r.path, r.method)) ++
      calls.map (fun c => (c.path, routeMethodKeyFromLegacyChar c.method))
  valid : ∀ c ∈ calls, routeMethodSlot c.method ≠ none
  kind : cfg'.dispatchKind = cfg.dispatchKind
  jit : cfg'.artJitFn = cfg.artJitFn

theorem addAll_spec : ∀ {cfg cfg' : RouteConfig} {calls : List AddCall}, Built cfg →
    cfg.addAll calls = some cfg' → Populated cfg cfg' calls
  | cfg, cfg', [], h, hok => by
    cases hok
    exact ⟨h, by simp, by simp, rfl, rfl⟩
  | cfg, cfg', c :: calls, h, hok => by
    rw [addAll] at hok
    obtain hf | ⟨cfg₁, hadd, hadded⟩ := add_spec h c
    · rw [hf] at hok
      cases hok
    · rw [hadd] at hok
      have ih : Populated cfg₁ cfg' calls := addAll_spec hadded.built hok
      obtain ⟨r, hr, hpath, hmethod⟩ := hadded.routes
      refine ⟨ih.built, ?_, ?_, ih.kind.trans hadded.kind, ih.jit.trans hadded.jit⟩
      · rw [ih.routes, hr]
        simp [hpath, hmethod]
      · intro c' hc'
        rcases mem_cons.mp hc' with rfl | hc'
        · exact hadded.valid
        · exact ih.valid c' hc'

/-! ## Lookups -/

section Lookup

variable {target : Str} {method : UInt8}

/-- Positions and route indices: a registered index is in range, the invalid one is not. -/
theorem position_eq {κ : Type} {keyOf : Str → κ} (hsize : cfg.routes.length ≤ kMaxRoutes)
    {o : Option (Registration κ)} (ho : ∀ e ∈ o, e ∈ registered keyOf cfg.routes) :
    (if ((o.map (·.routeIdx)).getD kInvalidRoute).toNat ≥ cfg.routes.length then none
      else some ((o.map (·.routeIdx)).getD kInvalidRoute).toNat) =
      o.map (fun e => e.routeIdx.toNat) := by
  cases o with
  | none => exact if_pos (kInvalidRoute_out_of_range hsize)
  | some e => exact if_neg (not_le.mpr (toNat_routeIdx hsize (ho e rfl)))

/-- The radix trie serves the first greatest byte prefix. -/
theorem matchTarget_art (h : Built cfg) (hk : cfg.dispatchKind = .artJit) (hj : cfg.artJitFn = none)
    (horigin : target.head? = some slash) :
    cfg.matchTarget target method = some ((routeMethodSlot method).bind fun m =>
      (((registered finalizePathCanonical cfg.routes).filter
        (bytePrefixServes (canonicalizeRequest target) m)).argmax artKey).map
          (fun e => e.routeIdx.toNat)) := by
  obtain ⟨hI, hreg⟩ := h.art hk
  have hout := kInvalidRoute_out_of_range h.size
  rw [matchTarget, if_neg (by simp [horigin]), matchCanonical]
  rw [hk, hj]
  dsimp only
  cases hslot : routeMethodSlot method with
  | none =>
    have hkey : routeMethodSlotFromKey (routeMethodKeyFromLegacyChar method) = none := hslot
    simp [ArtTrie.matchCanonicalKey, hkey, hout]
  | some m =>
    rw [ArtTrie.matchCanonicalKey_eq hI _ hslot, ArtTrie.lastOffer_eq_longestPrefix hreg,
      longestPrefix_eq_argmax]
    simp only [Option.map_some, Option.bind_some]
    rw [position_eq h.size]
    intro e he
    exact mem_of_mem_filter (argmax_mem he)

/-- The segment trie serves the most preferred route, whatever the room for parameters. -/
theorem matchCanonical_trie (h : Built cfg) (hk : cfg.dispatchKind = .segmentTrie)
    (path : Str) (key : UInt8) (cap : Nat) :
    (cfg.matchCanonical (some path) key cap).map (·.1) = some ((routeMethodSlotFromKey key).bind fun m =>
      (bestRoute (registered segments cfg.routes) (segments path) m).map
        (fun e => e.routeIdx.toNat)) := by
  have hR := h.trie hk
  have hout := kInvalidRoute_out_of_range h.size
  rw [matchCanonical]
  rw [hk]
  dsimp only
  rw [RouteTrie.matchKey_of_reached hR]
  cases hkey : routeMethodSlotFromKey key with
  | none => simp [hout]
  | some m =>
    simp only [Option.map_some, Option.bind_some]
    rw [← position_eq h.size (o := bestRoute _ _ m)]
    · cases bestRoute (registered segments cfg.routes) (segments path) m <;> rfl
    · intro e he
      exact mem_of_mem_filter (argmax_mem he)

theorem matchTarget_trie (h : Built cfg) (hk : cfg.dispatchKind = .segmentTrie)
    (horigin : target.head? = some slash) :
    cfg.matchTarget target method = some ((routeMethodSlot method).bind fun m =>
      (bestRoute (registered segments cfg.routes) (segments (canonicalizeRequest target)) m).map
        (fun e => e.routeIdx.toNat)) := by
  rw [matchTarget, if_neg (by simp [horigin]), matchCanonical_trie h hk, routeMethodSlot]

end Lookup

end RouteConfig
end Rut
