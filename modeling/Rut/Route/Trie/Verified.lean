import Rut.Lib.Argmax
import Rut.Route.Trie.Search

/-!
# The segment trie returns the most specific route

`bestRoute` says what the lookup is for: of all registrations that match a prefix of the request
and serve its method, the greatest in a lexicographic order, the first registered of equals.
`matchKey_eq_bestRoute` shows that the search returns its route and its parameters.

The proof compares two maxima. The search keeps the first greatest visit by depth, number of
static segments, mask and method; `bestRoute` keeps the first greatest registration. Masks are
ordered like the flags they pack (`maskOf_order`), and visits that tie are ordered by the creation
ranks (`walk_pairwise`), so the winning visit is the node of the winning registration.
-/

namespace Rut

open List

/-! ## The specification -/

/-- More segments, then more static segments, then static segments further to the left, then a
method of its own, then the earlier creation of the nodes along the path. -/
abbrev RouteKey := ℕ ×ₗ ℕ ×ₗ List Bool ×ₗ Bool ×ₗ (List ℕ)ᵒᵈ

/-- Where a registration stands in the order of preference. -/
def routeKey (es : List TrieEntry) (e : TrieEntry) : RouteKey :=
  toLex (e.key.length, toLex ((staticFlags e.key).count true, toLex (staticFlags e.key,
    toLex (decide (e.slot ≠ 0),
      OrderDual.toDual (RouteTrie.ranksFrom (es.map (·.key)) [] e.key)))))

/-- A registration that may answer the request. -/
def serves (req : List Str) (m : MethodSlot) (e : TrieEntry) : Bool :=
  matchesPrefix e.key req && (e.slot = m || e.slot = 0)

/-- The most preferred registration for the request segments `req` and method slot `m`. -/
def bestRoute (es : List TrieEntry) (req : List Str) (m : MethodSlot) : Option TrieEntry :=
  (es.filter (serves req m)).argmax (routeKey es)

/-- The route index and the parameters reported for it. -/
def answer (req : List Str) (outParamCap : Nat) : Option TrieEntry → UInt16 × List RouteParam
  | none => (kInvalidRoute, [])
  | some e => (e.routeIdx, ((captures e.key req).take kMaxRouteParams).take outParamCap)

/-! ## Requests longer than the capacity -/

theorem matchesPrefix_take : ∀ {u req : List Str} {n : Nat}, u.length ≤ n →
    matchesPrefix u (req.take n) = matchesPrefix u req
  | [], req, n, _ => by simp [matchesPrefix]
  | s :: u, [], n, _ => by simp
  | s :: u, r :: req, n + 1, h => by
    have ih : matchesPrefix u (req.take n) = matchesPrefix u req :=
      matchesPrefix_take (by simpa using h)
    rw [take_succ_cons, matchesPrefix, matchesPrefix, ih]

theorem captures_take : ∀ {u req : List Str} {n : Nat}, u.length ≤ n →
    captures u (req.take n) = captures u req
  | [], req, n, _ => by simp [captures]
  | s :: u, [], n, _ => by simp
  | s :: u, r :: req, n + 1, h => by
    have ih : captures u (req.take n) = captures u req := captures_take (by simpa using h)
    rw [take_succ_cons, captures, captures, ih]

namespace RouteTrie

open Lib Lib.RadixGraph

/-! ## The search keeps the first greatest visit -/

section Fold

variable (t : RouteTrie) (slot : MethodSlot) (req : List Str)

/-- The visit has a terminal for the request. -/
def Offers (x : Visit) : Prop := (pickTerminal (t.node x.1) slot).routeIdx ≠ kInvalidRoute

instance : DecidablePred (Offers t slot) := fun _ => inferInstanceAs (Decidable (_ ≠ _))

/-- What `consider` compares. -/
def visitKey (x : Visit) : ℕ ×ₗ ℕ ×ₗ ℕ ×ₗ Bool :=
  toLex (x.2.length, toLex ((staticFlags x.2).count true, toLex (maskOf (staticFlags x.2),
    (pickTerminal (t.node x.1) slot).methodSpecific)))

/-- The candidate a visit makes. -/
def candidateOf (x : Visit) : Candidate where
  routeIdx := (pickTerminal (t.node x.1) slot).routeIdx
  depth := x.2.length
  staticSegments := (staticFlags x.2).count true
  staticMask := maskOf (staticFlags x.2)
  methodSpecific := (pickTerminal (t.node x.1) slot).methodSpecific
  params := (captures x.2 req).take kMaxRouteParams

/-- The candidate of the best visit so far. -/
def candidate? : Option Visit → Candidate
  | none => {}
  | some x => candidateOf t slot req x

theorem considerAt_eq (o : Option Visit) (ho : ∀ y ∈ o, Offers t slot y) (x : Visit) :
    t.considerAt slot req (candidate? t slot req o) x =
      if Offers t slot x then
        candidate? t slot req (match o with
          | none => some x
          | some y => if visitKey t slot y < visitKey t slot x then some x else some y)
      else candidate? t slot req o := by
  unfold considerAt consider
  by_cases hx : Offers t slot x
  · have hx' : (pickTerminal (t.node x.1) slot).routeIdx ≠ kInvalidRoute := hx
    rw [if_neg hx', if_pos hx]
    cases o with
    | none => simp [candidate?, candidateOf, frameOf]
    | some y =>
      have hy : (pickTerminal (t.node y.1) slot).routeIdx ≠ kInvalidRoute := ho y rfl
      have hlt : visitKey t slot y < visitKey t slot x ↔
          x.2.length > y.2.length ∨
          (x.2.length = y.2.length ∧
            (staticFlags x.2).count true > (staticFlags y.2).count true) ∨
          (x.2.length = y.2.length ∧
            (staticFlags x.2).count true = (staticFlags y.2).count true ∧
            maskOf (staticFlags x.2) > maskOf (staticFlags y.2)) ∨
          (x.2.length = y.2.length ∧
            (staticFlags x.2).count true = (staticFlags y.2).count true ∧
            maskOf (staticFlags x.2) = maskOf (staticFlags y.2) ∧
            (pickTerminal (t.node x.1) slot).methodSpecific = true ∧
            ¬ (pickTerminal (t.node y.1) slot).methodSpecific = true) := by
        simp only [visitKey, Prod.Lex.toLex_lt_toLex, Bool.lt_iff]
        grind
      simp only [candidate?, candidateOf, frameOf, hy, false_or]
      by_cases hkey : visitKey t slot y < visitKey t slot x
      · rw [if_pos hkey, if_pos (hlt.mp hkey)]
      · rw [if_neg hkey, if_neg (fun h => hkey (hlt.mpr h))]
  · have hx' : (pickTerminal (t.node x.1) slot).routeIdx = kInvalidRoute := not_not.mp hx
    rw [if_pos hx', if_neg hx]

theorem foldl_considerAt : ∀ (l : List Visit) (o : Option Visit), (∀ y ∈ o, Offers t slot y) →
    l.foldl (t.considerAt slot req) (candidate? t slot req o) =
      candidate? t slot req ((l.filter (Offers t slot)).foldl
        (List.argAux fun b c => visitKey t slot c < visitKey t slot b) o)
  | [], o, _ => rfl
  | x :: l, o, ho => by
    rw [foldl_cons, considerAt_eq t slot req o ho]
    by_cases hx : Offers t slot x
    · rw [if_pos hx, filter_cons_of_pos (by simpa using hx), foldl_cons]
      have hstep : (match o with
          | none => some x
          | some y => if visitKey t slot y < visitKey t slot x then some x else some y) =
          List.argAux (fun b c => visitKey t slot c < visitKey t slot b) o x := by
        cases o <;> rfl
      rw [hstep]
      apply foldl_considerAt
      intro y hy
      rw [← hstep] at hy
      cases o with
      | none => exact Option.some.inj hy ▸ hx
      | some z =>
        dsimp only at hy
        split at hy
        · exact Option.some.inj hy ▸ hx
        · exact Option.some.inj hy ▸ ho z rfl
    · rw [if_neg hx, filter_cons_of_neg (by simpa using hx)]
      exact foldl_considerAt l o ho

end Fold

/-! ## Comparing the two maxima -/

theorem prefix_of_rank {ks : List (List Str)} {u : List Str} (h : ∃ k ∈ ks, u <+: k) :
    ∃ k, ks[rank ks u]? = some k ∧ u <+: k := by
  have hlt := rank_lt h
  exact ⟨ks[rank ks u], List.getElem?_eq_getElem hlt,
    List.isPrefixOf_iff_prefix.mp (findIdx_getElem (w := hlt))⟩

/-- Creation ranks determine the word: two words that pass through the same first keys are equal. -/
theorem ranksFrom_inj {ks : List (List Str)} : ∀ {x y w : List Str}, (∃ k ∈ ks, w ++ x <+: k) →
    (∃ k ∈ ks, w ++ y <+: k) → ranksFrom ks w x = ranksFrom ks w y → x = y
  | [], [], _, _, _, _ => rfl
  | [], _ :: _, _, _, _, h => by cases h
  | _ :: _, [], _, _, _, h => by cases h
  | s :: x, s' :: y, w, hx, hy, h => by
    simp only [ranksFrom, List.cons.injEq] at h
    have hx' : ∃ k ∈ ks, w ++ [s] ++ x <+: k := by simpa using hx
    have hy' : ∃ k ∈ ks, w ++ [s'] ++ y <+: k := by simpa using hy
    have hs : ∃ k ∈ ks, w ++ [s] <+: k :=
      hx'.imp fun k hk => ⟨hk.1, (prefix_append ..).trans hk.2⟩
    have hs' : ∃ k ∈ ks, w ++ [s'] <+: k :=
      hy'.imp fun k hk => ⟨hk.1, (prefix_append ..).trans hk.2⟩
    obtain ⟨k, hk, hpre⟩ := prefix_of_rank hs
    obtain ⟨k', hk', hpre'⟩ := prefix_of_rank hs'
    rw [h.1, hk'] at hk
    cases hk
    have heq : w ++ [s] = w ++ [s'] :=
      (prefix_of_prefix_length_le hpre hpre' (by simp)).eq_of_length (by simp)
    obtain rfl : s = s' := by simpa using heq
    rw [ranksFrom_inj hx' hy' h.2]

section Maximum

variable {t : RouteTrie} {es : List TrieEntry} {slot : MethodSlot} {req : List Str}

/-- The visits among which the search chooses. -/
def offers (t : RouteTrie) (slot : MethodSlot) (req : List Str) : List Visit :=
  (t.walk (req.take kMaxPathSegments) 0 []).filter (Offers t slot)

/-- The terminal of a node in terms of the table at its word. -/
theorem pickTerminal_of_at {i : Nat} {u : List Str} (hI : Inv t) (h : At t.graph i u) :
    pickTerminal (t.node i) slot =
      ⟨pick (t.sem u) slot, decide (slot ≠ 0 ∧ getElem (t.sem u) slot slot.isLt ≠ kInvalidRoute)⟩ := by
  have hsem : t.sem u = (t.node i).routeIdxByMethod := lookD_of_at hI.shape _ h
  rw [pickTerminal, pick, hsem]
  split
  · next hs => rw [decide_eq_true hs]
  · next hs => rw [decide_eq_false hs]

/-- The slot whose registration the terminal of a visit stands for. -/
def servedSlot (t : RouteTrie) (slot : MethodSlot) (x : Visit) : MethodSlot :=
  if (pickTerminal (t.node x.1) slot).methodSpecific then slot else 0

/-- A visit with an offer has a registration behind it: the first for its word and served slot. -/
theorem registration_of_offer (hR : Reached t es) {x : Visit} (hx : x ∈ offers t slot req) :
    ∃ e, es.find? (fun e => e.key = x.2 ∧ e.slot = servedSlot t slot x) = some e ∧
      e.routeIdx = (pickTerminal (t.node x.1) slot).routeIdx ∧
      (decide (servedSlot t slot x ≠ 0) = (pickTerminal (t.node x.1) slot).methodSpecific) := by
  obtain ⟨i, u⟩ := x
  obtain ⟨hmem, hoff⟩ := mem_filter.mp hx
  have hat := ((mem_walk hR.inv At.root).mp hmem).1
  have hoff' : (pickTerminal (t.node i) slot).routeIdx ≠ kInvalidRoute :=
    of_decide_eq_true hoff
  have hreg : (pickTerminal (t.node i) slot).routeIdx =
      firstRegistered es u (servedSlot t slot (i, u)) ∧
      (decide (servedSlot t slot (i, u) ≠ 0) = (pickTerminal (t.node i) slot).methodSpecific) := by
    have h0 : (t.sem u)[0] = firstRegistered es u 0 := hR.holds.table u 0
    have hs := hR.holds.table u slot
    rw [servedSlot, pickTerminal_of_at hR.inv hat, pick]
    by_cases hc : slot ≠ 0 ∧ (t.sem u)[slot] ≠ kInvalidRoute
    · simp only [if_pos hc, decide_eq_true hc, if_true]
      exact ⟨hs, decide_eq_true hc.1⟩
    · simp only [if_neg hc, decide_eq_false hc, if_false, Bool.false_eq_true]
      exact ⟨h0, by simp⟩
  unfold firstRegistered at hreg
  cases hf : es.find? (fun e => e.key = u ∧ e.slot = servedSlot t slot (i, u)) with
  | none =>
    rw [hf] at hreg
    exact absurd hreg.1 hoff'
  | some e =>
    rw [hf] at hreg
    exact ⟨e, rfl, hreg.1.symm, hreg.2⟩

/-- A registration that serves the request has its node among the visits, with an offer at least
as specific. -/
theorem offer_of_serves (hR : Reached t es) {e : TrieEntry} (he : e ∈ es)
    (hs : serves req slot e = true) :
    ∃ j, (j, e.key) ∈ offers t slot req ∧
      (e.slot ≠ 0 → (pickTerminal (t.node j) slot).methodSpecific = true) := by
  simp only [serves, Bool.and_eq_true, Bool.or_eq_true, decide_eq_true_eq] at hs
  obtain ⟨j, hj⟩ := hR.history.complete e.key (mem_map_of_mem he) e.key prefix_rfl
  have hoff : pick (t.sem e.key) slot ≠ kInvalidRoute :=
    (hR.holds.pick_ne_invalid _ _).mpr ⟨e, he, rfl, hs.2⟩
  refine ⟨j, mem_filter.mpr ⟨?_, ?_⟩, fun hne => ?_⟩
  · exact (mem_walk hR.inv At.root).mpr
      ⟨hj, e.key, rfl, by rw [matchesPrefix_take (hR.short e he)]; exact hs.1⟩
  · apply decide_eq_true
    show (pickTerminal (t.node j) slot).routeIdx ≠ kInvalidRoute
    rw [pickTerminal_of_at hR.inv hj]
    exact hoff
  · have hslot : e.slot = slot := hs.2.resolve_right hne
    have hreg : (t.sem e.key)[slot] ≠ kInvalidRoute := by
      rw [hR.holds.table]
      exact (firstRegistered_ne_invalid hR.holds.valid).mpr ⟨e, he, rfl, hslot⟩
    rw [pickTerminal_of_at hR.inv hj]
    exact decide_eq_true ⟨hslot ▸ hne, hreg⟩

theorem offers_pairwise (hR : Reached t es) :
    (offers t slot req).Pairwise (fun a b => staticFlags a.2 = staticFlags b.2 →
      ranksFrom (es.map (·.key)) [] a.2 < ranksFrom (es.map (·.key)) [] b.2) :=
  ((walk_pairwise hR.inv hR.history At.root).imp fun h => h.2).sublist filter_sublist

theorem length_staticFlags (u : List Str) : (staticFlags u).length = u.length := by
  simp [staticFlags]

/-- No registration that serves the request is preferred to the one behind the winning visit. -/
theorem routeKey_le (hR : Reached t es) {x : Visit} {e e' : TrieEntry}
    (hx : (offers t slot req).argmax (visitKey t slot) = some x) (hkey : e.key = x.2)
    (hshort : x.2.length ≤ kMaxPathSegments)
    (hspec : decide (e.slot ≠ 0) = (pickTerminal (t.node x.1) slot).methodSpecific)
    (he' : e' ∈ es) (hs' : serves req slot e' = true) : routeKey es e' ≤ routeKey es e := by
  obtain ⟨hxmem, hmax, hfirst⟩ := argmax_eq_some_iff.mp hx
  obtain ⟨j, hj, hspecific⟩ := offer_of_serves hR he' hs'
  have hle := hmax (j, e'.key) hj
  simp only [visitKey, Prod.Lex.toLex_le_toLex] at hle
  simp only [routeKey, Prod.Lex.toLex_le_toLex, hkey, hspec]
  -- compare component by component; the mask and the flags order alike
  rcases hle with h | ⟨hlen, h | ⟨hcount, hle⟩⟩
  · exact .inl h
  · exact .inr ⟨hlen, .inl h⟩
  obtain ⟨hlt, heq⟩ := maskOf_order
    (by rw [length_staticFlags, length_staticFlags, hlen])
    (by rw [length_staticFlags, hlen]; exact hshort) hcount
  rcases hle with h | ⟨hmask, hmethod⟩
  · exact .inr ⟨hlen, .inr ⟨hcount, .inl (hlt h)⟩⟩
  have hflags := heq hmask
  refine .inr ⟨hlen, .inr ⟨hcount, .inr ⟨hflags, ?_⟩⟩⟩
  by_cases hsame : decide (e'.slot ≠ 0) = (pickTerminal (t.node x.1) slot).methodSpecific
  · -- the visits tie as well, so the winner comes first in the walk
    refine .inr ⟨hsame, OrderDual.toDual_le_toDual.mpr ?_⟩
    by_cases hxj : x = (j, e'.key)
    · rw [hxj]
    have htie : visitKey t slot x ≤ visitKey t slot (j, e'.key) := by
      simp only [visitKey, Prod.Lex.toLex_le_toLex]
      refine .inr ⟨hlen.symm, .inr ⟨hcount.symm, .inr ⟨hmask.symm, ?_⟩⟩⟩
      rw [← hsame]
      intro hne
      exact hspecific (of_decide_eq_true hne)
    exact (rel_of_idxOf_le (offers_pairwise hR) hxmem hj hxj (hfirst _ hj htie) hflags.symm).le
  · -- the winner is specific to the method and the other registration is not
    left
    cases hb : decide (e'.slot ≠ 0) with
    | false =>
      rw [hb] at hsame
      exact Bool.lt_iff.mpr ⟨rfl, Bool.eq_true_of_not_eq_false (Ne.symm hsame)⟩
    | true =>
      have hjs := hspecific (of_decide_eq_true hb)
      rw [hb] at hsame
      exact absurd (hmethod hjs) (Ne.symm hsame)

/-- Registrations with the same preference have the same segments and the same slot. -/
theorem eq_of_routeKey_eq {e e' : TrieEntry} (he : e ∈ es) (he' : e' ∈ es)
    (hs : e.slot = slot ∨ e.slot = 0) (hs' : e'.slot = slot ∨ e'.slot = 0)
    (h : routeKey es e' = routeKey es e) : e'.key = e.key ∧ e'.slot = e.slot := by
  simp only [routeKey, EmbeddingLike.apply_eq_iff_eq, Prod.mk.injEq] at h
  obtain ⟨-, -, -, hslot, hranks⟩ := h
  refine ⟨?_, ?_⟩
  · have hmem : ∀ e ∈ es, ∃ k ∈ es.map (·.key), [] ++ e.key <+: k :=
      fun e he => ⟨e.key, mem_map_of_mem he, prefix_rfl⟩
    exact ranksFrom_inj (hmem e' he') (hmem e he) hranks
  · rw [decide_eq_decide] at hslot
    rcases hs with hs | hs <;> rcases hs' with hs' | hs'
    · rw [hs, hs']
    · rw [hs', not_iff_not] at hslot
      rw [hs', hslot.mp rfl]
    · rw [hs, not_iff_not] at hslot
      rw [hs, hslot.mpr rfl]
    · rw [hs, hs']

/-- The search and the specification agree on the winner. -/
theorem bestRoute_of_visit (hR : Reached t es) {x : Visit}
    (hx : (offers t slot req).argmax (visitKey t slot) = some x) :
    ∃ e, bestRoute es req slot = some e ∧ e.key = x.2 ∧
      e.routeIdx = (pickTerminal (t.node x.1) slot).routeIdx := by
  have hxmem := (argmax_eq_some_iff.mp hx).1
  obtain ⟨e, hfind, hidx, hspec⟩ := registration_of_offer hR hxmem
  obtain ⟨-, u, hu, hmatch⟩ := (mem_walk hR.inv At.root).mp (mem_filter.mp hxmem).1
  rw [nil_append] at hu
  have he : e ∈ es := mem_of_find?_eq_some hfind
  obtain ⟨hkey, hslot⟩ : e.key = x.2 ∧ e.slot = servedSlot t slot x := by
    simpa using List.find?_some hfind
  have heslot : e.slot = slot ∨ e.slot = 0 := by
    rw [hslot, servedSlot]
    split
    · exact .inl rfl
    · exact .inr rfl
  have hshort : x.2.length ≤ kMaxPathSegments := hkey ▸ hR.short e he
  have hserves : ∀ e' : TrieEntry, e'.key = x.2 → e'.slot = servedSlot t slot x →
      serves req slot e' = true := by
    intro e' hk hs
    rw [← hu, matchesPrefix_take hshort] at hmatch
    simp [serves, hk, hmatch, hs, ← hslot, heslot]
  have hfind' : (es.filter (serves req slot)).find?
      (fun e => e.key = x.2 ∧ e.slot = servedSlot t slot x) = some e := by
    rw [List.find?_filter, ← hfind]
    congr 1
    funext e'
    rw [Bool.eq_iff_iff]
    simp only [decide_eq_true_eq]
    exact ⟨fun h => h.2, fun h => ⟨hserves e' h.1 h.2, h⟩⟩
  refine ⟨e, argmax_eq_some_iff.mpr ⟨mem_of_find?_eq_some hfind', fun e' he' => ?_,
    fun e' he' htie => ?_⟩, hkey, hidx⟩
  · obtain ⟨he', hs'⟩ := mem_filter.mp he'
    exact routeKey_le hR hx hkey hshort (hslot ▸ hspec) he' hs'
  · obtain ⟨he', hs'⟩ := mem_filter.mp he'
    have hle := routeKey_le hR hx hkey hshort (hslot ▸ hspec) he' hs'
    have hs'' : e'.slot = slot ∨ e'.slot = 0 := by
      simp only [serves, Bool.and_eq_true, Bool.or_eq_true, decide_eq_true_eq] at hs'
      exact hs'.2
    obtain ⟨hk, hs⟩ := eq_of_routeKey_eq he he' heslot hs'' (le_antisymm hle htie)
    apply idxOf_le_of_find? hfind'
    simp [hk, hkey, hs, hslot]

theorem bestRoute_of_no_visit (hR : Reached t es) (h : offers t slot req = []) :
    bestRoute es req slot = none := by
  rw [bestRoute, argmax_eq_none, filter_eq_nil_iff]
  intro e he hs
  obtain ⟨j, hj, -⟩ := offer_of_serves hR he hs
  rw [h] at hj
  cases hj

end Maximum

/-! ## The lookup -/

variable {t : RouteTrie} {es : List TrieEntry}

/-- The search returns, and its winner is the most preferred registration. -/
theorem matchKey_of_reached (hR : Reached t es) (path : Str) (key : UInt8) (cap : Nat) :
    t.matchKey path key cap = some (match routeMethodSlotFromKey key with
      | none => (kInvalidRoute, [])
      | some m => answer (segments path) cap (bestRoute es (segments path) m)) := by
  unfold matchKey
  cases routeMethodSlotFromKey key with
  | none => rfl
  | some m =>
    dsimp only
    rw [tokenizeSegments_eq]
    have hwalk : (t.walk ((segments path).take kMaxPathSegments) 0 []).length ≤
        t.nodes.length := length_walk_le hR.inv hR.history
    have hpend : t.pending ((segments path).take kMaxPathSegments) [(0, [])] =
        t.walk ((segments path).take kMaxPathSegments) 0 [] := by simp [pending]
    have hloop := searchLoop_eq (t := t) m t.nodes.length [(0, [])] {}
      (by rw [hpend]; exact hwalk) (by rw [hpend]; exact hwalk.trans hR.inv.size)
    have hfold := foldl_considerAt t m ((segments path).take kMaxPathSegments)
      (t.walk ((segments path).take kMaxPathSegments) 0 []) none (by simp)
    rw [hpend] at hloop
    have hrun : searchLoop t m ((segments path).take kMaxPathSegments) t.nodes.length [{}] {} =
        some (candidate? t m ((segments path).take kMaxPathSegments)
          ((offers t m (segments path)).argmax (visitKey t m))) :=
      hloop.trans (congrArg some hfold)
    rw [hrun, Option.map_some]
    cases hx : (offers t m (segments path)).argmax (visitKey t m) with
    | none =>
      rw [bestRoute_of_no_visit hR (argmax_eq_none.mp hx)]
      simp [candidate?, answer]
    | some x =>
      obtain ⟨e, hbest, hkey, hidx⟩ := bestRoute_of_visit hR hx
      have hshort : x.2.length ≤ kMaxPathSegments := by
        have he := mem_filter.mp (argmax_eq_some_iff.mp hbest).1
        exact hkey ▸ hR.short e he.1
      rw [hbest]
      simp only [candidate?, candidateOf, answer, hidx, hkey, captures_take hshort]

/-- For every sequence of `insert` calls with valid route indices, every path and method key and
every capacity for the parameters: the lookup returns the most preferred registration and exactly
its captured parameters, up to the capacities, and a key without a slot matches nothing. On the
way the stack never overflows: every matching child of a visited node is pushed. -/
theorem matchKey_eq_bestRoute (calls : List InsertCall)
    (hidx : ∀ c ∈ calls, c.routeIdx ≠ kInvalidRoute) :
    (∀ (path : Str) (key : UInt8) (cap : Nat),
      (insertAll calls).1.matchKey path key cap = some (match routeMethodSlotFromKey key with
        | none => (kInvalidRoute, [])
        | some m => answer (segments path) cap
            (bestRoute (insertAll calls).2 (segments path) m))) ∧
    ∀ (req : List Str) (f : Frame) (stack : List Frame) (seg : Str),
      StackReached (insertAll calls).1 req (f :: stack) → req[f.segI]? = some seg →
      (f :: stack).length ≤ kMaxNodes ∧
        ((insertAll calls).1.pushChildren f seg stack).length =
          ((insertAll calls).1.nextChildren f.node seg).length + stack.length := by
  have hR := insertAll_reached calls hidx
  exact ⟨matchKey_of_reached hR,
    fun req f stack seg h hseg => stackReached_push hR.inv hR.history h hseg⟩

/-- Parameters under two names, and a static route registered last. -/
def sampleCalls : List InsertCall :=
  [⟨ascii "/:org/x", 0, 1⟩, ⟨ascii "/:user/:page", 0, 2⟩, ⟨ascii "/:org/:page/", 0, 3⟩,
    ⟨ascii "/docs/:page", 'G'.toUInt8, 4⟩]

theorem matchKey_eq_bestRoute_sampleCalls :
    (∀ c ∈ sampleCalls, c.routeIdx ≠ kInvalidRoute) ∧
    (∀ (path : Str) (key : UInt8) (cap : Nat),
      (insertAll sampleCalls).1.matchKey path key cap = some (match routeMethodSlotFromKey key with
        | none => (kInvalidRoute, [])
        | some m => answer (segments path) cap
            (bestRoute (insertAll sampleCalls).2 (segments path) m))) :=
  ⟨by decide, (matchKey_eq_bestRoute sampleCalls (by decide)).1⟩

-- `/:org` was created before `/:user`, so of two equally specific routes the later one wins
example : (insertAll sampleCalls).1.matchKey (ascii "a/b/c") 2 8 =
    some (3, [⟨ascii "org", ascii "a"⟩, ⟨ascii "page", ascii "b"⟩]) := by decide

example : (insertAll sampleCalls).1.matchKey (ascii "docs/b") 1 8 =
    some (4, [⟨ascii "page", ascii "b"⟩]) := by decide

end RouteTrie
end Rut
