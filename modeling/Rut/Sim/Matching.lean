import Rut.Route.Paths
import Rut.Sim.Basic

/-!
# What the byte loop of the simulator matches

`route_matches` walks over pattern and path byte by byte and stops with the pattern. Seen from the
slashes it compares the pieces between them, the empty ones among them:

    piecesMatch (pattern.splitOn slash) (path.splitOn slash)

The last piece of the pattern may end before the piece that it meets. `MatchOf m u` says that `m`
holds the depth, the number of static segments and the mask of the pattern with the segments `u`.
-/

namespace Rut

open List

/-! ## Texts and their pieces -/

/-- What follows the first piece of a text: every other piece, behind a slash. -/
def pathText (u : List Str) : Str := u.flatMap (slash :: ·)

@[simp] theorem pathText_nil : pathText [] = [] := rfl

@[simp] theorem pathText_cons (s : Str) (u : List Str) :
    pathText (s :: u) = slash :: (s ++ pathText u) := by
  simp [pathText]

theorem append_pathText_eq (s : Str) (u : List Str) :
    s ++ pathText u = [slash].intercalate (s :: u) := by
  induction u generalizing s with
  | nil => simp
  | cons s' u ih =>
    rw [pathText_cons, ih, intercalate_cons_of_ne_nil (cons_ne_nil _ _)]
    simp

/-- A text is its first piece and the others. -/
theorem exists_pieces (text : Str) : ∃ s u, text.splitOn slash = s :: u ∧ text = s ++ pathText u ∧
    ∀ x ∈ s :: u, slash ∉ x := by
  have hnot : ∀ {text x : Str}, x ∈ text.splitOn slash → slash ∉ x := by
    intro text
    induction text with
    | nil => simp
    | cons b text ih =>
      intro x hx
      rw [List.splitOn, splitOnP_cons_eq_if_modifyHead] at hx
      split at hx
      · rcases mem_cons.mp hx with rfl | hx
        · simp
        · exact ih hx
      · next hb =>
        obtain ⟨s, u, hsu⟩ := exists_cons_of_ne_nil (show text.splitOn slash ≠ [] by simp)
        rw [show text.splitOnP _ = s :: u from hsu, modifyHead_cons] at hx
        rcases mem_cons.mp hx with rfl | hx
        · rw [mem_cons, not_or]
          exact ⟨fun h => hb (by simp [h]), ih (hsu ▸ mem_cons_self)⟩
        · exact ih (hsu ▸ mem_cons_of_mem _ hx)
  obtain ⟨s, u, hsu⟩ := exists_cons_of_ne_nil (show text.splitOn slash ≠ [] by simp)
  refine ⟨s, u, hsu, ?_, fun x hx => hnot (hsu ▸ hx)⟩
  rw [append_pathText_eq, ← hsu, intercalate_splitOn]

/-- What stands behind a piece: nothing, or a slash. -/
def AtBoundary (rest : Str) : Prop := rest = [] ∨ ∃ l, rest = slash :: l

theorem atBoundary_pathText (u : List Str) : AtBoundary (pathText u) := by
  cases u with
  | nil => exact .inl rfl
  | cons s u => exact .inr ⟨_, pathText_cons s u⟩

/-- A text without a slash that begins `r` and what stands behind it begins `r`. -/
theorem prefix_append_iff {s r rest : Str} (hs : slash ∉ s) (hrest : AtBoundary rest) :
    s <+: r ++ rest ↔ s <+: r := by
  refine ⟨fun h => ?_, fun h => h.trans (prefix_append ..)⟩
  by_cases hlen : s.length ≤ r.length
  · exact prefix_of_prefix_length_le h (prefix_append ..) hlen
  · exfalso
    obtain ⟨x, hx⟩ := prefix_of_prefix_length_le (prefix_append r rest) h (by omega)
    rw [← hx, prefix_append_right_inj] at h
    rcases hrest with rfl | ⟨l, rfl⟩
    · have : x = [] := prefix_nil.mp h
      simp [this] at hx
      simp [hx] at hlen
    · cases x with
      | nil => simp at hx; simp [hx] at hlen
      | cons y x =>
        obtain rfl : y = slash := (cons_prefix_cons.mp h).1
        exact hs (hx ▸ by simp)

/-- What the loop decides. A parameter takes any piece but an empty one, a static piece only itself;
where the pattern ends, the piece may go on. -/
def piecesMatch : List Str → List Str → Bool
  | [], _ => true
  | _ :: _, [] => false
  | [s], r :: _ => if isParamSegment s then r ≠ [] else s.isPrefixOf r
  | s :: s' :: u, r :: req =>
    (if isParamSegment s then r ≠ [] else s = r) && piecesMatch (s' :: u) req

/-! ## The loop -/

namespace Sim

variable {cap : Nat} {m : RouteMatch}

/-- A path without query or fragment. -/
def Visible (path : Str) : Prop := ∀ b ∈ path, b ≠ question ∧ b ≠ hash

theorem visible_visiblePath (target : Str) : Visible (visiblePath target) := by
  intro b hb
  simpa using mem_takeWhile_imp hb

theorem Visible.of_append {a b : Str} (h : Visible (a ++ b)) : Visible b :=
  fun x hx => h x (mem_append_right _ hx)

/-- `m` describes a match of the segments `u`. -/
structure MatchOf (m : RouteMatch) (u : List Str) : Prop where
  depth : m.depth = u.length
  staticSegments : m.staticSegments = (staticFlags u).count true
  staticMask : m.staticMask = maskOf (staticFlags u)

theorem MatchOf.enterStatic {u : List Str} {s : Str} (h : MatchOf m u)
    (hs : isParamSegment s = false) : MatchOf m.enterStatic (u ++ [s]) := by
  have hflags : staticFlags (u ++ [s]) = staticFlags u ++ [true] := by simp [staticFlags, hs]
  have hlen : (staticFlags u).length = u.length := by simp [staticFlags]
  refine ⟨by simp [RouteMatch.enterStatic, h.depth], ?_, ?_⟩
  · simp [RouteMatch.enterStatic, hflags, h.staticSegments]
  · simp only [RouteMatch.enterStatic, hflags, maskOf_concat, hlen, Bool.true_and, h.depth,
      h.staticMask, decide_eq_true_eq]

theorem MatchOf.bindParam {u : List Str} {s : Str} (h : MatchOf m u) (hs : isParamSegment s = true)
    (cap : Nat) (name value : Str) : MatchOf (m.bindParam cap name value) (u ++ [s]) := by
  have hflags : staticFlags (u ++ [s]) = staticFlags u ++ [false] := by simp [staticFlags, hs]
  refine ⟨by simp [RouteMatch.bindParam, h.depth], ?_, ?_⟩
  · simp [RouteMatch.bindParam, hflags, h.staticSegments]
  · simp [RouteMatch.bindParam, hflags, maskOf_concat, h.staticMask]

/-- Inside a segment the loop compares bytes. -/
theorem routeMatchesFrom_inside {s path : Str} (hs : slash ∉ s) (hp : Visible path) (pattern : Str)
    (m : RouteMatch) :
    routeMatchesFrom cap (s ++ pattern) .inside path m =
      if s <+: path then routeMatchesFrom cap pattern .inside (path.drop s.length) m else none := by
  induction s generalizing path with
  | nil => simp
  | cons c s ih =>
    have hc : c ≠ slash := fun h => hs (h ▸ by simp)
    cases path with
    | nil => simp [routeMatchesFrom]
    | cons b path =>
      have hb := hp b (by simp)
      by_cases hcb : c = b
      · subst hcb
        have ih := ih (fun h => hs (mem_cons_of_mem _ h))
          (fun x hx => hp x (mem_cons_of_mem _ hx))
        simp [routeMatchesFrom, hb, hc, ih]
      · simp [routeMatchesFrom, hb, hcb]

/-- A static segment from its start: the first byte enters it. -/
theorem routeMatchesFrom_static {s pattern path : Str} (hne : s ≠ []) (hs : slash ∉ s)
    (hst : isParamSegment s = false) (hp : Visible path) :
    routeMatchesFrom cap (s ++ pattern) .segmentStart path m =
      if s <+: path then routeMatchesFrom cap pattern .inside (path.drop s.length) m.enterStatic
      else none := by
  obtain ⟨c, s, rfl⟩ := exists_cons_of_ne_nil hne
  have hc : c ≠ slash := fun h => hs (h ▸ by simp)
  have hcol : c ≠ colon := by simpa [isParamSegment] using hst
  cases path with
  | nil => simp [routeMatchesFrom, hcol]
  | cons b path =>
    have hb := hp b (by simp)
    by_cases hcb : c = b
    · subst hcb
      have hinside : routeMatchesFrom cap (s ++ pattern) .inside path m.enterStatic = _ :=
        routeMatchesFrom_inside (fun h => hs (mem_cons_of_mem _ h))
          (fun x hx => hp x (mem_cons_of_mem _ hx)) pattern m.enterStatic
      simp [routeMatchesFrom, hb, hc, hcol, hinside]
    · simp [routeMatchesFrom, hb, hcb, hcol]

theorem routeMatchesFrom_paramName {name pattern path : Str} (hname : slash ∉ name) :
    routeMatchesFrom cap (name ++ pattern) .paramName path m =
      routeMatchesFrom cap pattern .paramName path m := by
  induction name with
  | nil => rfl
  | cons c name ih =>
    have hc : c ≠ slash := fun h => hname (h ▸ by simp)
    rw [cons_append, ← ih (fun h => hname (mem_cons_of_mem _ h)),
      routeMatchesFrom.eq_def cap (c :: (name ++ pattern))]
    exact if_pos ⟨rfl, hc⟩

/-- Between pieces it does not matter how the last one was left. -/
theorem routeMatchesFrom_slash (pattern : Str) (pos : PatternPos) (m : RouteMatch) (path : Str) {b : UInt8}
    (hb : b ≠ question ∧ b ≠ hash) :
    routeMatchesFrom cap (slash :: pattern) pos (b :: path) m =
      if b = slash then routeMatchesFrom cap pattern .segmentStart path m else none := by
  have hcolon : slash ≠ colon := by decide
  by_cases hsb : slash = b
  · subst hsb
    simp [routeMatchesFrom, hcolon, hb]
  · simp [routeMatchesFrom, hcolon, hb, hsb, Ne.symm hsb]

/-- The value of a parameter is the segment at hand. -/
theorem takeWhile_value {r rest : Str} (hr : slash ∉ r) (hp : Visible (r ++ rest))
    (hrest : AtBoundary rest) : (r ++ rest).takeWhile (fun b => !endsValue b) = r := by
  have hall : ∀ b ∈ r, (!endsValue b) = true := by
    intro b hb
    have hb' := hp b (mem_append_left _ hb)
    have : b ≠ slash := fun h => hr (h ▸ hb)
    simp [endsValue, this, hb']
  rw [takeWhile_append_of_pos hall]
  rcases hrest with rfl | ⟨l, rfl⟩
  · simp
  · simp [endsValue]

/-- One piece of the pattern against one of the path, with the patterns that go on from there. -/
theorem routeMatchesFrom_piece (cap : Nat) {s r rest : Str} {w : List Str} (hs : slash ∉ s) (hr : slash ∉ r)
    (hv : Visible (r ++ rest)) (hrest : AtBoundary rest) (hm : MatchOf m w) (pattern : Str) :
    ∃ pos m', MatchOf m' (w ++ [s].filter (· ≠ [])) ∧
      routeMatchesFrom cap (s ++ pattern) .segmentStart (r ++ rest) m =
        if isParamSegment s then
          if r = [] then none else routeMatchesFrom cap pattern pos rest m'
        else if s <+: r then routeMatchesFrom cap pattern pos (r.drop s.length ++ rest) m' else none := by
  rcases s with _ | ⟨c, s⟩
  · exact ⟨.segmentStart, m, by simpa using hm, by simp [isParamSegment]⟩
  · by_cases hparam : isParamSegment (c :: s) = true
    · obtain rfl : c = colon := by simpa [isParamSegment] using hparam
      have hname : slash ∉ s := fun h => hs (mem_cons_of_mem _ h)
      have hbind := hm.bindParam hparam cap ((s ++ pattern).takeWhile (· ≠ slash)) r
      refine ⟨.paramName, _, hbind, ?_⟩
      have hne : ¬ (PatternPos.segmentStart = .paramName ∧ colon ≠ slash) := by decide
      rw [if_pos hparam, cons_append, routeMatchesFrom.eq_def]
      dsimp only
      rw [if_neg hne, if_pos ⟨rfl, rfl⟩, takeWhile_value hr hv hrest, drop_left,
        routeMatchesFrom_paramName hname]
    · rw [Bool.not_eq_true] at hparam
      refine ⟨.inside, m.enterStatic, by simpa using hm.enterStatic hparam, ?_⟩
      rw [routeMatchesFrom_static (cons_ne_nil c s) hs hparam hv, hparam, if_neg Bool.false_ne_true]
      by_cases hpre : c :: s <+: r
      · rw [if_pos hpre, if_pos ((prefix_append_iff hs hrest).mpr hpre),
          drop_append_of_le_length hpre.length_le]
      · rw [if_neg hpre, if_neg fun h => hpre ((prefix_append_iff hs hrest).mp h)]

/-- The loop over all pieces, by induction on those of the pattern; `w` are the segments that have been
matched already. -/
theorem routeMatchesFrom_pieces (cap : Nat) : ∀ {u req w : List Str} {s r : Str} {m : RouteMatch},
    (∀ x ∈ s :: u, slash ∉ x) → (∀ x ∈ r :: req, slash ∉ x) → Visible (r ++ pathText req) →
    MatchOf m w →
    if piecesMatch (s :: u) (r :: req) then
      ∃ m', routeMatchesFrom cap (s ++ pathText u) .segmentStart (r ++ pathText req) m = some m' ∧
        MatchOf m' (w ++ (s :: u).filter (· ≠ []))
    else routeMatchesFrom cap (s ++ pathText u) .segmentStart (r ++ pathText req) m = none
  | [], req, w, s, r, m, hu, hreq, hv, hm => by
    obtain ⟨pos, m', hm', heq⟩ := routeMatchesFrom_piece cap (hu s mem_cons_self)
      (hreq r mem_cons_self) hv (atBoundary_pathText req) hm []
    rw [pathText_nil, heq]
    by_cases hparam : isParamSegment s = true
    · by_cases hr : r = []
      · simp [piecesMatch, hparam, hr]
      · simpa [piecesMatch, hparam, hr, routeMatchesFrom] using hm'
    · by_cases hpre : s <+: r
      · simpa [piecesMatch, hparam, hpre, routeMatchesFrom] using hm'
      · simp [piecesMatch, hparam, hpre]
  | s' :: u, req, w, s, r, m, hu, hreq, hv, hm => by
    obtain ⟨pos, m', hm', heq⟩ := routeMatchesFrom_piece cap (hu s mem_cons_self)
      (hreq r mem_cons_self) hv (atBoundary_pathText req) hm (pathText (s' :: u))
    have hv' := hv.of_append
    -- where the piece is used up, the pattern and the path go on together
    have hnext : if piecesMatch (s' :: u) req then
          ∃ m'', routeMatchesFrom cap (pathText (s' :: u)) pos (pathText req) m' = some m'' ∧
            MatchOf m'' (w ++ (s :: s' :: u).filter (· ≠ []))
        else routeMatchesFrom cap (pathText (s' :: u)) pos (pathText req) m' = none := by
      have hsegs : (s :: s' :: u).filter (· ≠ []) = [s].filter (· ≠ []) ++ (s' :: u).filter (· ≠ []) :=
        filter_append [s] (s' :: u)
      rw [hsegs, ← append_assoc, pathText_cons]
      cases req with
      | nil => simp [piecesMatch, routeMatchesFrom, show slash ≠ colon by decide]
      | cons r' req =>
        rw [pathText_cons, routeMatchesFrom_slash _ _ _ _ (by decide), if_pos rfl]
        exact routeMatchesFrom_pieces cap (fun x hx => hu x (mem_cons_of_mem _ hx))
          (fun x hx => hreq x (mem_cons_of_mem _ hx))
          (fun b hb => hv' b (by rw [pathText_cons]; exact mem_cons_of_mem _ hb)) hm'
    rw [heq, piecesMatch]
    by_cases hparam : isParamSegment s = true
    · by_cases hr : r = []
      · simp [hparam, hr]
      · simpa [hparam, hr] using hnext
    · rw [if_neg hparam, if_neg hparam]
      by_cases hpre : s <+: r
      · obtain ⟨x, rfl⟩ := hpre
        rw [if_pos (prefix_append ..), drop_left]
        cases x with
        | nil => simpa using hnext
        | cons y x =>
          -- the pattern wants a slash where the piece goes on
          have hy : y ≠ slash := fun h => hreq _ mem_cons_self (by simp [h])
          rw [pathText_cons, cons_append, routeMatchesFrom_slash _ _ _ _ (hv y (by simp))]
          simp [hy]
      · have hne : s ≠ r := fun h => hpre (h ▸ prefix_rfl)
        rw [if_neg hpre]
        simp [hne]

/-- What `route_matches` answers on a path without query and fragment. -/
theorem routeMatchesFrom_eq (cap : Nat) (pattern : Str) {path : Str} (hv : Visible path) :
    if piecesMatch (pattern.splitOn slash) (path.splitOn slash) then
      ∃ m, routeMatchesFrom cap pattern .segmentStart path {} = some m ∧ MatchOf m (segments pattern)
    else routeMatchesFrom cap pattern .segmentStart path {} = none := by
  obtain ⟨s, u, hsu, hpattern, hu⟩ := exists_pieces pattern
  obtain ⟨r, req, hr, hpath, hreq⟩ := exists_pieces path
  have h := routeMatchesFrom_pieces cap hu hreq (hpath ▸ hv) (show MatchOf {} [] from ⟨rfl, rfl, rfl⟩)
  rw [segments, hsu, hr]
  rw [← hpattern, ← hpath] at h
  exact h

end Sim
end Rut
