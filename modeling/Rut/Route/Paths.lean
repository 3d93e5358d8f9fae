import Rut.Route.Config.Basic
import Rut.Route.Trie.Search

/-!
# Byte prefixes and segment prefixes

The radix trie compares paths byte by byte, the segment trie segment by segment. A path without
empty inner segments is determined by its segments, and for two such paths the comparisons are
related by

    segments_prefix_iff : segments k <+: segments p ↔ EndsAtBoundary k p

so a byte prefix is a segment prefix unless it ends in the middle of a segment.
-/

namespace Rut

open List

/-- `k` is a byte prefix of `p` and does not end inside a segment of it. -/
def EndsAtBoundary (k p : Str) : Prop := k = [] ∨ k = p ∨ k ++ [slash] <+: p

instance (k p : Str) : Decidable (EndsAtBoundary k p) :=
  inferInstanceAs (Decidable (_ ∨ _ ∨ _))

/-- No two slashes in a row. -/
def NoEmptyInner (p : Str) : Prop := ¬ [slash, slash] <:+: p

instance (p : Str) : Decidable (NoEmptyInner p) := inferInstanceAs (Decidable (¬ _))

theorem EndsAtBoundary.isPrefix {k p : Str} (h : EndsAtBoundary k p) : k <+: p := by
  rcases h with rfl | rfl | h
  · exact nil_prefix
  · exact prefix_rfl
  · exact (prefix_append ..).trans h

/-! ## Canonical paths -/

theorem segments_append_cons (a b : Str) :
    segments (a ++ slash :: b) = segments a ++ segments b := by
  rw [segments, splitOn_append_cons_self, filter_append]
  rfl

theorem segments_nil : segments [] = [] := by decide

theorem segments_slash_cons (p : Str) : segments (slash :: p) = segments p :=
  (segments_append_cons [] p).trans (by rw [segments_nil, nil_append])

theorem segments_concat_slash (p : Str) : segments (p ++ [slash]) = segments p := by
  rw [segments_append_cons, segments_nil, append_nil]

/-- Stripping the outer slashes does not change the segments. -/
theorem segments_finalizePathCanonical (path : Str) :
    segments (finalizePathCanonical path) = segments path := by
  have hright : ∀ p : Str, segments (p.rdropWhile (· = slash)) = segments p := by
    intro p
    induction p using List.reverseRecOn with
    | nil => rfl
    | append_singleton p b ih =>
      rw [rdropWhile_concat]
      split
      · next hb => rw [ih, of_decide_eq_true hb, segments_concat_slash]
      · rfl
  have hleft : ∀ p : Str, segments (p.dropWhile (· = slash)) = segments p := by
    intro p
    induction p with
    | nil => rfl
    | cons b p ih =>
      rw [dropWhile_cons]
      split
      · next hb => rw [ih, of_decide_eq_true hb, segments_slash_cons]
      · rfl
  rw [finalizePathCanonical, hright, hleft]

theorem head?_finalizePathCanonical (path : Str) :
    (finalizePathCanonical path).head? ≠ some slash := by
  intro h
  have hdrop := List.head?_dropWhile_not (· = slash) path
  obtain ⟨l, hl⟩ := List.rdropWhile_prefix (· = slash) (path.dropWhile (· = slash))
  have h' : ((path.dropWhile (· = slash)).rdropWhile (· = slash)).head? = some slash := h
  rw [← hl, List.head?_append, h'] at hdrop
  simp at hdrop

theorem getLast?_finalizePathCanonical (path : Str) :
    (finalizePathCanonical path).getLast? ≠ some slash := by
  intro h
  obtain ⟨hne, hlast⟩ := mem_getLast?_eq_getLast h
  exact rdropWhile_last_not (· = slash) _ hne (decide_eq_true hlast.symm)

theorem intercalate_append {x : UInt8} {a b : List Str} (ha : a ≠ []) (hb : b ≠ []) :
    [x].intercalate (a ++ b) = [x].intercalate a ++ x :: [x].intercalate b := by
  induction a with
  | nil => exact absurd rfl ha
  | cons s a ih =>
    rw [cons_append, intercalate_cons_of_ne_nil (by simp [hb])]
    by_cases hnil : a = []
    · simp [hnil]
    · rw [ih hnil, intercalate_cons_of_ne_nil hnil]
      simp

/-- The parts of a canonical path between its slashes are not empty. -/
theorem nil_not_mem_splitOn {p : Str} (hne : p ≠ []) (hhead : p.head? ≠ some slash)
    (hlast : p.getLast? ≠ some slash) (hinner : NoEmptyInner p) : [] ∉ p.splitOn slash := by
  intro hmem
  obtain ⟨a, b, hab⟩ := append_of_mem hmem
  have hp : [slash].intercalate (a ++ [] :: b) = p := by
    rw [← hab, intercalate_splitOn]
  -- the empty part is the whole path, or it stands first, last or between two slashes
  by_cases ha : a = [] <;> by_cases hb : b = []
  · subst ha hb
    exact hne (hp ▸ by simp)
  · subst ha
    rw [nil_append, intercalate_cons_of_ne_nil hb] at hp
    exact hhead (hp ▸ by simp)
  · subst hb
    rw [intercalate_append ha (by simp)] at hp
    exact hlast (hp ▸ by simp)
  · rw [intercalate_append ha (by simp), intercalate_cons_of_ne_nil hb] at hp
    exact hinner ⟨[slash].intercalate a, [slash].intercalate b, by simpa using hp⟩

/-! ## The two notions of prefix -/

variable {k p : Str}

/-- A path that its segments determine. -/
def Clean (p : Str) : Prop := p = [] ∨ [] ∉ p.splitOn slash

theorem clean_finalizePathCanonical {path : Str} (h : NoEmptyInner (finalizePathCanonical path)) :
    Clean (finalizePathCanonical path) := by
  by_cases hne : finalizePathCanonical path = []
  · exact .inl hne
  · exact .inr (nil_not_mem_splitOn hne (head?_finalizePathCanonical path)
      (getLast?_finalizePathCanonical path) h)

/-- Of a clean path, the pieces are the segments. -/
theorem segments_of_clean (h : [] ∉ p.splitOn slash) : segments p = p.splitOn slash := by
  rw [segments, filter_eq_self]
  intro s hs
  simpa using fun he : s = [] => h (he ▸ hs)

theorem EndsAtBoundary.segments_prefix (h : EndsAtBoundary k p) :
    segments k <+: segments p := by
  rcases h with rfl | rfl | ⟨rest, rfl⟩
  · simp [segments_nil]
  · exact prefix_rfl
  · rw [append_assoc, singleton_append, segments_append_cons]
    exact prefix_append ..

/-- Segments extend segments just at a boundary. -/
theorem segments_prefix_iff (hk : Clean k) (hp : Clean p) :
    segments k <+: segments p ↔ EndsAtBoundary k p := by
  refine ⟨fun h => ?_, EndsAtBoundary.segments_prefix⟩
  rcases hk with rfl | hk
  · exact .inl rfl
  have hkne : k.splitOn slash ≠ [] := by simp
  rw [segments_of_clean hk] at h
  rcases hp with rfl | hp
  · exact absurd (prefix_nil.mp (segments_nil ▸ h)) hkne
  rw [segments_of_clean hp] at h
  obtain ⟨t, ht⟩ := h
  have hp' : [slash].intercalate (k.splitOn slash ++ t) = p := by
    rw [ht, intercalate_splitOn]
  by_cases htn : t = []
  · rw [htn, append_nil, intercalate_splitOn] at hp'
    exact .inr (.inl hp')
  · rw [intercalate_append hkne htn, intercalate_splitOn] at hp'
    exact .inr (.inr ⟨[slash].intercalate t, by simpa using hp'⟩)

/-- Clean paths with the same segments are equal. -/
theorem eq_of_segments_eq (hk : Clean k) (hp : Clean p) (h : segments k = segments p) : k = p :=
  have hkp := ((segments_prefix_iff hk hp).mp (h ▸ prefix_rfl)).isPrefix
  have hpk := ((segments_prefix_iff hp hk).mp (h ▸ prefix_rfl)).isPrefix
  hkp.eq_of_length (Nat.le_antisymm hkp.length_le hpk.length_le)

/-! ## Parameters -/

theorem segments_cons_of_ne {c : UInt8} (hc : c ≠ slash) (rest : Str) :
    segments (c :: rest) = (c :: rest.takeWhile (· ≠ slash)) ::
      segments (rest.dropWhile (· ≠ slash)) := by
  have hsplit : c :: rest =
      (c :: rest.takeWhile (· ≠ slash)) ++ rest.dropWhile (· ≠ slash) := by simp
  have hseg : slash ∉ c :: rest.takeWhile (· ≠ slash) := by
    intro h
    rcases mem_cons.mp h with h | h
    · exact hc h.symm
    · simpa using mem_takeWhile_imp h
  rw [hsplit]
  cases hd : rest.dropWhile (· ≠ slash) with
  | nil => rw [append_nil, segments_of_not_mem hseg, segments_nil]; simp
  | cons d tail =>
    have hdslash : d = slash := by
      have := List.head?_dropWhile_not (· ≠ slash) rest
      rw [hd] at this
      simpa using this
    rw [hdslash, segments_append_slash hseg, segments_slash_cons]
    simp

/-- The scan for a `':'` at the start of a segment looks at the first byte of every segment. -/
theorem pathHasParamSegment_eq (path : Str) :
    pathHasParamSegment path = (segments path).any isParamSegment := by
  have hfirst : ∀ rest : Str, hasParamSegmentFrom false rest =
      hasParamSegmentFrom true (rest.dropWhile (· ≠ slash)) := by
    intro rest
    induction rest with
    | nil => rfl
    | cons c rest ih =>
      by_cases hc : c = slash
      · simp [hasParamSegmentFrom, hc]
      · simp [hasParamSegmentFrom, hc, ih]
  unfold pathHasParamSegment
  induction hn : path.length using Nat.strongRecOn generalizing path with
  | _ n ih =>
    cases path with
    | nil => rw [segments_nil]; rfl
    | cons c rest =>
      by_cases hc : c = slash
      · rw [hc, segments_slash_cons, hasParamSegmentFrom, if_pos rfl]
        exact ih rest.length (by simp [← hn]) rest rfl
      · have hlen : (rest.dropWhile (· ≠ slash)).length < n := by
          have := (dropWhile_sublist (· ≠ slash) (l := rest)).length_le
          rw [← hn, length_cons]
          omega
        rw [segments_cons_of_ne hc, any_cons, hasParamSegmentFrom, if_neg hc, hfirst,
          ih _ hlen _ rfl]
        by_cases hcol : c = colon <;> simp [hcol, isParamSegment]

/-- Without parameters, to match is to be a prefix. -/
theorem matchesPrefix_of_static : ∀ {u req : List Str}, (∀ s ∈ u, isParamSegment s = false) →
    (matchesPrefix u req = true ↔ u <+: req)
  | [], _, _ => by simp [matchesPrefix]
  | s :: u, [], _ => by simp [matchesPrefix]
  | s :: u, r :: req, h => by
    have ih : matchesPrefix u req = true ↔ u <+: req :=
      matchesPrefix_of_static fun s' hs' => h s' (mem_cons_of_mem _ hs')
    rw [matchesPrefix, h s (mem_cons_self ..), cons_prefix_cons, ← ih]
    simp

/-! ## A path cut short -/

theorem segments_ne_nil {p : Str} (hne : p ≠ []) (hlast : p.getLast? ≠ some slash) :
    segments p ≠ [] := by
  have hslashes : ∀ p : Str, segments p = [] → ∀ b ∈ p, b = slash := by
    intro p
    induction p with
    | nil => simp
    | cons c p ih =>
      intro h
      by_cases hc : c = slash
      · rw [hc, segments_slash_cons] at h
        simpa [hc] using ih h
      · rw [segments_cons_of_ne hc] at h
        cases h
  intro h
  apply hlast
  rw [List.getLast?_eq_some_getLast hne, hslashes p h _ (getLast_mem hne)]

theorem length_segments_le_length (p : Str) : (segments p).length ≤ p.length := by
  induction hn : p.length using Nat.strongRecOn generalizing p with
  | _ n ih =>
    subst hn
    cases p with
    | nil => rw [segments_nil]; exact le_rfl
    | cons c rest =>
      by_cases hc : c = slash
      · rw [hc, segments_slash_cons]
        exact (ih rest.length (by simp) rest rfl).trans (by simp)
      · have hlen := (dropWhile_sublist (· ≠ slash) (l := rest)).length_le
        rw [segments_cons_of_ne hc, length_cons, length_cons]
        exact Nat.succ_le_succ ((ih _ (by rw [length_cons]; omega) _ rfl).trans hlen)

/-- The segments of a path that is cut behind a slash. -/
theorem segments_append_of_slash {a : Str} (ha : a = [] ∨ a.getLast? = some slash) (b : Str) :
    segments (a ++ b) = segments a ++ segments b := by
  rcases ha with rfl | ha
  · rw [segments_nil]
    rfl
  · obtain ⟨l, rfl⟩ := List.getLast?_eq_some_iff.mp ha
    rw [append_assoc, singleton_append, segments_append_cons, segments_concat_slash]

/-- What stands behind the last slash of a path. -/
theorem exists_last_segment (a : Str) :
    ∃ l s, a = l ++ s ∧ slash ∉ s ∧ (l = [] ∨ l.getLast? = some slash) := by
  induction a with
  | nil => exact ⟨[], [], rfl, by simp, .inl rfl⟩
  | cons c a ih =>
    obtain ⟨l, s, rfl, hs, hl⟩ := ih
    by_cases hc : l = [] ∧ c ≠ slash
    · obtain ⟨rfl, hc⟩ := hc
      exact ⟨[], c :: s, rfl, by simp [hs, hc.symm], .inl rfl⟩
    · refine ⟨c :: l, s, rfl, hs, .inr ?_⟩
      by_cases hnil : l = []
      · rw [hnil] at hc ⊢
        simpa using hc
      · rw [List.getLast?_cons_of_ne_nil hnil]
        exact hl.resolve_left hnil

/-- A path cut short loses whole segments, or it ends inside a segment. -/
theorem segments_append_cases {a b : Str} (hb : b ≠ []) (hlast : b.getLast? ≠ some slash) :
    (∃ rest, rest ≠ [] ∧ segments (a ++ b) = segments a ++ rest) ∨
      ∃ u s t rest, s ≠ [] ∧ t ≠ [] ∧ segments a = u ++ [s] ∧
        segments (a ++ b) = u ++ (s ++ t) :: rest := by
  have hrest := segments_ne_nil hb hlast
  obtain ⟨l, s, rfl, hs, hl⟩ := exists_last_segment a
  rw [append_assoc, segments_append_of_slash hl, segments_append_of_slash hl,
    segments_of_not_mem hs]
  cases s with
  | nil => exact .inl ⟨segments b, hrest, by simp⟩
  | cons x s =>
    obtain ⟨y, b, rfl⟩ := exists_cons_of_ne_nil hb
    by_cases hy : y = slash
    · -- the cut stands right before a slash
      subst hy
      rw [segments_slash_cons] at hrest
      exact .inl ⟨segments b, hrest, by rw [segments_append_slash hs]; simp⟩
    · have hx : x ≠ slash := fun h => hs (by simp [h])
      have htake : (s ++ y :: b).takeWhile (· ≠ slash) =
          s ++ y :: b.takeWhile (· ≠ slash) := by
        rw [takeWhile_append_of_pos, takeWhile_cons_of_pos (by simpa using hy)]
        intro c hc
        simpa using fun h : c = slash => hs (by simp [← h, hc])
      refine .inr ⟨segments l, x :: s, y :: b.takeWhile (· ≠ slash),
        segments ((s ++ y :: b).dropWhile (· ≠ slash)), by simp, by simp, by simp, ?_⟩
      rw [cons_append, segments_cons_of_ne hx, htake]
      rfl

theorem matchesPrefix_append : ∀ (w u v : List Str),
    matchesPrefix (w ++ u) (w ++ v) = matchesPrefix u v
  | [], _, _ => rfl
  | s :: w, u, v => by simp [matchesPrefix, matchesPrefix_append w u v]

end Rut
