import Mathlib

/-!
# Radix graphs

A radix tree kept in a heap is a graph: vertices are references, a vertex carries the label of the
edge leading *into* it, and a partial map from symbols to child references. Nothing in the heap says
that the graph is a tree, and garbage vertices left behind by a relocation may still point into it.
So all statements are about the vertices that are reachable, together with the word they sit at.

* `At g r w` — vertex `r` is reached from the root by reading exactly the word `w`.
* `Shape g` — the two facts that make the reachable part a radix tree: a child is filed under the
  first symbol of its edge, and a vertex sits at one word only.
* `look g w` — what is stored at the vertex at `w`, if there is one.

Three mutations are described by what they do to the heap (`AddLeaf`, `Split`, `SetTerm`) and each
gets one lemma saying what becomes of `At`; `Shape` and `look` follow from it.
-/

namespace Rut.Lib

open List

/-- A rooted graph with labelled vertices and symbol-indexed children. -/
structure RadixGraph (ρ α τ : Type) where
  root : ρ
  edge : ρ → List α
  child : ρ → α → Option ρ
  term : ρ → τ

namespace RadixGraph

variable {ρ α τ : Type} {g g' : RadixGraph ρ α τ}

/-- Vertex `r` is reached from the root by reading the word `w`. -/
inductive At (g : RadixGraph ρ α τ) : ρ → List α → Prop where
  | root : At g g.root []
  | step {r w a c} : At g r w → g.child r a = some c → At g c (w ++ g.edge c)

/-- The reachable part is a radix tree. -/
structure Shape (g : RadixGraph ρ α τ) : Prop where
  key : ∀ {r w a c}, At g r w → g.child r a = some c → ∃ l, g.edge c = a :: l
  word_unique : ∀ {r w w'}, At g r w → At g r w' → w = w'

/-! ## Words determine vertices -/

/-- The joint statement carried through the induction on the length of `u`: one vertex per word, and
a vertex strictly below another is below one of its children. -/
private def Tidy (g : RadixGraph ρ α τ) (u : List α) : Prop :=
  (∀ r r', At g r u → At g r' u → r = r') ∧
  ∀ r r₁ u₁, At g r u → At g r₁ u₁ → u₁ <+: u → u₁.length < u.length →
    ∃ a c, u₁ ++ [a] <+: u ∧ g.child r₁ a = some c ∧ u₁ ++ g.edge c <+: u

private theorem tidy_of_shape (hS : Shape g) (u : List α) : Tidy g u := by
  induction hn : u.length using Nat.strongRecOn generalizing u with
  | _ n ih =>
    have ih' : ∀ v : List α, v.length < u.length → Tidy g v :=
      fun v hv => ih v.length (hn ▸ hv) v rfl
    -- No vertex sits strictly inside the last edge of `u`.
    have inside : ∀ {r₀ w₀ a c l r₁ u₁}, At g r₀ w₀ → g.child r₀ a = some c →
        g.edge c = a :: l → u = w₀ ++ g.edge c → At g r₁ u₁ → u₁ <+: u →
        u₁.length < u.length → u₁.length ≤ w₀.length := by
      intro r₀ w₀ a c l r₁ u₁ h₀ hc hl hu h₁ hpre hlt
      by_contra hlen
      have hlen : w₀.length < u₁.length := by omega
      have hpre' : w₀ <+: u₁ :=
        prefix_of_prefix_length_le ⟨_, hu.symm⟩ hpre hlen.le
      obtain ⟨a', c', h1, h2, h3⟩ := (ih' u₁ hlt).2 r₁ r₀ w₀ h₁ h₀ hpre' hlen
      have ha : a' = a := by
        have hx : w₀ ++ [a'] <+: w₀ ++ (a :: l) := by
          rw [← hl, ← hu]; exact h1.trans hpre
        simpa using (prefix_append_right_inj w₀).mp hx
      subst ha
      rw [hc] at h2
      cases h2
      rw [← hu] at h3
      exact absurd h3.length_le (by omega)
    constructor
    · intro r r' hr hr'
      cases hr with
      | root =>
        generalize hv : ([] : List α) = v at hr'
        cases hr' with
        | root => rfl
        | step h₀ hc =>
          obtain ⟨l, hl⟩ := hS.key h₀ hc
          simp [hl] at hv
      | @step r₀ w₀ a _ h₀ hc =>
        obtain ⟨l, hl⟩ := hS.key h₀ hc
        generalize hv : w₀ ++ g.edge r = v at hr'
        cases hr' with
        | root => simp [hl] at hv
        | @step r₀' w₀' a' _ h₀' hc' =>
          obtain ⟨l', hl'⟩ := hS.key h₀' hc'
          have hlt : w₀.length < (w₀ ++ g.edge r).length := by rw [hl]; simp
          have hlt' : w₀'.length < (w₀ ++ g.edge r).length := by rw [hv, hl']; simp
          have h1 := inside h₀ hc hl rfl h₀' (hv ▸ prefix_append w₀' _) hlt'
          have h2 := inside h₀' hc' hl' hv h₀ (prefix_append w₀ _) hlt
          have hw : w₀ = w₀' :=
            (prefix_of_prefix_length_le (prefix_append w₀ _)
              (hv ▸ prefix_append w₀' _) h2).eq_of_length (by omega)
          subst hw
          have hr : r₀ = r₀' := (ih' w₀ hlt).1 _ _ h₀ h₀'
          subst hr
          have ha := append_cancel_left hv
          rw [hl, hl'] at ha
          rw [(List.cons.inj ha).1] at hc
          exact Option.some.inj (hc.symm.trans hc')
    · intro r r₁ u₁ hr h₁ hpre hlt
      cases hr with
      | root => simp at hlt
      | @step r₀ w₀ a _ h₀ hc =>
        obtain ⟨l, hl⟩ := hS.key h₀ hc
        have hw₀lt : w₀.length < (w₀ ++ g.edge r).length := by rw [hl]; simp
        have hle := inside h₀ hc hl rfl h₁ hpre hlt
        have hpre' : u₁ <+: w₀ :=
          prefix_of_prefix_length_le hpre (prefix_append _ _) hle
        rcases Nat.lt_or_eq_of_le hle with hlen | hlen
        · obtain ⟨a', c', h1, h2, h3⟩ := (ih' w₀ hw₀lt).2 r₀ r₁ u₁ h₀ h₁ hpre' hlen
          exact ⟨a', c', h1.trans (prefix_append _ _), h2,
            h3.trans (prefix_append _ _)⟩
        · have heq : u₁ = w₀ := hpre'.eq_of_length hlen
          subst heq
          have hr : r₁ = r₀ := (ih' u₁ hlt).1 _ _ h₁ h₀
          subst hr
          exact ⟨a, r, ⟨l, by rw [hl]; simp⟩, hc, prefix_refl _⟩

variable {r c : ρ} {w : List α} {a : α}

/-- At most one vertex sits at a word. -/
theorem At.unique (hS : Shape g) {r' : ρ} {u : List α} (h : At g r u) (h' : At g r' u) : r = r' :=
  (tidy_of_shape hS u).1 r r' h h'

/-- A vertex strictly below `r₁` is below the child of `r₁` on the next symbol. -/
theorem At.through (hS : Shape g) {r₁ : ρ} {u u₁ : List α} (h : At g r u) (h₁ : At g r₁ u₁)
    (hpre : u₁ <+: u) (hlt : u₁.length < u.length) :
    ∃ a c, u₁ ++ [a] <+: u ∧ g.child r₁ a = some c ∧ u₁ ++ g.edge c <+: u :=
  (tidy_of_shape hS u).2 r r₁ u₁ h h₁ hpre hlt

/-- A reachable vertex is nobody's descendant twice: a child is not its own parent. -/
theorem At.child_ne_self (hS : Shape g) (h : At g r w) (hc : g.child r a = some c) : c ≠ r := by
  rintro rfl
  obtain ⟨l, hl⟩ := hS.key h hc
  have := hS.word_unique h (h.step hc)
  simp [hl] at this

/-- The slot that holds a reachable vertex is determined by the vertex. -/
theorem At.slot_unique (hS : Shape g) {r' : ρ} {w' : List α} {a' : α} (h : At g r w)
    (hc : g.child r a = some c) (h' : At g r' w') (hc' : g.child r' a' = some c) :
    r = r' ∧ a = a' := by
  obtain ⟨l, hl⟩ := hS.key h hc
  obtain ⟨l', hl'⟩ := hS.key h' hc'
  have hw : w = w' := append_cancel_right (hS.word_unique (h.step hc) (h'.step hc'))
  subst hw
  refine ⟨h.unique hS h', ?_⟩
  rw [hl] at hl'
  exact (List.cons.inj hl').1

/-- Only the root sits at the empty word. -/
theorem At.child_ne_root (hS : Shape g) (h : At g r w) (hc : g.child r a = some c) :
    c ≠ g.root := by
  rintro rfl
  obtain ⟨l, hl⟩ := hS.key h hc
  have := hS.word_unique At.root (h.step hc)
  simp [hl] at this

/-! ## What is stored at a word -/

open Classical in
/-- The contents of the vertex at `w`, if some vertex sits there. -/
noncomputable def look (g : RadixGraph ρ α τ) (w : List α) : Option τ :=
  if h : ∃ r, At g r w then some (g.term h.choose) else none

theorem look_eq_some (hS : Shape g) (h : At g r w) : g.look w = some (g.term r) := by
  have hex : ∃ r, At g r w := ⟨r, h⟩
  rw [look, dif_pos hex, hex.choose_spec.unique hS h]

theorem look_eq_none (h : ∀ r, ¬ At g r w) : g.look w = none := by
  rw [look, dif_neg (fun ⟨r, hr⟩ => h r hr)]

/-- The same with `t₀` standing for what a missing vertex stores. -/
noncomputable def lookD (g : RadixGraph ρ α τ) (t₀ : τ) (w : List α) : τ := (g.look w).getD t₀

theorem lookD_of_at (hS : Shape g) (t₀ : τ) (h : At g r w) : g.lookD t₀ w = g.term r := by
  rw [lookD, look_eq_some hS h]
  rfl

theorem lookD_of_not_at (t₀ : τ) (h : ∀ r, ¬ At g r w) : g.lookD t₀ w = t₀ := by
  rw [lookD, look_eq_none h]
  rfl

/-- Two graphs whose vertices at `w` hold the same, or that both have none, agree at `w`. -/
theorem look_congr (hS : Shape g) (hS' : Shape g')
    (h : ∀ r, At g r w → ∃ r', At g' r' w ∧ g'.term r' = g.term r)
    (h' : ∀ r', At g' r' w → ∃ r, At g r w) : g'.look w = g.look w := by
  by_cases hex : ∃ r, At g r w
  · obtain ⟨r, hr⟩ := hex
    obtain ⟨r', hr', ht⟩ := h r hr
    rw [look_eq_some hS hr, look_eq_some hS' hr', ht]
  · rw [look_eq_none (fun r hr => hex ⟨r, hr⟩),
      look_eq_none (fun r' hr' => hex (h' r' hr'))]

/-! ## Reading along a word

The three facts a descent needs when it stands at the vertex at `p.take i`. -/

section Descent

variable {p u : List α} {i : ℕ} {cur : ρ}

/-- Every vertex further along `p` is below the child on the next symbol. -/
theorem next_child (hS : Shape g) (hcur : At g cur (p.take i)) {r : ρ} (hr : At g r u)
    (hu : u <+: p) (hi : i < u.length) :
    ∃ a c, p[i]? = some a ∧ g.child cur a = some c ∧ g.edge c <+: p.drop i ∧
      i + (g.edge c).length ≤ u.length := by
  have hle : u.length ≤ p.length := hu.length_le
  have hlen : (p.take i).length = i := by rw [length_take]; omega
  have hpre : p.take i <+: u :=
    prefix_of_prefix_length_le (List.take_prefix i p) hu (by omega)
  obtain ⟨a, c, h1, h2, h3⟩ := hr.through hS hcur hpre (by omega)
  refine ⟨a, c, ?_, h2, ?_, ?_⟩
  · obtain ⟨s, hs⟩ := h1.trans hu
    have : p = p.take i ++ ([a] ++ s) := by rw [← append_assoc, hs]
    rw [this, List.getElem?_append_right (by omega), hlen]
    simp
  · have h4 : p.take i ++ g.edge c <+: p.take i ++ p.drop i := by
      rw [take_append_drop]; exact h3.trans hu
    exact (prefix_append_right_inj _).mp h4
  · have := h3.length_le
    rw [length_append, hlen] at this
    exact this

/-- Following a matching edge moves along `p` by the length of the edge. -/
theorem At.advance (hcur : At g cur (p.take i)) {a : α} {c : ρ} (hc : g.child cur a = some c)
    (hpre : g.edge c <+: p.drop i) : At g c (p.take (i + (g.edge c).length)) := by
  have h := hcur.step hc
  rwa [prefix_iff_eq_take.mp hpre, ← take_add] at h

end Descent

/-! ## Adding a leaf

The new leaf `leaf` is filed under `a` at the vertex `cur`. The vertex may have to move to a bigger
cell on the way: `cur'` is where it lives afterwards, and the slot that held `cur` is redirected. -/

section AddLeaf

variable [DecidableEq ρ]

/-- Where a reference points after `cur` has moved to `cur'`. -/
def reloc (cur cur' c : ρ) : ρ := if c = cur then cur' else c

/-- `g'` is `g` with a leaf added below `cur`, which now lives at `cur'`. -/
structure AddLeaf (g g' : RadixGraph ρ α τ) (cur cur' leaf : ρ) (w : List α) (a : α)
    (rest : List α) : Prop where
  at_cur : At g cur w
  no_child : g.child cur a = none
  leaf_fresh : ∀ u, ¬ At g leaf u
  cur_fresh : cur' = cur ∨ ∀ u, ¬ At g cur' u
  leaf_ne : leaf ≠ cur'
  root : g'.root = reloc cur cur' g.root
  edge_cur : g'.edge cur' = g.edge cur
  term_cur : g'.term cur' = g.term cur
  child_same : ∀ x, x ≠ a → g'.child cur' x = g.child cur x
  child_new : g'.child cur' a = some leaf
  edge_leaf : g'.edge leaf = a :: rest
  child_leaf : ∀ x, g'.child leaf x = none
  edge_other : ∀ {r u}, At g r u → r ≠ cur → g'.edge r = g.edge r
  term_other : ∀ {r u}, At g r u → r ≠ cur → g'.term r = g.term r
  child_other : ∀ {r u}, At g r u → r ≠ cur →
    ∀ x, g'.child r x = (g.child r x).map (reloc cur cur')

variable {cur cur' leaf : ρ} {w rest : List α} {a : α}

variable {r : ρ} {u : List α}

theorem AddLeaf.edge_reloc (h : AddLeaf g g' cur cur' leaf w a rest) (hr : At g r u) :
    g'.edge (reloc cur cur' r) = g.edge r := by
  unfold reloc
  split
  · next heq => rw [heq, h.edge_cur]
  · next hne => exact h.edge_other hr hne

/-- Every old vertex keeps its word. -/
theorem AddLeaf.at_reloc (hS : Shape g) (h : AddLeaf g g' cur cur' leaf w a rest) (hr : At g r u) :
    At g' (reloc cur cur' r) u := by
  induction hr with
  | root => rw [← h.root]; exact At.root
  | @step r v x c hr hc ih =>
    rw [← h.edge_reloc (hr.step hc)]
    refine ih.step (a := x) ?_
    by_cases hrc : r = cur
    · subst hrc
      have hxa : x ≠ a := by
        rintro rfl
        rw [h.no_child] at hc
        cases hc
      have hne : c ≠ r := hr.child_ne_self hS hc
      simp only [reloc, ↓reduceIte, hne]
      rw [h.child_same x hxa, hc]
    · have : reloc cur cur' r = r := by simp [reloc, hrc]
      rw [this, h.child_other hr hrc, hc, Option.map_some]

/-- The vertices after adding a leaf: the old ones at their words, and the leaf. -/
theorem AddLeaf.at_iff (hS : Shape g) (h : AddLeaf g g' cur cur' leaf w a rest) :
    At g' r u ↔ (r = cur' ∧ u = w) ∨ (r = leaf ∧ u = w ++ a :: rest) ∨ (r ≠ cur ∧ At g r u) := by
  constructor
  · intro hr
    induction hr with
    | root =>
      rw [h.root]
      unfold reloc
      split
      · next heq => exact Or.inl ⟨rfl, hS.word_unique At.root (heq ▸ h.at_cur)⟩
      · next hne => exact Or.inr (Or.inr ⟨hne, At.root⟩)
    | @step r v x c _ hc ih =>
      rcases ih with ⟨rfl, rfl⟩ | ⟨rfl, rfl⟩ | ⟨hne, hr⟩
      · by_cases hxa : x = a
        · subst hxa
          rw [h.child_new] at hc
          cases hc
          exact Or.inr (Or.inl ⟨rfl, by rw [h.edge_leaf]⟩)
        · rw [h.child_same x hxa] at hc
          have hne : c ≠ cur := h.at_cur.child_ne_self hS hc
          rw [h.edge_other (h.at_cur.step hc) hne]
          exact Or.inr (Or.inr ⟨hne, h.at_cur.step hc⟩)
      · rw [h.child_leaf] at hc
        cases hc
      · rw [h.child_other hr hne, Option.map_eq_some_iff] at hc
        obtain ⟨c₀, hc₀, rfl⟩ := hc
        rw [h.edge_reloc (hr.step hc₀)]
        unfold reloc
        split
        · next heq =>
          exact Or.inl ⟨rfl, hS.word_unique (hr.step hc₀) (heq ▸ h.at_cur)⟩
        · next hne' => exact Or.inr (Or.inr ⟨hne', hr.step hc₀⟩)
  · have hcur : At g' cur' w := by
      have := h.at_reloc hS h.at_cur
      rwa [reloc, if_pos rfl] at this
    rintro (⟨rfl, rfl⟩ | ⟨rfl, rfl⟩ | ⟨hne, hr⟩)
    · exact hcur
    · rw [← h.edge_leaf]
      exact hcur.step h.child_new
    · have := h.at_reloc hS hr
      rwa [reloc, if_neg hne] at this

theorem AddLeaf.shape (hS : Shape g) (h : AddLeaf g g' cur cur' leaf w a rest) : Shape g' where
  key := by
    intro r u x c hr hc
    rcases (h.at_iff hS).mp hr with ⟨rfl, rfl⟩ | ⟨rfl, rfl⟩ | ⟨hne, hr'⟩
    · by_cases hxa : x = a
      · subst hxa
        rw [h.child_new] at hc
        cases hc
        exact ⟨rest, h.edge_leaf⟩
      · rw [h.child_same x hxa] at hc
        rw [h.edge_other (h.at_cur.step hc) (h.at_cur.child_ne_self hS hc)]
        exact hS.key h.at_cur hc
    · rw [h.child_leaf] at hc
      cases hc
    · rw [h.child_other hr' hne, Option.map_eq_some_iff] at hc
      obtain ⟨c₀, hc₀, rfl⟩ := hc
      rw [h.edge_reloc (hr'.step hc₀)]
      exact hS.key hr' hc₀
  word_unique := by
    intro r u u' hr hr'
    have hcur' : ∀ v, r ≠ cur → At g r v → r ≠ cur' := by
      rintro v hne hv rfl
      rcases h.cur_fresh with heq | hf
      · exact hne heq
      · exact hf v hv
    rcases (h.at_iff hS).mp hr with ⟨h1, rfl⟩ | ⟨h1, rfl⟩ | ⟨h1, h2⟩ <;>
      rcases (h.at_iff hS).mp hr' with ⟨k1, rfl⟩ | ⟨k1, rfl⟩ | ⟨k1, k2⟩
    · rfl
    · exact absurd (k1.symm.trans h1) h.leaf_ne
    · exact absurd h1 (hcur' _ k1 k2)
    · exact absurd (h1.symm.trans k1) h.leaf_ne
    · rfl
    · exact absurd (h1 ▸ k2) (h.leaf_fresh _)
    · exact absurd k1 (hcur' _ h1 h2)
    · exact absurd (k1 ▸ h2) (h.leaf_fresh _)
    · exact hS.word_unique h2 k2

/-- Nothing stored changes, except at the word of the leaf. -/
theorem AddLeaf.look_eq (hS : Shape g) (h : AddLeaf g g' cur cur' leaf w a rest)
    (hu : u ≠ w ++ a :: rest) : g'.look u = g.look u := by
  refine look_congr hS (h.shape hS) ?_ ?_
  · intro r hr
    refine ⟨reloc cur cur' r, h.at_reloc hS hr, ?_⟩
    unfold reloc
    split
    · next heq => rw [heq, h.term_cur]
    · next hne => exact h.term_other hr hne
  · intro r hr
    rcases (h.at_iff hS).mp hr with ⟨_, rfl⟩ | ⟨_, rfl⟩ | ⟨_, hr'⟩
    · exact ⟨cur, h.at_cur⟩
    · exact absurd rfl hu
    · exact ⟨r, hr'⟩

theorem AddLeaf.at_leaf (hS : Shape g) (h : AddLeaf g g' cur cur' leaf w a rest) :
    At g' leaf (w ++ a :: rest) :=
  (h.at_iff hS).mpr (Or.inr (Or.inl ⟨rfl, rfl⟩))

/-- The word of the new leaf was vacant. -/
theorem AddLeaf.vacant (hS : Shape g) (h : AddLeaf g g' cur cur' leaf w a rest) (r : ρ) :
    ¬ At g r (w ++ a :: rest) := by
  intro hr
  obtain ⟨x, c, h1, h2, _⟩ := hr.through hS h.at_cur (prefix_append _ _) (by simp)
  have hx : x = a := by simpa using (prefix_append_right_inj w).mp h1
  rw [hx, h.no_child] at h2
  cases h2

/-- A leaf that stores what a missing vertex stores changes nothing to be seen. -/
theorem AddLeaf.lookD_eq (hS : Shape g) (h : AddLeaf g g' cur cur' leaf w a rest) {t₀ : τ}
    (hterm : g'.term leaf = t₀) (u : List α) : g'.lookD t₀ u = g.lookD t₀ u := by
  by_cases hu : u = w ++ a :: rest
  · subst hu
    rw [lookD_of_at (h.shape hS) t₀ (h.at_leaf hS), lookD_of_not_at t₀ (h.vacant hS), hterm]
  · rw [lookD, lookD, h.look_eq hS hu]

end AddLeaf

/-! ## Splitting an edge

The vertex `c` keeps its cell and becomes the upper half of the edge; a fresh vertex `tail` takes
over its contents and children. -/

/-- `g'` is `g` with the edge into `c` cut into `e₁` and `d :: e₂`. -/
structure Split (g g' : RadixGraph ρ α τ) (c tail : ρ) (w e₁ : List α) (d : α)
    (e₂ : List α) : Prop where
  at_c : At g c (w ++ (e₁ ++ d :: e₂))
  edge_c : g.edge c = e₁ ++ d :: e₂
  upper_ne : e₁ ≠ []
  tail_fresh : ∀ u, ¬ At g tail u
  root : g'.root = g.root
  edge_upper : g'.edge c = e₁
  child_upper : g'.child c d = some tail
  child_upper_ne : ∀ x, x ≠ d → g'.child c x = none
  edge_tail : g'.edge tail = d :: e₂
  child_tail : ∀ x, g'.child tail x = g.child c x
  term_tail : g'.term tail = g.term c
  edge_other : ∀ {r u}, At g r u → r ≠ c → g'.edge r = g.edge r
  term_other : ∀ {r u}, At g r u → r ≠ c → g'.term r = g.term r
  child_other : ∀ {r u}, At g r u → r ≠ c → ∀ x, g'.child r x = g.child r x

section Split

variable {c tail : ρ} {w e₁ e₂ : List α} {d : α}

variable {u : List α}

theorem Split.at_of_at (hS : Shape g) (h : Split g g' c tail w e₁ d e₂) {r : ρ} (hr : At g r u) :
    (r ≠ c → At g' r u) ∧ (r = c → At g' c (w ++ e₁) ∧ At g' tail u) := by
  induction hr with
  | root =>
    refine ⟨fun _ => h.root ▸ At.root, fun heq => ?_⟩
    have := hS.word_unique At.root (heq ▸ h.at_c)
    simp at this
  | @step r v x b hr hc ih =>
    have hup : r ≠ c → At g' b (v ++ g'.edge b) := fun hne =>
      (ih.1 hne).step (a := x) (by rw [h.child_other hr hne]; exact hc)
    have hlow : r = c → At g' b (v ++ g'.edge b) := by
      rintro rfl
      exact (ih.2 rfl).2.step (a := x) (by rw [h.child_tail]; exact hc)
    have hb : At g' b (v ++ g'.edge b) := by
      by_cases hrc : r = c
      · exact hlow hrc
      · exact hup hrc
    constructor
    · intro hne
      rw [← h.edge_other (hr.step hc) hne]
      exact hb
    · rintro rfl
      have hv : v = w := by
        have := hS.word_unique (hr.step hc) h.at_c
        rw [h.edge_c] at this
        exact append_cancel_right this
      subst hv
      rw [h.edge_upper] at hb
      refine ⟨hb, ?_⟩
      have := hb.step h.child_upper
      rwa [h.edge_tail, append_assoc, ← h.edge_c] at this

/-- The vertices after a split: the old ones at their words, with `tail` in the place of `c`, and
`c` at the new branching point. -/
theorem Split.at_iff (hS : Shape g) (h : Split g g' c tail w e₁ d e₂) {r : ρ} :
    At g' r u ↔ (r = c ∧ u = w ++ e₁) ∨ (r = tail ∧ u = w ++ (e₁ ++ d :: e₂)) ∨
      (r ≠ c ∧ At g r u) := by
  constructor
  · intro hr
    induction hr with
    | root =>
      rw [h.root]
      refine Or.inr (Or.inr ⟨?_, At.root⟩)
      intro heq
      have := hS.word_unique At.root (heq ▸ h.at_c)
      simp at this
    | @step r v x b _ hc ih =>
      -- A child in `g` of a vertex at `v`, seen from `g'`.
      have old : ∀ {r₀}, At g r₀ v → g.child r₀ x = some b →
          (b = c ∧ v ++ g'.edge b = w ++ e₁) ∨ (b = tail ∧ v ++ g'.edge b = w ++ (e₁ ++ d :: e₂)) ∨
            (b ≠ c ∧ At g b (v ++ g'.edge b)) := by
        intro r₀ h₀ hb
        by_cases hbc : b = c
        · subst hbc
          refine Or.inl ⟨rfl, ?_⟩
          have := hS.word_unique (h₀.step hb) h.at_c
          rw [h.edge_c] at this
          rw [h.edge_upper, append_cancel_right this]
        · rw [h.edge_other (h₀.step hb) hbc]
          exact Or.inr (Or.inr ⟨hbc, h₀.step hb⟩)
      rcases ih with ⟨rfl, rfl⟩ | ⟨rfl, rfl⟩ | ⟨hne, hr⟩
      · by_cases hxd : x = d
        · subst hxd
          rw [h.child_upper] at hc
          cases hc
          exact Or.inr (Or.inl ⟨rfl, by rw [h.edge_tail, append_assoc]⟩)
        · rw [h.child_upper_ne x hxd] at hc
          cases hc
      · rw [h.child_tail] at hc
        exact old h.at_c hc
      · rw [h.child_other hr hne] at hc
        exact old hr hc
  · rintro (⟨rfl, rfl⟩ | ⟨rfl, rfl⟩ | ⟨hne, hr⟩)
    · exact ((h.at_of_at hS h.at_c).2 rfl).1
    · exact ((h.at_of_at hS h.at_c).2 rfl).2
    · exact (h.at_of_at hS hr).1 hne

theorem Split.shape (hS : Shape g) (h : Split g g' c tail w e₁ d e₂) : Shape g' where
  key := by
    intro r u x b hr hc
    have old : ∀ {r₀ v}, At g r₀ v → g.child r₀ x = some b → ∃ l, g'.edge b = x :: l := by
      intro r₀ v h₀ hb
      obtain ⟨l, hl⟩ := hS.key h₀ hb
      by_cases hbc : b = c
      · subst hbc
        rw [h.edge_c] at hl
        obtain ⟨y, ys, hy⟩ := exists_cons_of_ne_nil h.upper_ne
        rw [hy] at hl
        exact ⟨ys, by rw [h.edge_upper, hy, (List.cons.inj hl).1]⟩
      · exact ⟨l, by rw [h.edge_other (h₀.step hb) hbc, hl]⟩
    rcases (h.at_iff hS).mp hr with ⟨rfl, rfl⟩ | ⟨rfl, rfl⟩ | ⟨hne, hr'⟩
    · by_cases hxd : x = d
      · subst hxd
        rw [h.child_upper] at hc
        cases hc
        exact ⟨e₂, h.edge_tail⟩
      · rw [h.child_upper_ne x hxd] at hc
        cases hc
    · rw [h.child_tail] at hc
      exact old h.at_c hc
    · rw [h.child_other hr' hne] at hc
      exact old hr' hc
  word_unique := by
    intro r u u' hr hr'
    have hct : c ≠ tail := fun heq => h.tail_fresh _ (heq ▸ h.at_c)
    rcases (h.at_iff hS).mp hr with ⟨h1, rfl⟩ | ⟨h1, rfl⟩ | ⟨h1, h2⟩ <;>
      rcases (h.at_iff hS).mp hr' with ⟨k1, rfl⟩ | ⟨k1, rfl⟩ | ⟨k1, k2⟩
    · rfl
    · exact absurd (h1.symm.trans k1) hct
    · exact absurd h1 k1
    · exact absurd (k1.symm.trans h1) hct
    · rfl
    · exact absurd (h1 ▸ k2) (h.tail_fresh _)
    · exact absurd k1 h1
    · exact absurd (k1 ▸ h2) (h.tail_fresh _)
    · exact hS.word_unique h2 k2

theorem Split.at_upper (hS : Shape g) (h : Split g g' c tail w e₁ d e₂) :
    At g' c (w ++ e₁) :=
  (h.at_iff hS).mpr (Or.inl ⟨rfl, rfl⟩)

/-- Nothing stored changes, except at the new branching point. -/
theorem Split.look_eq (hS : Shape g) (h : Split g g' c tail w e₁ d e₂) (hu : u ≠ w ++ e₁) :
    g'.look u = g.look u := by
  refine look_congr hS (h.shape hS) ?_ ?_
  · intro r hr
    by_cases hrc : r = c
    · subst hrc
      exact ⟨tail, ((h.at_of_at hS hr).2 rfl).2, h.term_tail⟩
    · exact ⟨r, (h.at_of_at hS hr).1 hrc, h.term_other hr hrc⟩
  · intro r hr
    rcases (h.at_iff hS).mp hr with ⟨_, rfl⟩ | ⟨_, rfl⟩ | ⟨_, hr'⟩
    · exact absurd rfl hu
    · exact ⟨c, h.at_c⟩
    · exact ⟨r, hr'⟩

/-- The branching point of a split was vacant. -/
theorem Split.vacant (hS : Shape g) (h : Split g g' c tail w e₁ d e₂) {cur : ρ} {a : α}
    (hcur : At g cur w) (hc : g.child cur a = some c) (r : ρ) : ¬ At g r (w ++ e₁) := by
  intro hr
  obtain ⟨l, hl⟩ := hS.key hcur hc
  have hpos : 0 < e₁.length := length_pos_of_ne_nil h.upper_ne
  obtain ⟨x, b, h1, h2, h3⟩ := hr.through hS hcur (prefix_append _ _) (by simp; omega)
  have hx : x = a := by
    have h4 : [x] <+: e₁ := (prefix_append_right_inj w).mp h1
    have h5 : [x] <+: a :: l := by
      rw [← hl, h.edge_c]; exact h4.trans (prefix_append _ _)
    simpa using h5
  rw [hx, hc] at h2
  cases h2
  have := h3.length_le
  rw [h.edge_c] at this
  simp only [length_append, length_cons] at this
  omega

/-- A branching point that stores what a missing vertex stores changes nothing to be seen. -/
theorem Split.lookD_eq (hS : Shape g) (h : Split g g' c tail w e₁ d e₂) {cur : ρ} {a : α}
    (hcur : At g cur w) (hc : g.child cur a = some c) {t₀ : τ} (hterm : g'.term c = t₀)
    (u : List α) : g'.lookD t₀ u = g.lookD t₀ u := by
  by_cases hu : u = w ++ e₁
  · subst hu
    rw [lookD_of_at (h.shape hS) t₀ (h.at_upper hS), lookD_of_not_at t₀ (h.vacant hS hcur hc), hterm]
  · rw [lookD, lookD, h.look_eq hS hu]

end Split

/-! ## Storing at a vertex -/

/-- `g'` is `g` with the contents of `r₀` replaced. -/
structure SetTerm (g g' : RadixGraph ρ α τ) (r₀ : ρ) : Prop where
  root : g'.root = g.root
  edge : ∀ {r u}, At g r u → g'.edge r = g.edge r
  child : ∀ {r u}, At g r u → ∀ x, g'.child r x = g.child r x
  term_other : ∀ {r u}, At g r u → r ≠ r₀ → g'.term r = g.term r

section SetTerm

variable {r₀ : ρ}

theorem SetTerm.at_iff (h : SetTerm g g' r₀) {r : ρ} {u : List α} : At g' r u ↔ At g r u := by
  constructor
  · intro hr
    induction hr with
    | root => rw [h.root]; exact At.root
    | @step r v x c _ hc ih =>
      rw [h.child ih] at hc
      rw [h.edge (ih.step hc)]
      exact ih.step hc
  · intro hr
    induction hr with
    | root => rw [← h.root]; exact At.root
    | @step r v x c hr hc ih =>
      rw [← h.edge (hr.step hc)]
      exact ih.step (by rw [h.child hr]; exact hc)

theorem SetTerm.shape (hS : Shape g) (h : SetTerm g g' r₀) : Shape g' where
  key := by
    intro r u x c hr hc
    have hr' := h.at_iff.mp hr
    rw [h.child hr'] at hc
    rw [h.edge (hr'.step hc)]
    exact hS.key hr' hc
  word_unique hr hr' := hS.word_unique (h.at_iff.mp hr) (h.at_iff.mp hr')

theorem SetTerm.look_eq (hS : Shape g) (h : SetTerm g g' r₀) {w u : List α} (h₀ : At g r₀ w)
    (hu : u ≠ w) : g'.look u = g.look u := by
  refine look_congr hS (h.shape hS) ?_ (fun r hr => ⟨r, h.at_iff.mp hr⟩)
  intro r hr
  refine ⟨r, h.at_iff.mpr hr, h.term_other hr ?_⟩
  rintro rfl
  exact hu (hS.word_unique hr h₀)

end SetTerm

end RadixGraph
end Rut.Lib
