import Rut.Lib.RadixGraph

/-!
# Counting the vertices of a radix graph

A census of a radix graph is a list of its reachable vertices, each once. Summing a weight of the
number of children over it gives the measures an amortised argument needs; what the mutations of
`RadixGraph` do to such a sum does not depend on the weight:

    AddLeaf   the vertex that gets the leaf weighs as one with one child more, the leaf as one with none
    Split     a vertex with one child is added, whatever the split vertex weighs

`mul_total_le` bounds how many vertices are wide by the sum of `children - 1`.
-/

namespace Rut.Lib

open List

/-- Admitting one more element of a duplicate-free list makes its filtrate longer by one. -/
theorem length_filter_insert {α : Type} [DecidableEq α] {l : List α} (hl : l.Nodup) {a : α}
    (ha : a ∈ l) {p q : α → Bool} (hp : p a = false) (hq : q a = true)
    (hne : ∀ x, x ≠ a → q x = p x) : (l.filter q).length = (l.filter p).length + 1 := by
  have hperm : (l.filter q).Perm (a :: l.filter p) := by
    rw [perm_ext_iff_of_nodup (hl.filter q)
      (nodup_cons.mpr ⟨by simp [hp], hl.filter p⟩)]
    intro x
    by_cases hx : x = a
    · simp [hx, ha, hq]
    · simp [hx, hne x hx]
  rw [hperm.length_eq, length_cons]

namespace RadixGraph

variable {ρ α τ : Type} {g g' : RadixGraph ρ α τ}

/-! ## Sums -/

/-- Number of children of a vertex; `alphabet` lists the symbols. -/
def fanout (alphabet : List α) (g : RadixGraph ρ α τ) (r : ρ) : ℕ :=
  (alphabet.filter (fun a => (g.child r a).isSome)).length

/-- `l` lists the reachable vertices, each once. -/
structure Census (g : RadixGraph ρ α τ) (l : List ρ) : Prop where
  nodup : l.Nodup
  mem_iff : ∀ r, r ∈ l ↔ ∃ w, At g r w

/-- The sum over `l` of a weight of the number of children. -/
def total (alphabet : List α) (f : ℕ → ℕ) (g : RadixGraph ρ α τ) (l : List ρ) : ℕ :=
  (l.map (fun r => f (fanout alphabet g r))).sum

variable {alphabet : List α} {f : ℕ → ℕ} {l m : List ρ} {r : ρ}

theorem fanout_congr {r' : ρ} (h : ∀ a, (g'.child r' a).isSome = (g.child r a).isSome) :
    fanout alphabet g' r' = fanout alphabet g r := by
  simp only [fanout, h]

@[simp] theorem total_cons :
    total alphabet f g (r :: l) = f (fanout alphabet g r) + total alphabet f g l := by
  simp [total]

theorem total_congr (h : ∀ r ∈ l, fanout alphabet g' r = fanout alphabet g r) :
    total alphabet f g' l = total alphabet f g l := by
  rw [total, total, map_congr_left (fun r hr => by rw [h r hr])]

theorem total_perm (h : l.Perm m) : total alphabet f g l = total alphabet f g m :=
  (h.map _).sum_eq

theorem Census.perm (hl : Census g l) (h : l.Perm m) : Census g m :=
  ⟨h.nodup_iff.mp hl.nodup, fun r => by rw [← h.mem_iff]; exact hl.mem_iff r⟩

/-- A census can be read with any of its vertices first. -/
theorem Census.front [DecidableEq ρ] (hl : Census g l) {w : List α} (hr : At g r w) :
    ∃ m, Census g (r :: m) ∧ ∀ alphabet f, total alphabet f g l = total alphabet f g (r :: m) := by
  have hp : l.Perm (r :: l.erase r) := perm_cons_erase ((hl.mem_iff r).mpr ⟨w, hr⟩)
  exact ⟨l.erase r, hl.perm hp, fun _ _ => total_perm hp⟩

theorem Census.at_of_mem (hl : Census g (r :: m)) {x : ρ} (hx : x ∈ m) :
    x ≠ r ∧ ∃ w, At g x w := by
  refine ⟨?_, (hl.mem_iff x).mp (mem_cons_of_mem _ hx)⟩
  rintro rfl
  exact (nodup_cons.mp hl.nodup).1 hx

/-- Vertices with at least `k + 2` children each count for `k + 1` in the sum of `children - 1`. -/
theorem mul_total_le (alphabet : List α) (k : ℕ) (g : RadixGraph ρ α τ) (l : List ρ) :
    (k + 1) * total alphabet (fun c => if k + 2 ≤ c then 1 else 0) g l ≤
      total alphabet (fun c => c - 1) g l := by
  induction l with
  | nil => simp [total]
  | cons r l ih =>
    rw [total_cons, total_cons, Nat.mul_add]
    refine Nat.add_le_add ?_ ih
    split
    · omega
    · simp

/-! ## Leaves -/

section AddLeaf

variable [DecidableEq ρ] {cur cur' leaf : ρ} {w rest : List α} {a : α}

theorem AddLeaf.census (hS : Shape g) (h : AddLeaf g g' cur cur' leaf w a rest)
    (hm : Census g (cur :: m)) : Census g' (leaf :: cur' :: m) := by
  have hnd := nodup_cons.mp hm.nodup
  refine ⟨nodup_cons.mpr ⟨?_, nodup_cons.mpr ⟨?_, hnd.2⟩⟩, fun r => ?_⟩
  · intro hleaf
    rcases mem_cons.mp hleaf with heq | hmem
    · exact h.leaf_ne heq
    · obtain ⟨-, u, hu⟩ := hm.at_of_mem hmem
      exact h.leaf_fresh u hu
  · intro hmem
    obtain ⟨hne, u, hu⟩ := hm.at_of_mem hmem
    rcases h.cur_fresh with heq | hfresh
    · exact hne heq
    · exact hfresh u hu
  · constructor
    · intro hr
      rcases mem_cons.mp hr with rfl | hr
      · exact ⟨_, h.at_leaf hS⟩
      rcases mem_cons.mp hr with rfl | hr
      · exact ⟨w, (h.at_iff hS).mpr (.inl ⟨rfl, rfl⟩)⟩
      · obtain ⟨hne, u, hu⟩ := hm.at_of_mem hr
        exact ⟨u, (h.at_iff hS).mpr (.inr (.inr ⟨hne, hu⟩))⟩
    · rintro ⟨u, hu⟩
      rcases (h.at_iff hS).mp hu with ⟨rfl, -⟩ | ⟨rfl, -⟩ | ⟨hne, hr⟩
      · simp
      · simp
      · have := (hm.mem_iff r).mpr ⟨u, hr⟩
        simp only [mem_cons] at this ⊢
        exact .inr (.inr (this.resolve_left hne))

theorem AddLeaf.total [DecidableEq α] (h : AddLeaf g g' cur cur' leaf w a rest)
    (hnd : alphabet.Nodup) (ha : a ∈ alphabet) (hm : Census g (cur :: m)) :
    total alphabet f g' (leaf :: cur' :: m) =
      f 0 + f (fanout alphabet g cur + 1) + total alphabet f g m := by
  have hleaf : fanout alphabet g' leaf = 0 := by simp [fanout, h.child_leaf]
  have hcur : fanout alphabet g' cur' = fanout alphabet g cur + 1 :=
    length_filter_insert hnd ha (by simp [h.no_child]) (by simp [h.child_new])
      (fun x hx => by rw [h.child_same x hx])
  have hrest : RadixGraph.total alphabet f g' m = RadixGraph.total alphabet f g m := by
    refine total_congr fun r hr => fanout_congr fun x => ?_
    obtain ⟨hne, u, hu⟩ := hm.at_of_mem hr
    rw [h.child_other hu hne, Option.isSome_map]
  rw [total_cons, total_cons, hleaf, hcur, hrest, Nat.add_assoc]

end AddLeaf

/-! ## Splits -/

section Split

variable {c tail : ρ} {w e₁ e₂ : List α} {d : α}

theorem Split.census (hS : Shape g) (h : Split g g' c tail w e₁ d e₂) (hm : Census g (c :: m)) :
    Census g' (tail :: c :: m) := by
  refine ⟨nodup_cons.mpr ⟨?_, hm.nodup⟩, fun r => ?_⟩
  · intro hmem
    obtain ⟨u, hu⟩ := (hm.mem_iff tail).mp hmem
    exact h.tail_fresh u hu
  · constructor
    · intro hr
      rcases mem_cons.mp hr with rfl | hr
      · exact ⟨_, (h.at_iff hS).mpr (.inr (.inl ⟨rfl, rfl⟩))⟩
      rcases mem_cons.mp hr with rfl | hr
      · exact ⟨_, h.at_upper hS⟩
      · obtain ⟨hne, u, hu⟩ := hm.at_of_mem hr
        exact ⟨u, (h.at_iff hS).mpr (.inr (.inr ⟨hne, hu⟩))⟩
    · rintro ⟨u, hu⟩
      rcases (h.at_iff hS).mp hu with ⟨rfl, -⟩ | ⟨rfl, -⟩ | ⟨-, hr⟩
      · simp
      · simp
      · exact mem_cons_of_mem _ ((hm.mem_iff r).mpr ⟨u, hr⟩)

/-- The tail inherits the children of the split vertex, which keeps a single one. -/
theorem Split.total [DecidableEq α] (h : Split g g' c tail w e₁ d e₂) (hnd : alphabet.Nodup)
    (hd : d ∈ alphabet) (hm : Census g (c :: m)) :
    total alphabet f g' (tail :: c :: m) = f 1 + total alphabet f g (c :: m) := by
  have htail : fanout alphabet g' tail = fanout alphabet g c :=
    fanout_congr (fun x => by rw [h.child_tail])
  have hc : fanout alphabet g' c = 1 := by
    have h0 : (alphabet.filter (fun _ => false)).length = 0 := by simp
    have := length_filter_insert hnd hd (p := fun _ => false)
      (q := fun x => (g'.child c x).isSome) rfl (by simp [h.child_upper])
      (fun x hx => by simp [h.child_upper_ne x hx])
    rw [fanout, this, h0]
  have hrest : RadixGraph.total alphabet f g' m = RadixGraph.total alphabet f g m := by
    refine total_congr fun r hr => fanout_congr fun x => ?_
    obtain ⟨hne, u, hu⟩ := hm.at_of_mem hr
    rw [h.child_other hu hne]
  rw [total_cons, total_cons, total_cons, htail, hc, hrest]
  omega

end Split

end RadixGraph
end Rut.Lib
