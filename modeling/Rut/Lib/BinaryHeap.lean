import Mathlib

/-!
# Binary heaps in an array

An array is a function of the position, of which the first `n` values count. The children of position
`i` are at `2 * i + 1` and `2 * i + 2`, and a heap has the least key at the root.

* `siftUp`, `siftDown` move one value along a path; both only permute the first `n` values.
* `Hole` is what is left of the heap order when one position holds an arbitrary value. A sift up and
  a sift down from there restore it (`sift_isHeap`).
* `contents` is what the array holds, without the order.
-/

namespace Rut.Lib.BinaryHeap

variable {α κ : Type*}

def parent (i : Nat) : Nat := (i - 1) / 2

theorem parent_lt {i : Nat} (h : 0 < i) : parent i < i := by
  unfold parent
  omega

/-- `c` is a child of `i`. The root is nobody's child, although it is its own parent. -/
def IsChild (c i : Nat) : Prop := 0 < c ∧ parent c = i

theorem isChild_iff {c i : Nat} : IsChild c i ↔ c = 2 * i + 1 ∨ c = 2 * i + 2 := by
  unfold IsChild parent
  omega

theorem IsChild.lt {c i : Nat} (h : IsChild c i) : i < c := h.2 ▸ parent_lt h.1

/-! ## Contents -/

def swap (a : Nat → α) (i j : Nat) : Nat → α := a ∘ Equiv.swap i j

@[simp] theorem swap_left (a : Nat → α) (i j : Nat) : swap a i j i = a j := by simp [swap]

@[simp] theorem swap_right (a : Nat → α) (i j : Nat) : swap a i j j = a i := by simp [swap]

theorem swap_of_ne (a : Nat → α) {i j k : Nat} (hi : k ≠ i) (hj : k ≠ j) : swap a i j k = a k := by
  simp [swap, Equiv.swap_apply_of_ne_of_ne hi hj]

def contents (n : Nat) (a : Nat → α) : Multiset α := (Multiset.range n).map a

theorem mem_contents {n : Nat} {a : Nat → α} {x : α} : x ∈ contents n a ↔ ∃ i < n, a i = x := by
  simp [contents]

theorem contents_succ (n : Nat) (a : Nat → α) : contents (n + 1) a = a n ::ₘ contents n a := by
  simp [contents, Multiset.range_succ]

theorem contents_congr {n : Nat} {a b : Nat → α} (h : ∀ k < n, a k = b k) :
    contents n a = contents n b :=
  Multiset.map_congr rfl fun k hk => h k (Multiset.mem_range.mp hk)

theorem swap_apply_lt {n i j k : Nat} (hi : i < n) (hj : j < n) (hk : k < n) :
    Equiv.swap i j k < n := by
  by_cases hki : k = i
  · rw [hki, Equiv.swap_apply_left]
    exact hj
  by_cases hkj : k = j
  · rw [hkj, Equiv.swap_apply_right]
    exact hi
  · rw [Equiv.swap_apply_of_ne_of_ne hki hkj]
    exact hk

/-- Swapping keeps the contents. -/
theorem contents_swap {n i j : Nat} (a : Nat → α) (hi : i < n) (hj : j < n) :
    contents n (swap a i j) = contents n a := by
  have hrange : (Multiset.range n).map (Equiv.swap i j) = Multiset.range n := by
    rw [Multiset.Nodup.ext ((Multiset.nodup_range n).map (Equiv.swap i j).injective)
      (Multiset.nodup_range n)]
    intro k
    simp only [Multiset.mem_map, Multiset.mem_range]
    constructor
    · rintro ⟨m, hm, rfl⟩
      exact swap_apply_lt hi hj hm
    · intro hk
      exact ⟨Equiv.swap i j k, swap_apply_lt hi hj hk, Equiv.swap_apply_self i j k⟩
  rw [contents, swap, ← Multiset.map_map, hrange, contents]

/-- Overwriting a value with the last one, which is then cut off, takes that value out. -/
theorem contents_replace {n i : Nat} (a : Nat → α) (hi : i < n + 1) :
    a i ::ₘ contents n (Function.update a i (a n)) = contents (n + 1) a := by
  have hswap : contents n (swap a i n) = contents n (Function.update a i (a n)) := by
    apply contents_congr
    intro k hk
    by_cases hki : k = i
    · rw [hki, swap_left, Function.update_self]
    · rw [swap_of_ne a hki (by omega), Function.update_of_ne hki]
  rw [← hswap, ← contents_swap a hi (Nat.lt_succ_self n), contents_succ, swap_right]

/-! ## Heaps -/

section Heap

variable [LinearOrder κ] (key : α → κ)

/-- No value has a smaller key than its parent. -/
def IsHeap (n : Nat) (a : Nat → α) : Prop := ∀ i < n, key (a (parent i)) ≤ key (a i)

/-- Move a value up while its parent is greater. The fuel is as large as the position. -/
def siftUp : Nat → (Nat → α) → Nat → Nat → α
  | 0, a, _ => a
  | fuel + 1, a, i =>
    if i = 0 then a
    else if key (a (parent i)) ≤ key (a i) then a
    else siftUp fuel (swap a (parent i) i) (parent i)

/-- The position of the smallest of a value and its children; earlier ones win. -/
def smallest (n : Nat) (a : Nat → α) (i : Nat) : Nat :=
  let s := if 2 * i + 1 < n ∧ key (a (2 * i + 1)) < key (a i) then 2 * i + 1 else i
  if 2 * i + 2 < n ∧ key (a (2 * i + 2)) < key (a s) then 2 * i + 2 else s

/-- Move a value down while a child is smaller. The fuel is as large as the array. -/
def siftDown (n : Nat) : Nat → (Nat → α) → Nat → Nat → α
  | 0, a, _ => a
  | fuel + 1, a, i =>
    if smallest key n a i = i then a
    else siftDown n fuel (swap a (smallest key n a i) i) (smallest key n a i)

/-- What the comparison of a value with its children yields. -/
theorem smallest_spec (n : Nat) (a : Nat → α) (i : Nat) :
    key (a (smallest key n a i)) ≤ key (a i) ∧
      (∀ c < n, IsChild c i → key (a (smallest key n a i)) ≤ key (a c)) ∧
      (smallest key n a i = i ∨ smallest key n a i < n ∧ IsChild (smallest key n a i) i) := by
  simp only [isChild_iff]
  unfold smallest
  dsimp only
  split_ifs with hl hr hr
  · refine ⟨(hr.2.trans hl.2).le, ?_, .inr ⟨hr.1, .inr rfl⟩⟩
    rintro c - (rfl | rfl)
    · exact hr.2.le
    · exact le_rfl
  · refine ⟨hl.2.le, ?_, .inr ⟨hl.1, .inl rfl⟩⟩
    rintro c hc (rfl | rfl)
    · exact le_rfl
    · exact not_lt.mp fun h => hr ⟨hc, h⟩
  · refine ⟨hr.2.le, ?_, .inr ⟨hr.1, .inr rfl⟩⟩
    rintro c hc (rfl | rfl)
    · exact hr.2.le.trans (not_lt.mp fun h => hl ⟨hc, h⟩)
    · exact le_rfl
  · refine ⟨le_rfl, ?_, .inl rfl⟩
    rintro c hc (rfl | rfl)
    · exact not_lt.mp fun h => hl ⟨hc, h⟩
    · exact not_lt.mp fun h => hr ⟨hc, h⟩

variable {key} {n : Nat} {a : Nat → α} {i : Nat}

theorem IsHeap.le_child (h : IsHeap key n a) {c : Nat} (hc : c < n) (hchild : IsChild c i) :
    key (a i) ≤ key (a c) := by
  have hle := h c hc
  rwa [hchild.2] at hle

/-- The root is least. -/
theorem IsHeap.root_le (h : IsHeap key n a) : ∀ i < n, key (a 0) ≤ key (a i) := by
  intro i
  induction i using Nat.strongRecOn with
  | ind i ih =>
    intro hi
    rcases Nat.eq_zero_or_pos i with rfl | hpos
    · exact le_rfl
    · have hlt := parent_lt hpos
      exact (ih _ hlt (hlt.trans hi)).trans (h i hi)

/-! ## Sifting only permutes -/

theorem contents_siftUp (hi : i < n) (fuel : Nat) :
    contents n (siftUp key fuel a i) = contents n a := by
  induction fuel generalizing a i with
  | zero => rfl
  | succ fuel ih =>
    rw [siftUp]
    split_ifs with hzero hle
    · rfl
    · rfl
    · have hp := (parent_lt (Nat.pos_of_ne_zero hzero)).trans hi
      rw [ih hp, contents_swap a hp hi]

theorem contents_siftDown (hi : i < n) (fuel : Nat) :
    contents n (siftDown key n fuel a i) = contents n a := by
  induction fuel generalizing a i with
  | zero => rfl
  | succ fuel ih =>
    rw [siftDown]
    split_ifs with hs
    · rfl
    · have hlt := ((smallest_spec key n a i).2.2.resolve_left hs).1
      rw [ih hlt, contents_swap a hlt hi]

/-! ## Sifting restores the order -/

/-- The order away from position `i`: between the other positions, and across `i`. -/
structure Hole (key : α → κ) (n : Nat) (a : Nat → α) (i : Nat) : Prop where
  off : ∀ j < n, 0 < j → j ≠ i → parent j ≠ i → key (a (parent j)) ≤ key (a j)
  across : 0 < i → ∀ c < n, IsChild c i → key (a (parent i)) ≤ key (a c)

/-- A hole that fits both its parent and its children is none. -/
theorem Hole.isHeap (h : Hole key n a i) (habove : 0 < i → key (a (parent i)) ≤ key (a i))
    (hbelow : ∀ c < n, IsChild c i → key (a i) ≤ key (a c)) : IsHeap key n a := by
  intro j hj
  rcases Nat.eq_zero_or_pos j with rfl | hpos
  · exact le_rfl
  by_cases hji : j = i
  · subst hji
    exact habove hpos
  by_cases hp : parent j = i
  · rw [hp]
    exact hbelow j hj ⟨hpos, hp⟩
  · exact h.off j hj hpos hji hp

theorem IsHeap.hole (h : IsHeap key n a) (i : Nat) (hi : i < n) : Hole key n a i where
  off j hj _ _ _ := h j hj
  across _ _ hc hchild := (h i hi).trans (h.le_child hc hchild)

/-- The value goes up by one, and the hole with it. -/
theorem Hole.up (h : Hole key n a i) (hi : i < n) (hpos : 0 < i)
    (hlt : key (a i) < key (a (parent i))) :
    Hole key n (swap a (parent i) i) (parent i) ∧
      ∀ c < n, IsChild c (parent i) →
        key (swap a (parent i) i (parent i)) ≤ key (swap a (parent i) i c) := by
  have hp := parent_lt hpos
  have hsibling : ∀ c < n, IsChild c (parent i) → c ≠ i → key (a (parent i)) ≤ key (a c) := by
    intro c hc hchild hci
    have := h.off c hc hchild.1 hci (by rw [hchild.2]; omega)
    rwa [hchild.2] at this
  refine ⟨⟨?_, ?_⟩, ?_⟩
  · intro j hj hjpos hjp hpj
    have hji : j ≠ i := fun e => hpj (e ▸ rfl)
    rw [swap_of_ne a hjp hji]
    by_cases hpi : parent j = i
    · rw [hpi, swap_right]
      exact h.across hpos j hj ⟨hjpos, hpi⟩
    · rw [swap_of_ne a hpj hpi]
      exact h.off j hj hjpos hji hpi
  · intro hppos c hc hchild
    have hpp := parent_lt hppos
    have hup : key (a (parent (parent i))) ≤ key (a (parent i)) :=
      h.off _ (by omega) hppos (by omega) (by omega)
    rw [swap_of_ne a (by omega) (by omega)]
    by_cases hci : c = i
    · rw [hci, swap_right]
      exact hup
    · have := hchild.lt
      rw [swap_of_ne a (by omega) hci]
      exact hup.trans (hsibling c hc hchild hci)
  · intro c hc hchild
    rw [swap_left]
    by_cases hci : c = i
    · rw [hci, swap_right]
      exact hlt.le
    · have := hchild.lt
      rw [swap_of_ne a (by omega) hci]
      exact hlt.le.trans (hsibling c hc hchild hci)

/-- Sifting up mends a value that is too small. -/
theorem siftUp_isHeap {fuel : Nat} (h : Hole key n a i) (hi : i < n) (hfuel : i ≤ fuel)
    (hbelow : ∀ c < n, IsChild c i → key (a i) ≤ key (a c)) :
    IsHeap key n (siftUp key fuel a i) := by
  -- along the way up the value stays below the children of its position
  induction fuel generalizing a i with
  | zero => exact h.isHeap (fun hpos => by omega) hbelow
  | succ fuel ih =>
    rw [siftUp]
    split_ifs with hzero hle
    · exact h.isHeap (fun hpos => by omega) hbelow
    · exact h.isHeap (fun _ => hle) hbelow
    · have hpos := Nat.pos_of_ne_zero hzero
      have hp := parent_lt hpos
      obtain ⟨hhole, hbelow'⟩ := h.up hi hpos (not_le.mp hle)
      exact ih hhole (hp.trans hi) (by omega) hbelow'

/-- The value goes down by one, and the hole with it. -/
theorem Hole.down (h : Hole key n a i) {s : Nat} (hs : s < n) (hchild : IsChild s i)
    (hmin : ∀ c < n, IsChild c i → key (a s) ≤ key (a c)) : Hole key n (swap a s i) s := by
  have hlt := hchild.lt
  refine ⟨?_, ?_⟩
  · intro j hj hjpos hjs hpj
    by_cases hji : j = i
    · subst hji
      have := parent_lt hjpos
      rw [swap_right, swap_of_ne a hpj (by omega)]
      exact h.across hjpos s hs hchild
    · rw [swap_of_ne a hjs hji]
      by_cases hpi : parent j = i
      · rw [hpi, swap_right]
        exact hmin j hj ⟨hjpos, hpi⟩
      · rw [swap_of_ne a hpj hpi]
        exact h.off j hj hjpos hji hpi
  · intro hspos c hc hc'
    have := hc'.lt
    rw [hchild.2, swap_right, swap_of_ne a (by omega) (by omega)]
    have := h.off c hc hc'.1 (by omega) (by rw [hc'.2]; omega)
    rwa [hc'.2] at this

/-- Sifting down mends one that is too large. -/
theorem siftDown_isHeap {fuel : Nat} (h : Hole key n a i) (hi : i < n) (hfuel : n ≤ i + fuel)
    (habove : 0 < i → key (a (parent i)) ≤ key (a i)) : IsHeap key n (siftDown key n fuel a i) := by
  -- along the way down the value stays above the parent of its position
  induction fuel generalizing a i with
  | zero => omega
  | succ fuel ih =>
    obtain ⟨hle, hmin, hcases⟩ := smallest_spec key n a i
    rw [siftDown]
    split_ifs with hs
    · rw [hs] at hmin
      exact h.isHeap habove hmin
    · obtain ⟨hlt, hchild⟩ := hcases.resolve_left hs
      have := hchild.lt
      apply ih (h.down hlt hchild hmin) hlt (by omega)
      intro _
      rw [hchild.2, swap_right, swap_left]
      exact hle

theorem siftDown_of_isHeap (h : IsHeap key n a) (fuel i : Nat) : siftDown key n fuel a i = a := by
  cases fuel with
  | zero => rfl
  | succ fuel =>
    have hsmallest : smallest key n a i = i := by
      have hl : ¬ (2 * i + 1 < n ∧ key (a (2 * i + 1)) < key (a i)) := by
        rintro ⟨hn, hlt⟩
        exact absurd (h.le_child hn (isChild_iff.mpr (.inl rfl))) (not_le.mpr hlt)
      have hr : ¬ (2 * i + 2 < n ∧ key (a (2 * i + 2)) < key (a i)) := by
        rintro ⟨hn, hlt⟩
        exact absurd (h.le_child hn (isChild_iff.mpr (.inr rfl))) (not_le.mpr hlt)
      rw [smallest, if_neg hl, if_neg hr]
    rw [siftDown, if_pos hsmallest]

/-- Up and then down from the same position: at most one of the two moves anything. -/
theorem sift_isHeap {up down : Nat} (h : Hole key n a i) (hi : i < n) (hup : i ≤ up)
    (hdown : n ≤ i + down) : IsHeap key n (siftDown key n down (siftUp key up a i) i) := by
  by_cases habove : 0 < i → key (a (parent i)) ≤ key (a i)
  · have hstay : siftUp key up a i = a := by
      cases up with
      | zero => rfl
      | succ up =>
        rw [siftUp]
        split_ifs with hzero hle
        · rfl
        · rfl
        · exact absurd (habove (Nat.pos_of_ne_zero hzero)) hle
    rw [hstay]
    exact siftDown_isHeap h hi hdown habove
  · obtain ⟨hpos, hnot⟩ := Classical.not_imp.mp habove
    have hlt := not_le.mp hnot
    have hheap : IsHeap key n (siftUp key up a i) :=
      siftUp_isHeap h hi hup fun c hc hchild => hlt.le.trans (h.across hpos c hc hchild)
    rw [siftDown_of_isHeap hheap]
    exact hheap

end Heap

end Rut.Lib.BinaryHeap
