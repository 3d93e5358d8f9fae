import Mathlib

/-!
# First greatest elements

`List.argmax` keeps the first of the greatest elements of a list. These lemmas relate it to
`List.find?`, to order-preserving changes of the key and to maps over the list, so that two
scans of one list can be compared. `map_argmax_eq_iff` says when they come to the same result.
-/

namespace Rut.Lib

open List

variable {α β γ δ : Type} [DecidableEq α] {l : List α} {q : α → Bool} {a b : α}

/-- The first element with a property comes before every other one that has it. -/
theorem idxOf_le_of_find? (h : l.find? q = some a) (hb : q b = true) :
    l.idxOf a ≤ l.idxOf b := by
  obtain ⟨ha, as, bs, rfl, has⟩ := List.find?_eq_some_iff_append.mp h
  have hnot : ∀ c, q c = true → c ∉ as := fun c hc hmem => by simpa [hc] using has c hmem
  rw [idxOf_append_of_notMem (hnot a ha), idxOf_append_of_notMem (hnot b hb)]
  simp

/-- The converse: an element that comes before all others with the property is found. -/
theorem find?_of_idxOf_le (ha : a ∈ l) (hq : q a = true)
    (hmin : ∀ b ∈ l, q b = true → l.idxOf a ≤ l.idxOf b) : l.find? q = some a := by
  cases hf : l.find? q with
  | none => exact absurd hq (List.find?_eq_none.mp hf a ha)
  | some b =>
    have hle := hmin b (mem_of_find?_eq_some hf) (List.find?_some hf)
    have heq := Nat.le_antisymm hle (idxOf_le_of_find? hf hq)
    rw [(idxOf_inj ha).mp heq]

theorem rel_of_idxOf_le {R : α → α → Prop} (hl : l.Pairwise R) (ha : a ∈ l) (hb : b ∈ l)
    (hne : a ≠ b) (hle : l.idxOf a ≤ l.idxOf b) : R a b := by
  have ha' := idxOf_lt_length_of_mem ha
  have hb' := idxOf_lt_length_of_mem hb
  have hlt : l.idxOf a < l.idxOf b := by
    rcases Nat.lt_or_eq_of_le hle with h | h
    · exact h
    · exact absurd ((idxOf_inj ha).mp h) hne
  have := pairwise_iff_getElem.mp hl _ _ ha' hb' hlt
  rwa [getElem_idxOf, getElem_idxOf] at this

variable [LinearOrder γ] [LinearOrder δ]

/-- Only the order of the keys matters. -/
theorem argmax_congr {f : α → γ} {g : α → δ}
    (h : ∀ a ∈ l, ∀ b ∈ l, f a ≤ f b ↔ g a ≤ g b) : l.argmax f = l.argmax g := by
  cases hm : l.argmax f with
  | none => rw [argmax_eq_none.mp hm]; rfl
  | some m =>
    obtain ⟨hmem, hmax, hfirst⟩ := argmax_eq_some_iff.mp hm
    symm
    rw [argmax_eq_some_iff]
    exact ⟨hmem, fun a ha => (h a ha m hmem).mp (hmax a ha),
      fun a ha hle => hfirst a ha ((h m hmem a ha).mpr hle)⟩

omit [DecidableEq α] in
theorem argmax_map (f : α → β) (g : β → γ) (l : List α) :
    (l.map f).argmax g = (l.argmax (g ∘ f)).map f := by
  have hstep : ∀ (o : Option α) (a : α),
      List.argAux (fun b c => g c < g b) (o.map f) (f a) =
        (List.argAux (fun b c => (g ∘ f) c < (g ∘ f) b) o a).map f := by
    intro o a
    cases o with
    | none => rfl
    | some c =>
      simp only [List.argAux, Option.map_some, Function.comp]
      split <;> rfl
  unfold List.argmax
  rw [foldl_map]
  show l.foldl (fun o a => List.argAux (fun b c => g c < g b) o (f a)) (Option.map f none) = _
  rw [foldl_hom (Option.map f) hstep]

omit [DecidableEq α] in
/-- Two scans of one list agree if every element makes the same offer to both: the same key and the
same result, or none. -/
theorem argmax_filterMap_eq {ε ι : Type} {c : α → Option β} {h : α → ε} {p : ε → Bool} {f : β → γ}
    {g : ε → γ} {i : β → ι} {j : ε → ι}
    (hc : ∀ x ∈ l, (c x).map (fun y => (f y, i y)) =
      if p (h x) then some (g (h x), j (h x)) else none) :
    ((l.filterMap c).argmax f).map i = (((l.map h).filter p).argmax g).map j := by
  have hlist : (l.filterMap c).map (fun y => (f y, i y)) =
      ((l.map h).filter p).map (fun e => (g e, j e)) := by
    rw [map_filterMap, ← filterMap_eq_filter, map_filterMap, filterMap_map]
    apply filterMap_congr
    intro x hx
    rw [hc x hx]
    by_cases hp : p (h x) = true <;> simp [Option.guard, hp]
  have hmax := congrArg (fun l' => (l'.argmax Prod.fst).map Prod.snd) hlist
  simpa only [argmax_map, Option.map_map, Function.comp_def] using hmax

/-! ## Two selections from one list

Each has its own candidates and its own key; of equals the first one is taken. `pos` is the place in
the list. -/

/-- `x` loses against `y`: its key is smaller, or the same and it comes later. -/
def Below (f : α → γ) (pos : α → Nat) (x y : α) : Prop := f x < f y ∨ f x = f y ∧ pos y < pos x

/-- The candidates of only one side lose there against a candidate of both, and where two candidates
of both are ranked one way here and the other way there, neither side has the winner among them. -/
structure Concordant (l : List α) (p q : α → Bool) (r s : α → α → Prop) : Prop where
  left : ∀ x ∈ l, p x = true → q x = false → ∃ y ∈ l, p y = true ∧ q y = true ∧ r x y
  right : ∀ x ∈ l, q x = true → p x = false → ∃ y ∈ l, p y = true ∧ q y = true ∧ s x y
  both : ∀ x ∈ l, ∀ y ∈ l, p x = true → q x = true → p y = true → q y = true → r x y → s y x →
    ∃ z ∈ l, p z = true ∧ q z = true ∧ (r y z ∨ s x z)

variable {f : α → γ} {g : α → δ} {pos : α → Nat} {p : α → Bool} {x y z w : α}

omit [DecidableEq α] in
theorem Below.trans (h : Below f pos x y) (h' : Below f pos y z) : Below f pos x z := by
  rcases h with h | ⟨h, hpos⟩
  · exact .inl (h.trans_le (h'.elim le_of_lt fun h' => h'.1.le))
  · rcases h' with h' | ⟨h', hpos'⟩
    · exact .inl (h ▸ h')
    · exact .inr ⟨h.trans h', hpos'.trans hpos⟩

omit [DecidableEq α] in
theorem Below.irrefl : ¬ Below f pos x x := by
  rintro (h | ⟨-, h⟩)
  · exact lt_irrefl _ h
  · exact lt_irrefl _ h

/-- The one that is selected wins against all others. -/
theorem argmax_filter_eq_some_iff (hpos : l.Pairwise fun a b => pos a < pos b) :
    (l.filter p).argmax f = some w ↔
      w ∈ l ∧ p w = true ∧ ∀ x ∈ l, p x = true → x ≠ w → Below f pos x w := by
  have hpos' := hpos.filter p
  rw [argmax_eq_some_iff, mem_filter, and_assoc]
  refine and_congr_right fun hw => and_congr_right fun hpw => ?_
  have hw' := mem_filter.mpr ⟨hw, hpw⟩
  constructor
  · rintro ⟨hmax, hfirst⟩ x hx hpx hne
    have hx' := mem_filter.mpr ⟨hx, hpx⟩
    refine (hmax x hx').lt_or_eq.imp_right fun heq => ⟨heq, ?_⟩
    exact rel_of_idxOf_le (R := fun a b => pos a < pos b) hpos' hw' hx' hne.symm (hfirst x hx' heq.ge)
  · intro h
    have hother : ∀ x ∈ l.filter p, x = w ∨ Below f pos x w := fun x hx =>
      or_iff_not_imp_left.mpr (h x (mem_of_mem_filter hx) (mem_filter.mp hx).2)
    constructor
    · intro x hx
      rcases hother x hx with rfl | hlt | ⟨heq, -⟩
      exacts [le_rfl, hlt.le, heq.le]
    · intro x hx hle
      rcases hother x hx with rfl | hlt | ⟨heq, hlt⟩
      · exact le_rfl
      · exact absurd hle (not_le_of_gt hlt)
      · by_contra hnot
        have hne : x ≠ w := fun h => lt_irrefl _ (h ▸ hlt)
        exact lt_asymm hlt (rel_of_idxOf_le (R := fun a b => pos a < pos b) hpos' hx hw' hne
          (Nat.le_of_not_le hnot))

theorem eq_of_pos_eq (hpos : l.Pairwise fun a b => pos a < pos b) (ha : a ∈ l) (hb : b ∈ l)
    (h : pos a = pos b) : a = b := by
  by_contra hne
  rcases Nat.le_total (l.idxOf a) (l.idxOf b) with hle | hle
  · exact (rel_of_idxOf_le (R := fun a b => pos a < pos b) hpos ha hb hne hle).ne h
  · exact (rel_of_idxOf_le (R := fun a b => pos a < pos b) hpos hb ha (Ne.symm hne) hle).ne h.symm

/-- The candidates of both sides have a winner on each side, and it is the same one. -/
theorem Concordant.exists_winner (hpos : l.Pairwise fun a b => pos a < pos b)
    (h : Concordant l p q (Below f pos) (Below g pos)) (hx : x ∈ l) (hpx : p x = true)
    (hqx : q x = true) : ∃ w ∈ l, p w = true ∧ q w = true ∧ ∀ y ∈ l, p y = true → q y = true →
      y ≠ w → Below f pos y w ∧ Below g pos y w := by
  have hboth : ∀ {z}, (p z && q z) = true ↔ p z = true ∧ q z = true := Bool.and_eq_true_iff
  have hne : (l.filter fun z => p z && q z) ≠ [] :=
    ne_nil_of_mem (mem_filter.mpr ⟨hx, hboth.mpr ⟨hpx, hqx⟩⟩)
  obtain ⟨w, hw⟩ := Option.ne_none_iff_exists'.mp fun hnone => hne ((argmax_eq_none (f := f)).mp hnone)
  obtain ⟨v, hv⟩ := Option.ne_none_iff_exists'.mp fun hnone => hne ((argmax_eq_none (f := g)).mp hnone)
  obtain ⟨hwl, hpqw, hwf⟩ := (argmax_filter_eq_some_iff hpos).mp hw
  obtain ⟨hvl, hpqv, hvg⟩ := (argmax_filter_eq_some_iff hpos).mp hv
  obtain ⟨hpw, hqw⟩ := hboth.mp hpqw
  obtain ⟨hpv, hqv⟩ := hboth.mp hpqv
  have heq : v = w := by
    by_contra hvw
    obtain ⟨z, hz, hpz, hqz, hlost⟩ := h.both v hvl w hwl hpv hqv hpw hqw (hwf v hvl hpqv hvw)
      (hvg w hwl hpqw (Ne.symm hvw))
    rcases hlost with hlost | hlost
    · by_cases hzw : z = w
      · exact Below.irrefl (hzw ▸ hlost)
      · exact Below.irrefl (hlost.trans (hwf z hz (hboth.mpr ⟨hpz, hqz⟩) hzw))
    · by_cases hzv : z = v
      · exact Below.irrefl (hzv ▸ hlost)
      · exact Below.irrefl (hlost.trans (hvg z hz (hboth.mpr ⟨hpz, hqz⟩) hzv))
  refine ⟨w, hwl, hpw, hqw, fun y hy hpy hqy hyw => ?_⟩
  have hpqy := hboth.mpr ⟨hpy, hqy⟩
  exact ⟨hwf y hy hpqy hyw, heq ▸ hvg y hy hpqy (heq ▸ hyw)⟩

omit [DecidableEq α] [LinearOrder γ] [LinearOrder δ] in
theorem Concordant.symm {r s : α → α → Prop} (h : Concordant l p q r s) : Concordant l q p s r where
  left x hx hq hp := (h.right x hx hq hp).imp fun _ hy => ⟨hy.1, hy.2.2.1, hy.2.1, hy.2.2.2⟩
  right x hx hp hq := (h.left x hx hp hq).imp fun _ hy => ⟨hy.1, hy.2.2.1, hy.2.1, hy.2.2.2⟩
  both x hx y hy hqx hpx hqy hpy hs hr :=
    (h.both y hy x hx hpy hqy hpx hqx hr hs).imp fun _ hz => ⟨hz.1, hz.2.2.1, hz.2.1, hz.2.2.2.symm⟩

/-- What only one side has is below something that both have, and so below their winner. -/
theorem Concordant.argmax_eq (hpos : l.Pairwise fun a b => pos a < pos b) {s : α → α → Prop}
    (h : Concordant l p q (Below f pos) s) (hw : w ∈ l) (hpw : p w = true)
    (hbest : ∀ y ∈ l, p y = true → q y = true → y ≠ w → Below f pos y w) :
    (l.filter p).argmax f = some w := by
  refine (argmax_filter_eq_some_iff hpos).mpr ⟨hw, hpw, fun y hy hpy hyw => ?_⟩
  cases hqy : q y with
  | true => exact hbest y hy hpy hqy hyw
  | false =>
    obtain ⟨z, hz, hpz, hqz, hlt⟩ := h.left y hy hpy hqy
    by_cases hzw : z = w
    · exact hzw ▸ hlt
    · exact hlt.trans (hbest z hz hpz hqz hzw)

omit [DecidableEq α] [LinearOrder γ] [LinearOrder δ] in
theorem Concordant.filter_eq_nil {r s : α → α → Prop} (h : Concordant l p q r s)
    (hnone : ∀ x ∈ l, p x = true → q x = true → False) : l.filter p = [] := by
  refine filter_eq_nil_iff.mpr fun x hx hpx => ?_
  cases hqx : q x with
  | true => exact hnone x hx hpx hqx
  | false =>
    obtain ⟨y, hy, hpy, hqy, -⟩ := h.left x hx hpx hqx
    exact hnone y hy hpy hqy

/-- The two selections come to the same place, or to none, if and only if they are concordant. -/
theorem map_argmax_eq_iff (hpos : l.Pairwise fun a b => pos a < pos b) :
    ((l.filter p).argmax f).map pos = ((l.filter q).argmax g).map pos ↔
      Concordant l p q (Below f pos) (Below g pos) := by
  constructor
  · intro h
    cases hw : (l.filter p).argmax f with
    | none =>
      rw [hw, Option.map_none, eq_comm, Option.map_eq_none_iff] at h
      have hp := filter_eq_nil_iff.mp (argmax_eq_none.mp hw)
      have hq := filter_eq_nil_iff.mp (argmax_eq_none.mp h)
      exact ⟨fun x hx hpx => absurd hpx (hp x hx), fun x hx hqx => absurd hqx (hq x hx),
        fun x hx _ _ hpx => absurd hpx (hp x hx)⟩
    | some w =>
      rw [hw, Option.map_some, eq_comm, Option.map_eq_some_iff] at h
      obtain ⟨v, hv, hvw⟩ := h
      obtain ⟨hwl, hpw, hwf⟩ := (argmax_filter_eq_some_iff hpos).mp hw
      obtain ⟨hvl, hqv, hvg⟩ := (argmax_filter_eq_some_iff hpos).mp hv
      obtain rfl := eq_of_pos_eq hpos hvl hwl hvw
      refine ⟨fun x hx hpx hqx => ⟨v, hwl, hpw, hqv, hwf x hx hpx ?_⟩,
        fun x hx hqx hpx => ⟨v, hwl, hpw, hqv, hvg x hx hqx ?_⟩,
        fun x hx y hy hpx hqx hpy hqy hr hs => ⟨v, hwl, hpw, hqv, .inr (hvg x hx hqx ?_)⟩⟩
      · rintro rfl
        exact Bool.false_ne_true (hqx.symm.trans hqv)
      · rintro rfl
        exact Bool.false_ne_true (hpx.symm.trans hpw)
      · rintro rfl
        by_cases hyx : y = x
        · exact Below.irrefl (hyx ▸ hr)
        · exact Below.irrefl (hr.trans (hwf y hy hpy hyx))
  · intro h
    by_cases hcommon : ∃ x ∈ l, p x = true ∧ q x = true
    · obtain ⟨x, hx, hpx, hqx⟩ := hcommon
      obtain ⟨w, hw, hpw, hqw, hbest⟩ := h.exists_winner hpos hx hpx hqx
      rw [h.argmax_eq hpos hw hpw fun y hy hpy hqy hyw => (hbest y hy hpy hqy hyw).1,
        h.symm.argmax_eq hpos hw hqw fun y hy hqy hpy hyw => (hbest y hy hpy hqy hyw).2]
    · have hnone : ∀ x ∈ l, p x = true → q x = true → False := fun x hx hpx hqx =>
        hcommon ⟨x, hx, hpx, hqx⟩
      rw [h.filter_eq_nil hnone, h.symm.filter_eq_nil fun x hx hqx hpx => hnone x hx hpx hqx]
      rfl

end Rut.Lib
