import Rut.Lib.Incremental

/-!
# What a parser accepts

`Recognises p L`: the parser `p` accepts exactly the texts of `L`, each with its value, and leaves what
follows. A message is recognised when its start line and the items of its lines are: it is the start
line, one text for every item, and a blank line (`message_ok_iff`). Both directions are of use, to read
a grammar off the parser and to show that a text that has been written is understood.
-/

namespace Rut.Lib.Incremental

variable {τ α β ι σ : Type}

def Recognises (p : Parser τ α) (L : α → List τ → Prop) : Prop :=
  ∀ r a r', p r = .ok (a, r') ↔ ∃ t, L a t ∧ r = t ++ r'

theorem check_ok_iff {o : Option α} {a : α} {r r' : List τ} :
    check o r = .ok (a, r') ↔ o = some a ∧ r = r' := by
  cases o with
  | none => simp [check]
  | some b => simp [check]

/-! ## Messages -/

section Messages

variable [DecidableEq τ] {cr lf : τ} {item : Parser τ ι} {L : ι → List τ → Prop}
  {store : σ → ι → Option σ} {s s' : σ} {r r' : List τ}

/-- A line with an item that is added to what has been read. -/
def itemLine (item : Parser τ ι) (store : σ → ι → Option σ) (s : σ) : Parser τ σ := do
  let x ← item
  check (store s x)

omit [DecidableEq τ] in
theorem itemLine_ok_iff (hitem : Recognises item L) :
    itemLine item store s r = .ok (s', r') ↔
      ∃ x t, L x t ∧ r = t ++ r' ∧ store s x = some s' := by
  constructor
  · intro h
    obtain ⟨x, r₁, h₁, h₂⟩ := bind_ok h
    obtain ⟨t, hL, rfl⟩ := (hitem r x r₁).mp h₁
    obtain ⟨hs, rfl⟩ := check_ok_iff.mp h₂
    exact ⟨x, t, hL, rfl, hs⟩
  · rintro ⟨x, t, hL, rfl, hs⟩
    refine (bind_of_ok ((hitem _ x _).mpr ⟨t, hL, rfl⟩)).trans ?_
    exact check_ok_iff.mpr ⟨hs, rfl⟩

theorem linesLoop_ok (hitem : Recognises item L) {n : Nat}
    (h : linesLoop cr lf (itemLine item store) n s r = .ok (s', r')) :
    ∃ xs ts, List.Forall₂ L xs ts ∧ r = ts.flatten ++ cr :: lf :: r' ∧
      xs.foldlM store s = some s' := by
  induction n generalizing s r with
  | zero => cases h
  | succ n ih =>
    match r with
    | [] => cases h
    | [_] => cases h
    | a :: b :: rest =>
      simp only [linesLoop] at h
      split at h
      · next ha =>
        split at h
        · next hb =>
          cases h
          exact ⟨[], [], .nil, by rw [ha, hb]; rfl, rfl⟩
        · cases h
      · obtain ⟨s₁, r₁, h₁, h₂⟩ := bind_ok h
        obtain ⟨x, t, hL, hr, hs⟩ := (itemLine_ok_iff hitem).mp h₁
        obtain ⟨xs, ts, hall, rfl, hfold⟩ := ih h₂
        refine ⟨x :: xs, t :: ts, .cons hL hall, ?_, ?_⟩
        · rw [hr, List.flatten_cons, List.append_assoc]
        · rw [List.foldlM_cons, hs]
          exact hfold

theorem linesLoop_of_texts (hitem : Recognises item L)
    (hL : ∀ x t, L x t → ∃ a t', t = a :: t' ∧ a ≠ cr) {xs : List ι} {ts : List (List τ)}
    (hall : List.Forall₂ L xs ts) {n : Nat} (hn : ts.flatten.length < n)
    (hfold : xs.foldlM store s = some s') :
    linesLoop cr lf (itemLine item store) n s (ts.flatten ++ cr :: lf :: r') = .ok (s', r') := by
  induction hall generalizing s n with
  | nil =>
    obtain ⟨n, rfl⟩ : ∃ m, n = m + 1 := ⟨n - 1, by omega⟩
    cases hfold
    simp [linesLoop]
  | @cons x t xs ts hx hall ih =>
    obtain ⟨n, rfl⟩ : ∃ m, n = m + 1 := ⟨n - 1, by omega⟩
    obtain ⟨a, t', rfl, ha⟩ := hL x t hx
    rw [List.foldlM_cons] at hfold
    obtain ⟨s₁, hs, hfold⟩ := Option.bind_eq_some_iff.mp hfold
    rw [List.flatten_cons, List.length_append, List.length_cons] at hn
    -- the blank line is still ahead, so there are two symbols to look at
    obtain ⟨b, rest, hrest⟩ : ∃ b rest, t' ++ (ts.flatten ++ cr :: lf :: r') = b :: rest :=
      List.exists_cons_of_ne_nil (by simp)
    have hline : itemLine item store s (a :: b :: rest) =
        .ok (s₁, ts.flatten ++ cr :: lf :: r') := by
      rw [← hrest]
      exact (itemLine_ok_iff hitem).mpr ⟨x, a :: t', hx, rfl, hs⟩
    rw [List.flatten_cons, List.append_assoc, List.cons_append, hrest]
    simp only [linesLoop, if_neg ha]
    rw [bind_of_ok hline]
    exact ih (by omega) hfold

/-- A message is its start line, the texts of its items and a blank line. -/
theorem message_ok_iff {start : Parser τ σ} {S : σ → List τ → Prop} (hstart : Recognises start S)
    (hitem : Recognises item L) (hL : ∀ x t, L x t → ∃ a t', t = a :: t' ∧ a ≠ cr)
    {finish : σ → Option α} {a : α} :
    message cr lf start (itemLine item store) finish r = .ok (a, r') ↔
      ∃ s t xs ts, S s t ∧ List.Forall₂ L xs ts ∧ r = t ++ (ts.flatten ++ cr :: lf :: r') ∧
        (xs.foldlM store s).bind finish = some a := by
  constructor
  · intro h
    obtain ⟨s, r₁, h₁, h₂⟩ := bind_ok h
    obtain ⟨s', r₂, h₃, h₄⟩ := bind_ok h₂
    obtain ⟨t, hS, rfl⟩ := (hstart r s r₁).mp h₁
    obtain ⟨xs, ts, hall, rfl, hfold⟩ := linesLoop_ok hitem h₃
    obtain ⟨hfin, rfl⟩ := check_ok_iff.mp h₄
    exact ⟨s, t, xs, ts, hS, hall, rfl, by rw [hfold]; exact hfin⟩
  · rintro ⟨s, t, xs, ts, hS, hall, rfl, h⟩
    obtain ⟨s', hfold, hfin⟩ := Option.bind_eq_some_iff.mp h
    refine (bind_of_ok ((hstart _ s _).mpr ⟨t, hS, rfl⟩)).trans ?_
    have hlines : lines cr lf (itemLine item store) s (ts.flatten ++ cr :: lf :: r') =
        .ok (s', r') := by
      apply linesLoop_of_texts hitem hL hall _ hfold
      rw [List.length_append, List.length_cons]
      omega
    rw [bind_of_ok hlines]
    exact check_ok_iff.mpr ⟨hfin, rfl⟩

/-- The items of a text are determined by it. -/
theorem items_unique (hitem : Recognises item L)
    (hL : ∀ x t, L x t → ∃ a t', t = a :: t' ∧ a ≠ cr) {xs ys : List ι} {ts us : List (List τ)}
    (hxs : List.Forall₂ L xs ts) (hys : List.Forall₂ L ys us)
    (h : ts.flatten ++ cr :: lf :: r = us.flatten ++ cr :: lf :: r') : xs = ys ∧ r = r' := by
  -- both are what the collecting parser finds
  have hcollect : ∀ (zs acc : List ι),
      zs.foldlM (fun acc z => some (acc ++ [z])) acc = some (acc ++ zs) := by
    intro zs
    induction zs with
    | nil => simp
    | cons z zs ih =>
      intro acc
      rw [List.foldlM_cons]
      exact (ih _).trans (by simp)
  generalize hn : ts.flatten.length + us.flatten.length + 1 = n
  have hx : linesLoop cr lf (itemLine item _) n [] (ts.flatten ++ cr :: lf :: r) = .ok (xs, r) :=
    linesLoop_of_texts hitem hL hxs (by omega) (hcollect xs [])
  have hy : linesLoop cr lf (itemLine item _) n [] (us.flatten ++ cr :: lf :: r') = .ok (ys, r') :=
    linesLoop_of_texts hitem hL hys (by omega) (hcollect ys [])
  rw [h, hy] at hx
  cases hx
  exact ⟨rfl, rfl⟩

end Messages

end Rut.Lib.Incremental
