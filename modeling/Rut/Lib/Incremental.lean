import Mathlib

/-!
# Incremental parsing

A parser reads from the front of its input and leaves the rest. When it cannot go on it says why:
the input is malformed, it has ended, or it is one of the two and the parser cannot tell. A caller
with a growing buffer parses again after every addition, so that a verdict must not be overturned by
what arrives later:

    Stable p : a result and an error of p survive every extension of the input

Messages consist of lines and end with a blank one. There the undecided exit can be resolved by
looking for the end mark: `message_unsure` says that once the mark is in the buffer, more input does
not help.
-/

namespace Rut.Lib.Incremental

open List

variable {τ α β σ : Type}

/-- Ways to leave without a result. -/
inductive Exit where
  /-- malformed, whatever follows -/
  | error
  /-- the input ends too early -/
  | incomplete
  /-- malformed, or the input ends too early -/
  | unsure
deriving DecidableEq, Repr

/-- A result and the rest of the input, or an exit. -/
abbrev Parser (τ α : Type) := StateT (List τ) (Except Exit) α

/-- A condition on what has been read. -/
def check (o : Option α) : Parser τ α := fun r =>
  match o with
  | some a => .ok (a, r)
  | none => .error .error

theorem run_bind (p : Parser τ α) (f : α → Parser τ β) (r : List τ) :
    (p >>= f) r =
      match p r with
      | .ok (a, r') => f a r'
      | .error e => .error e := by
  show (p r >>= fun x => f x.1 x.2) = _
  cases p r <;> rfl

section Bind

variable {p : Parser τ α} {f : α → Parser τ β} {r r' : List τ} {a : α} {b : β} {e : Exit}

theorem bind_of_ok (h : p r = .ok (a, r')) : (p >>= f) r = f a r' := by
  rw [run_bind, h]

theorem bind_of_error (h : p r = .error e) : (p >>= f) r = .error e := by
  rw [run_bind, h]

theorem bind_ok (h : (p >>= f) r = .ok (b, r')) :
    ∃ a r₁, p r = .ok (a, r₁) ∧ f a r₁ = .ok (b, r') := by
  rw [run_bind] at h
  cases hp : p r with
  | ok x => exact ⟨x.1, x.2, rfl, by rwa [hp] at h⟩
  | error e => rw [hp] at h; cases h

theorem bind_error (h : (p >>= f) r = .error e) :
    p r = .error e ∨ ∃ a r₁, p r = .ok (a, r₁) ∧ f a r₁ = .error e := by
  rw [run_bind] at h
  cases hp : p r with
  | ok x => exact .inr ⟨x.1, x.2, rfl, by rwa [hp] at h⟩
  | error e' =>
    rw [hp] at h
    cases h
    exact .inl rfl

end Bind

/-! ## Stability -/

/-- A result and an error survive every extension of the input. -/
structure Stable (p : Parser τ α) : Prop where
  ok : ∀ {r a r'}, p r = .ok (a, r') → ∀ x, p (r ++ x) = .ok (a, r' ++ x)
  error : ∀ {r}, p r = .error .error → ∀ x, p (r ++ x) = .error .error

/-- Stable parsers compose. -/
theorem Stable.bind {p : Parser τ α} {f : α → Parser τ β} (hp : Stable p)
    (hf : ∀ a, Stable (f a)) : Stable (p >>= f) where
  ok h x := by
    obtain ⟨a, r₁, h₁, h₂⟩ := bind_ok h
    rw [bind_of_ok (hp.ok h₁ x)]
    exact (hf a).ok h₂ x
  error h x := by
    obtain h₁ | ⟨a, r₁, h₁, h₂⟩ := bind_error h
    · exact bind_of_error (hp.error h₁ x)
    · rw [bind_of_ok (hp.ok h₁ x)]
      exact (hf a).error h₂ x

theorem stable_check (o : Option α) : Stable (check o : Parser τ α) := by
  cases o with
  | none => exact ⟨fun h => (nomatch h), fun _ _ => rfl⟩
  | some a =>
    refine ⟨fun h x => ?_, fun h => (nomatch h)⟩
    cases h
    rfl

/-- There is neither a result nor the hope for one. -/
def Hopeless (p : Parser τ α) (r : List τ) : Prop := p r = .error .error ∨ p r = .error .unsure

/-- What a parser makes of an input, now and when there is more of it. `R` relates an input to what
may be left of it; `W` holds of inputs that lack their end. -/
inductive Settles (R : List τ → List τ → Prop) (W : List τ → Prop) (p : Parser τ α) (r : List τ) :
    Prop where
  | ok (a : α) (r' : List τ) (hr : R r r') (h : ∀ x, p (r ++ x) = .ok (a, r' ++ x))
  | error (h : ∀ x, p (r ++ x) = .error .error)
  | stuck (h₀ : p r = .error .unsure) (h : ∀ x, Hopeless p (r ++ x))
  | waiting (h₀ : p r = .error .unsure) (hr : W r)
  | incomplete (h₀ : p r = .error .incomplete)

section Settles

variable {R R' R'' : List τ → List τ → Prop} {W W' W'' : List τ → Prop} {p : Parser τ α}
  {f : α → Parser τ β} {r r' : List τ} {a : α}

theorem at_nil {y : List τ → Except Exit (α × List τ)} (h : ∀ x, p (r ++ x) = y x) :
    p r = y [] := by
  rw [← h [], append_nil]

theorem Settles.of_ok (hs : Settles R W p r) (h : p r = .ok (a, r')) :
    R r r' ∧ ∀ x, p (r ++ x) = .ok (a, r' ++ x) := by
  cases hs with
  | ok b r₁ hr hx =>
    have heq := h.symm.trans (at_nil hx)
    rw [append_nil] at heq
    cases heq
    exact ⟨hr, hx⟩
  | error hx => cases h.symm.trans (at_nil hx)
  | stuck h₀ => cases h.symm.trans h₀
  | waiting h₀ => cases h.symm.trans h₀
  | incomplete h₀ => cases h.symm.trans h₀

theorem Settles.of_error (hs : Settles R W p r) (h : p r = .error .error) :
    ∀ x, p (r ++ x) = .error .error := by
  cases hs with
  | ok b r₁ hr hx => cases h.symm.trans (at_nil hx)
  | error hx => exact hx
  | stuck h₀ => cases h.symm.trans h₀
  | waiting h₀ => cases h.symm.trans h₀
  | incomplete h₀ => cases h.symm.trans h₀

theorem Settles.of_unsure (hs : Settles R W p r) (h : p r = .error .unsure) :
    (∀ x, Hopeless p (r ++ x)) ∨ W r := by
  cases hs with
  | ok b r₁ hr hx => cases h.symm.trans (at_nil hx)
  | error hx => cases h.symm.trans (at_nil hx)
  | stuck _ hx => exact .inl hx
  | waiting _ hr => exact .inr hr
  | incomplete h₀ => cases h.symm.trans h₀

/-- A parser that settles is stable. -/
theorem stable_of_settles (hs : ∀ r, Settles R W p r) : Stable p :=
  ⟨fun h => ((hs _).of_ok h).2, fun h => (hs _).of_error h⟩

/-- Settling composes, if what is read and what is lacking do. -/
theorem Settles.bind (hp : Settles R W p r) (hf : ∀ a r', Settles R' W' (f a) r')
    (hR : ∀ {r r₁ r'}, R r r₁ → R' r₁ r' → R'' r r') (hW : W r → W'' r)
    (hRW : ∀ {r'}, R r r' → W' r' → W'' r) : Settles R'' W'' (p >>= f) r := by
  cases hp with
  | ok a r₁ hr hx =>
    have hrun : ∀ x, (p >>= f) (r ++ x) = f a (r₁ ++ x) := fun x => bind_of_ok (hx x)
    have hrun₀ : (p >>= f) r = f a r₁ := by
      have := hrun []
      rwa [append_nil, append_nil] at this
    cases hf a r₁ with
    | ok b r' hr' hy => exact .ok b r' (hR hr hr') fun x => (hrun x).trans (hy x)
    | error hy => exact .error fun x => (hrun x).trans (hy x)
    | stuck h₀ hy =>
      refine .stuck (hrun₀.trans h₀) fun x => ?_
      unfold Hopeless
      rw [hrun x]
      exact hy x
    | waiting h₀ hr' => exact .waiting (hrun₀.trans h₀) (hRW hr hr')
    | incomplete h₀ => exact .incomplete (hrun₀.trans h₀)
  | error hx => exact .error fun x => bind_of_error (hx x)
  | stuck h₀ hx =>
    exact .stuck (bind_of_error h₀) fun x => (hx x).imp bind_of_error bind_of_error
  | waiting h₀ hr => exact .waiting (bind_of_error h₀) (hW hr)
  | incomplete h₀ => exact .incomplete (bind_of_error h₀)

/-- A condition on what has been read. -/
theorem Settles.check (hp : Settles R W p r) (g : α → Option β) :
    Settles R W (p >>= fun a => check (g a)) r := by
  have hg : ∀ a (r' : List τ), Settles Eq (fun _ => False) (Incremental.check (g a)) r' := by
    intro a r'
    cases g a with
    | none => exact .error fun _ => rfl
    | some b => exact .ok b r' rfl fun _ => rfl
  exact hp.bind hg (fun hr h => h ▸ hr) id (fun _ h => h.elim)

theorem Settles.map (hp : Settles R W p r) (g : α → β) :
    Settles R W (p >>= fun a => pure (g a)) r :=
  hp.check fun a => some (g a)

end Settles

/-! ## Lines -/

/-- A piece of a line has been read. -/
def Within (cr : τ) (r r' : List τ) : Prop := ∃ l, r = l ++ r' ∧ cr ∉ l

/-- A line has been read, up to and with its end. -/
def Line (cr lf : τ) (r r' : List τ) : Prop := ∃ l, r = l ++ cr :: lf :: r' ∧ cr ∉ l

/-- A line that lacks its end or a part of it. -/
def Unended (cr : τ) (r : List τ) : Prop := ∃ l, cr ∉ l ∧ (r = l ∨ r = l ++ [cr])

section Lines

variable {cr lf : τ} {p : Parser τ α} {f : α → Parser τ β} {r r₁ r' : List τ}

theorem Within.line (h : Within cr r r₁) (h' : Line cr lf r₁ r') : Line cr lf r r' := by
  obtain ⟨l, rfl, hl⟩ := h
  obtain ⟨l', rfl, hl'⟩ := h'
  exact ⟨l ++ l', (append_assoc ..).symm, by simp [hl, hl']⟩

theorem Within.unended (h : Within cr r r₁) (h' : Unended cr r₁) : Unended cr r := by
  obtain ⟨l, rfl, hl⟩ := h
  obtain ⟨l', hl', h⟩ := h'
  refine ⟨l ++ l', by simp [hl, hl'], ?_⟩
  rcases h with h | h
  · exact .inl (by rw [h])
  · exact .inr (by rw [h, append_assoc])

theorem unended_of_not_mem (h : cr ∉ r) : Unended cr r := ⟨r, h, .inl rfl⟩

/-- A piece of a line before the rest of it. -/
theorem Settles.bind_line (hp : Settles (Within cr) (cr ∉ ·) p r)
    (hf : ∀ a r', Settles (Line cr lf) (Unended cr) (f a) r') :
    Settles (Line cr lf) (Unended cr) (p >>= f) r :=
  hp.bind hf Within.line unended_of_not_mem Within.unended

end Lines

/-! ## Messages -/

/-- The mark that ends a message: the end of a line followed by a blank line. -/
def endMark (cr lf : τ) : List τ := [cr, lf, cr, lf]

section Quiet

variable [DecidableEq τ] {cr lf : τ} {d l t : List τ}

/-- Complete lines without an end mark. -/
structure Quiet (cr lf : τ) (d : List τ) : Prop where
  last : ∀ s, d ≠ s ++ [cr]
  mark : ¬ endMark cr lf <:+: d

omit [DecidableEq τ] in
theorem quiet_nil : Quiet cr lf [] where
  last s h := by simp at h
  mark h := by simp [endMark] at h

/-- The next line, or the part of it that is there, does not bring the end mark unless the line is
blank. -/
theorem Quiet.not_mark (hd : Quiet cr lf d) (hcl : cr ≠ lf) (hl : cr ∉ l)
    (ht : t <+: [cr, lf]) (hne : l ≠ [] ∨ d = []) : ¬ endMark cr lf <:+: d ++ (l ++ t) := by
  -- one `cr` after `d` is not enough for the mark
  have hcount : ∀ a u, l ++ t ≠ a ++ (endMark cr lf ++ u) := by
    intro a u h
    have h1 : (l ++ t).count cr ≤ 1 := by
      rw [count_append, count_eq_zero.mpr hl, Nat.zero_add]
      exact (ht.sublist.count_le cr).trans (by simp [hcl.symm])
    rw [h, count_append, count_append] at h1
    have h2 : (endMark cr lf).count cr = 2 := by simp [endMark, hcl.symm]
    omega
  rintro ⟨s, u, h⟩
  obtain ⟨a, had, -⟩ | ⟨c, hc, hw⟩ := append_eq_append_iff.mp h
  · exact hd.mark ⟨s, a, had.symm⟩
  obtain ⟨a, hda, hac⟩ | ⟨a, -, rfl⟩ := append_eq_append_iff.mp hc
  · -- the mark begins in `d`: split by how much of it is there
    match a, hac with
    | [], hac =>
      rw [nil_append] at hac
      exact hcount [] u (by rw [hw, hac, nil_append])
    | [_], hac =>
      simp only [endMark, cons_append, nil_append, List.cons.injEq] at hac
      exact hd.last s (by rw [hda, hac.1])
    | [_, _], hac =>
      simp only [endMark, cons_append, nil_append, List.cons.injEq] at hac
      obtain ⟨-, -, hcr⟩ := hac
      rcases hne with hne | hne
      · obtain ⟨y, l', rfl⟩ := exists_cons_of_ne_nil hne
        rw [← hcr] at hw
        simp only [cons_append, List.cons.injEq] at hw
        exact hl (by simp [hw.1])
      · rw [hne] at hda
        simp at hda
    | [x, y, z], hac =>
      simp only [endMark, cons_append, nil_append, List.cons.injEq] at hac
      exact hd.last (s ++ [x, y]) (by rw [hda, hac.2.2.1]; simp)
    | x :: y :: z :: v :: a, hac =>
      have ha : a = [] ∧ c = [] := by
        have := congrArg List.length hac
        simp only [endMark, length_cons, length_nil, length_append] at this
        exact ⟨eq_nil_of_length_eq_zero (by omega), eq_nil_of_length_eq_zero (by omega)⟩
      rw [ha.2, append_nil] at hac
      exact hd.mark ⟨s, [], by rw [hda, hac, append_nil]⟩
  · exact hcount a u (by rw [hw, append_assoc])

/-- A line that is not blank does not end a message. -/
theorem Quiet.append_line (hd : Quiet cr lf d) (hcl : cr ≠ lf) (hl : cr ∉ l)
    (hne : l ≠ [] ∨ d = []) : Quiet cr lf (d ++ (l ++ [cr, lf])) where
  last s h := by
    have hlast := congrArg List.getLast? h
    simp [hcl.symm] at hlast
  mark := hd.not_mark hcl hl prefix_rfl hne

end Quiet

section Messages

variable [DecidableEq τ] {cr lf : τ} {line : σ → Parser τ σ}

/-- Lines up to the blank one. The fuel is the length of the input, which every line shortens. -/
def linesLoop (cr lf : τ) (line : σ → Parser τ σ) : Nat → σ → Parser τ σ
  | 0, _ => fun _ => .error .incomplete
  | fuel + 1, s => fun r =>
    match r with
    | a :: b :: rest =>
      if a = cr then
        if b = lf then .ok (s, rest) else .error .error
      else (line s >>= linesLoop cr lf line fuel) (a :: b :: rest)
    | _ => .error .incomplete

def lines (cr lf : τ) (line : σ → Parser τ σ) (s : σ) : Parser τ σ := fun r =>
  linesLoop cr lf line r.length s r

/-- A start line, further lines up to a blank one, and a condition on the whole. -/
def message (cr lf : τ) (start : Parser τ σ) (line : σ → Parser τ σ) (finish : σ → Option α) :
    Parser τ α := do
  let s ← start
  let s ← lines cr lf line s
  check (finish s)

/-- More fuel and more input do not change a result or an error. -/
theorem linesLoop_append (hline : ∀ s, Stable (line s)) {n : Nat} : ∀ {N : Nat} {s : σ} {r : List τ},
    n ≤ N → ∀ x,
    (∀ {s' r'}, linesLoop cr lf line n s r = .ok (s', r') →
      linesLoop cr lf line N s (r ++ x) = .ok (s', r' ++ x)) ∧
    (linesLoop cr lf line n s r = .error .error →
      linesLoop cr lf line N s (r ++ x) = .error .error) := by
  induction n with
  | zero => exact fun _ _ => ⟨fun h => (nomatch h), fun h => (nomatch h)⟩
  | succ n ih =>
    intro N s r hN x
    obtain ⟨N, rfl⟩ : ∃ N', N = N' + 1 := ⟨N - 1, by omega⟩
    have hN : n ≤ N := by omega
    match r with
    | [] => exact ⟨fun h => (nomatch h), fun h => (nomatch h)⟩
    | [_] => exact ⟨fun h => (nomatch h), fun h => (nomatch h)⟩
    | a :: b :: rest =>
      simp only [linesLoop, cons_append]
      by_cases ha : a = cr
      · rw [if_pos ha, if_pos ha]
        by_cases hb : b = lf
        · rw [if_pos hb, if_pos hb]
          refine ⟨fun h => ?_, fun h => (nomatch h)⟩
          cases h
          rfl
        · rw [if_neg hb, if_neg hb]
          exact ⟨fun h => (nomatch h), fun _ => rfl⟩
      · rw [if_neg ha, if_neg ha]
        constructor
        · intro s' r' h
          obtain ⟨s₁, r₁, h₁, h₂⟩ := bind_ok h
          refine (bind_of_ok ((hline s).ok h₁ x)).trans ?_
          exact (ih hN x).1 h₂
        · intro h
          obtain h₁ | ⟨s₁, r₁, h₁, h₂⟩ := bind_error h
          · exact bind_of_error ((hline s).error h₁ x)
          · refine (bind_of_ok ((hline s).ok h₁ x)).trans ?_
            exact (ih hN x).2 h₂

theorem stable_lines (hline : ∀ s, Stable (line s)) (s : σ) : Stable (lines cr lf line s) where
  ok {r _ _} h x := (linesLoop_append hline (by simp) x).1 h
  error {r} h x := (linesLoop_append hline (by simp) x).2 h

/-- A message is stable if its parts are. -/
theorem stable_message {start : Parser τ σ} (hstart : Stable start)
    (hline : ∀ s, Stable (line s)) (finish : σ → Option α) :
    Stable (message cr lf start line finish) :=
  hstart.bind fun s => (stable_lines hline s).bind fun s => stable_check (finish s)

/-- Once the end mark is in the input, lines that are undecided stay without a result. -/
theorem linesLoop_unsure (hcl : cr ≠ lf)
    (hline : ∀ s r, Settles (Line cr lf) (Unended cr) (line s) r) {n : Nat} :
    ∀ {N : Nat} {s : σ} {r d : List τ}, Quiet cr lf d → n ≤ N →
    linesLoop cr lf line n s r = .error .unsure → endMark cr lf <:+: d ++ r →
    ∀ x, Hopeless (linesLoop cr lf line N s) (r ++ x) := by
  induction n with
  | zero => exact fun _ _ h => (nomatch h)
  | succ n ih =>
    intro N s r d hd hN h hmark x
    obtain ⟨N, rfl⟩ : ∃ N', N = N' + 1 := ⟨N - 1, by omega⟩
    have hN : n ≤ N := by omega
    match r with
    | [] => cases h
    | [_] => cases h
    | a :: b :: rest =>
      unfold Hopeless
      simp only [linesLoop, cons_append] at h ⊢
      by_cases ha : a = cr
      · rw [if_pos ha] at h
        split at h <;> cases h
      · rw [if_neg ha] at h ⊢
        obtain h₁ | ⟨s₁, r₁, h₁, h₂⟩ := bind_error h
        · obtain hx | ⟨l, hl, hr⟩ := (hline s _).of_unsure h₁
          · exact (hx x).imp bind_of_error bind_of_error
          · -- the line has not ended, so the mark is not there
            have hne : l ≠ [] := by
              rintro rfl
              rcases hr with hr | hr
              · cases hr
              · cases hr
            refine absurd hmark ?_
            rcases hr with hr | hr
            · rw [hr, ← append_nil l]
              exact hd.not_mark hcl hl nil_prefix (.inl hne)
            · rw [hr]
              exact hd.not_mark hcl hl (prefix_append [cr] [lf]) (.inl hne)
        · obtain ⟨⟨l, hr, hl⟩, hmore⟩ := (hline s _).of_ok h₁
          have hne : l ≠ [] := by
            rintro rfl
            cases hr
            exact ha rfl
          have hx := bind_of_ok (f := linesLoop cr lf line N) (hmore x)
          rw [cons_append, cons_append] at hx
          rw [hx]
          refine ih (hd.append_line hcl hl (.inl hne)) hN h₂ ?_ x
          rw [hr] at hmark
          simpa using hmark

/-- Once the end mark is in the input, an undecided message stays without a result. -/
theorem message_unsure (hcl : cr ≠ lf) {start : Parser τ σ}
    (hstart : ∀ r, Settles (Line cr lf) (Unended cr) start r)
    (hline : ∀ s r, Settles (Line cr lf) (Unended cr) (line s) r) {finish : σ → Option α}
    {r : List τ} (h : message cr lf start line finish r = .error .unsure)
    (hmark : endMark cr lf <:+: r) (x : List τ) :
    Hopeless (message cr lf start line finish) (r ++ x) := by
  unfold message at h ⊢
  obtain h₁ | ⟨s, r₁, h₁, h₂⟩ := bind_error h
  · obtain hx | ⟨l, hl, hr⟩ := (hstart r).of_unsure h₁
    · exact (hx x).imp bind_of_error bind_of_error
    · refine absurd hmark ?_
      rcases hr with rfl | rfl
      · simpa using quiet_nil.not_mark hcl hl nil_prefix (.inr rfl)
      · exact quiet_nil.not_mark hcl hl (prefix_append [cr] [lf]) (.inr rfl)
  · obtain ⟨⟨l, rfl, hl⟩, hmore⟩ := (hstart r).of_ok h₁
    unfold Hopeless
    rw [bind_of_ok (hmore x)]
    obtain h₃ | ⟨s', r₂, -, h₄⟩ := bind_error h₂
    · have hq : Quiet cr lf ([] ++ (l ++ [cr, lf])) := quiet_nil.append_line hcl hl (.inr rfl)
      have := linesLoop_unsure hcl hline (N := (r₁ ++ x).length) hq (by simp) h₃
        (by simpa using hmark) x
      exact this.imp bind_of_error bind_of_error
    · unfold check at h₄
      split at h₄ <;> cases h₄

end Messages

end Rut.Lib.Incremental
