import Mathlib

/-!
# Rounds over unfinished jobs

A worklist without a queue: every round attempts the jobs that are not done, in a fixed order, and
the rounds end with the first one that finishes no job. An attempt changes the state also where it
does not finish its job, and it may fail for good.

`attempts` lists the attempts of a run with the states they start from. A condition on attempts is a
condition on these states, and `rounds_invariant` carries an invariant through a run whose attempts
meet it.
-/

namespace Rut.Lib

open List

structure Jobs (σ ε ι : Type) where
  done : σ → ι → Bool
  /-- The state after an attempt, and whether the job is finished with it. -/
  attempt : ι → σ → Except ε (σ × Bool)

namespace Jobs

variable {σ ε ι : Type} (J : Jobs σ ε ι)

/-- One round over the jobs of a list, and whether it finished one. -/
def pass : List ι → σ → Except ε (σ × Bool)
  | [], s => .ok (s, false)
  | i :: is, s =>
    if J.done s i then pass is s
    else
      match J.attempt i s with
      | .error e => .error e
      | .ok (s₁, finished) =>
        match pass is s₁ with
        | .error e => .error e
        | .ok (s₂, progress) => .ok (s₂, finished || progress)

/-- Rounds until one makes no progress, at most as many as `fuel` says. -/
def rounds (jobs : List ι) : Nat → σ → Except ε σ
  | 0, s => .ok s
  | fuel + 1, s =>
    match J.pass jobs s with
    | .error e => .error e
    | .ok (s₁, true) => rounds jobs fuel s₁
    | .ok (s₁, false) => .ok s₁

def passAttempts : List ι → σ → List (ι × σ)
  | [], _ => []
  | i :: is, s =>
    if J.done s i then passAttempts is s
    else (i, s) ::
      match J.attempt i s with
      | .error _ => []
      | .ok (s₁, _) => passAttempts is s₁

/-- The attempts of a run, with the states they start from. -/
def attempts (jobs : List ι) : Nat → σ → List (ι × σ)
  | 0, _ => []
  | fuel + 1, s =>
    J.passAttempts jobs s ++
      match J.pass jobs s with
      | .ok (s₁, true) => attempts jobs fuel s₁
      | _ => []

/-! ## Invariants -/

section invariant

variable {J} {P : σ → Prop}

/-- One round keeps the invariant. -/
theorem pass_invariant (is : List ι) (s : σ)
    (step : ∀ p ∈ J.passAttempts is s, J.done p.2 p.1 = false → P p.2 →
      ∃ r, J.attempt p.1 p.2 = .ok r ∧ P r.1)
    (hs : P s) :
    (∀ p ∈ J.passAttempts is s, J.done p.2 p.1 = false ∧ P p.2) ∧
      ∃ r, J.pass is s = .ok r ∧ P r.1 := by
  induction is generalizing s with
  | nil => exact ⟨by simp [passAttempts], (s, false), rfl, hs⟩
  | cons i is ih =>
    simp only [passAttempts] at step ⊢
    cases hdone : J.done s i with
    | true =>
      simp only [hdone, if_true] at step ⊢
      obtain ⟨hall, r, hr, hinv⟩ := ih s step hs
      exact ⟨hall, r, by simp only [pass, hdone, if_true, hr], hinv⟩
    | false =>
      simp only [hdone, Bool.false_eq_true, if_false] at step ⊢
      obtain ⟨⟨s₁, b⟩, hr, hinv⟩ := step (i, s) mem_cons_self hdone hs
      simp only at hr hinv
      simp only [hr] at step ⊢
      have hrest := fun p hp => step p (mem_cons_of_mem _ hp)
      obtain ⟨hall, ⟨s₂, b'⟩, hr', hinv'⟩ := ih s₁ hrest hinv
      refine ⟨?_, (s₂, b || b'), by simp [pass, hdone, hr, hr'], hinv'⟩
      intro p hp
      rcases mem_cons.mp hp with rfl | hp
      · exact ⟨hdone, hs⟩
      · exact hall p hp

/-- No attempt that meets the condition fails, and the invariant holds at each of them and at the
end. -/
theorem rounds_invariant (jobs : List ι) (fuel : Nat) (s : σ)
    (step : ∀ p ∈ J.attempts jobs fuel s, J.done p.2 p.1 = false → P p.2 →
      ∃ r, J.attempt p.1 p.2 = .ok r ∧ P r.1)
    (hs : P s) :
    (∀ p ∈ J.attempts jobs fuel s, J.done p.2 p.1 = false ∧ P p.2) ∧
      ∃ s', J.rounds jobs fuel s = .ok s' ∧ P s' := by
  induction fuel generalizing s with
  | zero => exact ⟨by simp [attempts], s, rfl, hs⟩
  | succ fuel ih =>
    simp only [attempts] at step ⊢
    have hpass := fun p hp => step p (mem_append_left _ hp)
    obtain ⟨hall, ⟨s₁, b⟩, hr, hinv⟩ := pass_invariant jobs s hpass hs
    cases b with
    | false =>
      simp only [hr, append_nil]
      exact ⟨hall, s₁, by simp only [rounds, hr], hinv⟩
    | true =>
      simp only [hr] at step ⊢
      have hrest := fun p hp => step p (mem_append_right _ hp)
      obtain ⟨hall', s', hr', hinv'⟩ := ih s₁ hrest hinv
      refine ⟨?_, s', by simp only [rounds, hr, hr'], hinv'⟩
      intro p hp
      exact (mem_append.mp hp).elim (hall p) (hall' p)

end invariant

/-! ## What attempts add stays -/

section growth

variable {J} {R : σ → σ → Prop} (refl : ∀ s, R s s) (trans : ∀ a b c, R a b → R b c → R a c)
  (step : ∀ i s s' b, J.attempt i s = .ok (s', b) → R s s')

include refl trans step

theorem pass_extends {is : List ι} {s s' : σ} {b : Bool} (h : J.pass is s = .ok (s', b)) :
    R s s' ∧ ∀ p ∈ J.passAttempts is s, ∃ r, J.attempt p.1 p.2 = .ok r ∧ R r.1 s' := by
  induction is generalizing s b with
  | nil =>
    cases h
    exact ⟨refl _, by simp [passAttempts]⟩
  | cons i is ih =>
    simp only [pass] at h
    simp only [passAttempts]
    split at h
    next hdone => simpa only [hdone, if_true] using ih h
    next hdone =>
      split at h
      next => cases h
      next s₁ finished hattempt =>
        split at h
        next => cases h
        next s₂ progress hpass =>
          cases h
          obtain ⟨hR, hrest⟩ := ih hpass
          have hstep := step i s s₁ finished hattempt
          refine ⟨trans _ _ _ hstep hR, ?_⟩
          intro p hp
          simp only [hdone] at hp
          rcases mem_cons.mp hp with rfl | hp
          · exact ⟨(s₁, finished), hattempt, hR⟩
          · exact hrest p hp

/-- An attempt of a run that ends without failure leaves a state that the last one extends. -/
theorem rounds_extends {jobs : List ι} {fuel : Nat} {s s' : σ} (h : J.rounds jobs fuel s = .ok s') :
    R s s' ∧ ∀ p ∈ J.attempts jobs fuel s, ∃ r, J.attempt p.1 p.2 = .ok r ∧ R r.1 s' := by
  induction fuel generalizing s with
  | zero =>
    cases h
    exact ⟨refl _, by simp [attempts]⟩
  | succ fuel ih =>
    simp only [rounds] at h
    simp only [attempts]
    split at h
    next => cases h
    next s₁ hpass =>
      obtain ⟨hR, hrest⟩ := pass_extends refl trans step hpass
      obtain ⟨hR', hrest'⟩ := ih h
      refine ⟨trans _ _ _ hR hR', ?_⟩
      intro p hp
      simp only [hpass] at hp
      rcases mem_append.mp hp with hp | hp
      · obtain ⟨r, hr, hr'⟩ := hrest p hp
        exact ⟨r, hr, trans _ _ _ hr' hR'⟩
      · exact hrest' p hp
    next s₁ hpass =>
      cases h
      simpa only [hpass, append_nil] using pass_extends refl trans step hpass

end growth

/-! ## How a run ends -/

/-- The jobs of a list that are not done. -/
def left (jobs : List ι) (s : σ) : Nat := jobs.countP fun i => !J.done s i

theorem left_le (jobs : List ι) (s : σ) : J.left jobs s ≤ jobs.length := countP_le_length

section ends

variable {J} [DecidableEq ι]

/-- An attempt marks its own job as done where it finishes it, and no other job. -/
def Marks (J : Jobs σ ε ι) : Prop :=
  ∀ i s s' b, J.attempt i s = .ok (s', b) → ∀ j, J.done s' j = (J.done s j || (b && decide (j = i)))

/-- The jobs that a round left open, each attempted in a state with the same jobs done. -/
def Stuck (J : Jobs σ ε ι) (is : List ι) (s : σ) (tried : List (ι × σ)) : Prop :=
  ∀ i ∈ is, J.done s i = false →
    ∃ s₁ s₂, (i, s₁) ∈ tried ∧ J.attempt i s₁ = .ok (s₂, false) ∧ J.done s₁ = J.done s

variable {s s' : σ} {is : List ι}

theorem Marks.kept (hmarks : Marks J) {i : ι} {b : Bool} (h : J.attempt i s = .ok (s', b)) (j : ι)
    (hj : J.done s j = true) : J.done s' j = true := by
  rw [hmarks i s s' b h j, hj, Bool.true_or]

theorem Marks.idle (hmarks : Marks J) {i : ι} (h : J.attempt i s = .ok (s', false)) :
    J.done s' = J.done s := by
  funext j
  rw [hmarks i s s' false h j, Bool.false_and, Bool.or_false]

theorem Marks.pass_kept (hmarks : Marks J) {b : Bool} (h : J.pass is s = .ok (s', b)) (j : ι)
    (hj : J.done s j = true) : J.done s' j = true :=
  (pass_extends (R := fun s s' => J.done s j = true → J.done s' j = true) (fun _ => id)
    (fun _ _ _ hab hbc ha => hbc (hab ha)) (fun _ _ _ _ h => hmarks.kept h j) h).1 hj

theorem Marks.pass_idle (hmarks : Marks J) (h : J.pass is s = .ok (s', false)) :
    J.done s' = J.done s ∧ Stuck J is s' (J.passAttempts is s) := by
  induction is generalizing s with
  | nil =>
    cases h
    exact ⟨rfl, by simp [Stuck]⟩
  | cons i is ih =>
    simp only [pass] at h
    simp only [passAttempts]
    split at h
    next hdone =>
      obtain ⟨heq, hstuck⟩ := ih h
      simp only [hdone, if_true]
      refine ⟨heq, fun k hk hopen => ?_⟩
      rcases mem_cons.mp hk with rfl | hk
      · rw [heq, hdone] at hopen
        cases hopen
      · exact hstuck k hk hopen
    next hdone =>
      split at h
      next => cases h
      next s₁ finished hattempt =>
        split at h
        next => cases h
        next s₂ progress hpass =>
          simp only [Except.ok.injEq, Prod.mk.injEq, Bool.or_eq_false_iff] at h
          obtain ⟨rfl, rfl, rfl⟩ := h
          obtain ⟨heq, hstuck⟩ := ih hpass
          have hidle := hmarks.idle hattempt
          simp only [hdone]
          refine ⟨heq.trans hidle, fun k hk hopen => ?_⟩
          rcases mem_cons.mp hk with rfl | hk
          · exact ⟨s, s₁, mem_cons_self, hattempt, (heq.trans hidle).symm⟩
          · obtain ⟨a, b, ha, hb, hd⟩ := hstuck k hk hopen
            exact ⟨a, b, mem_cons_of_mem _ ha, hb, hd⟩

theorem Marks.pass_progress (hmarks : Marks J) (h : J.pass is s = .ok (s', true)) :
    ∃ i ∈ is, J.done s i = false ∧ J.done s' i = true := by
  induction is generalizing s with
  | nil => cases h
  | cons i is ih =>
    simp only [pass] at h
    split at h
    next =>
      obtain ⟨k, hk, hopen, hclosed⟩ := ih h
      exact ⟨k, mem_cons_of_mem _ hk, hopen, hclosed⟩
    next hdone =>
      split at h
      next => cases h
      next s₁ finished hattempt =>
        split at h
        next => cases h
        next s₂ progress hpass =>
          simp only [Except.ok.injEq, Prod.mk.injEq, Bool.or_eq_true] at h
          obtain ⟨rfl, rfl | rfl⟩ := h
          · have hi : J.done s₁ i = true := by simp [hmarks i s s₁ true hattempt i]
            exact ⟨i, mem_cons_self, by simpa using hdone, hmarks.pass_kept hpass i hi⟩
          · obtain ⟨k, hk, hopen, hclosed⟩ := ih hpass
            refine ⟨k, mem_cons_of_mem _ hk, ?_, hclosed⟩
            cases hk' : J.done s k with
            | false => rfl
            | true => rw [hmarks.kept hattempt k hk'] at hopen; cases hopen

/-- A round with progress leaves less to do. -/
theorem Marks.left_lt (hmarks : Marks J) {jobs : List ι} (h : J.pass jobs s = .ok (s', true)) :
    J.left jobs s' < J.left jobs s := by
  obtain ⟨i, hi, hopen, hclosed⟩ := hmarks.pass_progress h
  have hmono : ∀ j, (!J.done s' j) = true → (!J.done s j) = true := by
    intro j hj
    cases hj' : J.done s j with
    | false => rfl
    | true => rw [hmarks.pass_kept h j hj'] at hj; exact hj
  -- The job finished in this round counts before it and not after it.
  obtain ⟨before, after, rfl⟩ := append_of_mem hi
  have hbefore : J.left before s' ≤ J.left before s := countP_mono_left fun j _ => hmono j
  have hafter : J.left after s' ≤ J.left after s := countP_mono_left fun j _ => hmono j
  simp only [left] at hbefore hafter ⊢
  simp only [countP_append, countP_cons, hopen, hclosed]
  simp only [Bool.not_false, Bool.not_true, if_true, Bool.false_eq_true, if_false]
  omega

/-- With more fuel than jobs the run ends with a round that finishes none. -/
theorem Marks.rounds_stuck (hmarks : Marks J) {jobs : List ι} {fuel : Nat}
    (hfuel : J.left jobs s < fuel) (h : J.rounds jobs fuel s = .ok s') :
    Stuck J jobs s' (J.attempts jobs fuel s) := by
  induction fuel generalizing s with
  | zero => omega
  | succ fuel ih =>
    simp only [rounds] at h
    simp only [attempts]
    split at h
    next => cases h
    next s₁ hpass =>
      have hlt := hmarks.left_lt hpass
      intro i hi hopen
      obtain ⟨a, b, ha, hb, hd⟩ := ih (by omega) h i hi hopen
      exact ⟨a, b, by simp only [hpass, mem_append, ha, or_true], hb, hd⟩
    next s₁ hpass =>
      cases h
      simpa only [hpass, append_nil] using (hmarks.pass_idle hpass).2

end ends

end Jobs

end Rut.Lib
