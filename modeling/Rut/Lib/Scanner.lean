import Mathlib

/-!
# Resumable scanners

A scanner reads a stream symbol by symbol until it is done or refuses a symbol. What it finds does
not depend on how the stream is cut into pieces.

`Reads` is for machines that are known to get through a piece: it composes along the stream.
-/

namespace Rut.Lib.Scanner

variable {σ ρ τ : Type}

/-- A state machine over symbols. `step` is `none` where a symbol is refused. -/
structure Machine (σ τ : Type) where
  step : σ → τ → Option σ
  done : σ → Bool

/-- How a scan of a piece of the stream ends. -/
inductive Verdict where
  | more | done | error
deriving DecidableEq, Repr

/-- The state reached, the number of symbols read and the verdict. -/
structure Scan (σ : Type) where
  state : σ
  count : Nat
  verdict : Verdict
deriving DecidableEq, Repr

/-- The same scan, `n` symbols further. -/
def Scan.shift (r : Scan σ) (n : Nat) : Scan σ := { r with count := r.count + n }

/-- The same scan, seen through a view of the states. -/
def Scan.map (f : σ → ρ) (r : Scan σ) : Scan ρ := ⟨f r.state, r.count, r.verdict⟩

variable (m : Machine σ τ)

def scan : σ → List τ → Scan σ
  | s, [] => ⟨s, 0, if m.done s then .done else .more⟩
  | s, x :: xs =>
    if m.done s then ⟨s, 0, .done⟩
    else
      match m.step s x with
      | none => ⟨s, 0, .error⟩
      | some s' => (scan s' xs).shift 1

variable {m} {s : σ} {xs : List τ}

theorem Scan.shift_shift (r : Scan σ) (a b : Nat) : (r.shift a).shift b = r.shift (a + b) := by
  simp only [Scan.shift, Nat.add_assoc]

/-! ## Scans -/

theorem scan_nil (s : σ) : scan m s [] = ⟨s, 0, if m.done s then .done else .more⟩ := rfl

/-- A machine that is done reads nothing. -/
theorem scan_of_done (h : m.done s = true) (xs : List τ) : scan m s xs = ⟨s, 0, .done⟩ := by
  cases xs with
  | nil => rw [scan_nil, if_pos h]
  | cons x xs => exact if_pos h

theorem scan_cons_eq (h : m.done s = false) (x : τ) (xs : List τ) :
    scan m s (x :: xs) = (m.step s x).elim ⟨s, 0, .error⟩ fun s' => (scan m s' xs).shift 1 := by
  refine (if_neg (by rw [h]; exact Bool.false_ne_true)).trans ?_
  cases m.step s x <;> rfl

theorem scan_cons {s' : σ} {x : τ} (h : m.done s = false) (hs : m.step s x = some s')
    (xs : List τ) : scan m s (x :: xs) = (scan m s' xs).shift 1 := by
  rw [scan_cons_eq h, hs]
  rfl

theorem scan_cons_error {x : τ} (h : m.done s = false) (hs : m.step s x = none)
    (xs : List τ) : scan m s (x :: xs) = ⟨s, 0, .error⟩ := by
  rw [scan_cons_eq h, hs]
  rfl

/-- What a scan does with its first symbol. -/
theorem scan_cons_cases (m : Machine σ τ) (s : σ) (x : τ) (xs : List τ) :
    (m.done s = true ∧ scan m s (x :: xs) = ⟨s, 0, .done⟩) ∨
    (m.done s = false ∧ m.step s x = none ∧ scan m s (x :: xs) = ⟨s, 0, .error⟩) ∨
    ∃ s', m.done s = false ∧ m.step s x = some s' ∧
      scan m s (x :: xs) = (scan m s' xs).shift 1 := by
  cases hd : m.done s with
  | true => exact .inl ⟨rfl, scan_of_done hd _⟩
  | false =>
    cases hs : m.step s x with
    | none => exact .inr (.inl ⟨rfl, rfl, scan_cons_error hd hs xs⟩)
    | some s' => exact .inr (.inr ⟨s', rfl, rfl, scan_cons hd hs xs⟩)

/-- An unfinished scan has read everything. -/
theorem scan_count_of_more (h : (scan m s xs).verdict = .more) :
    (scan m s xs).count = xs.length := by
  induction xs generalizing s with
  | nil => rfl
  | cons x xs ih =>
    rcases scan_cons_cases m s x xs with ⟨-, hscan⟩ | ⟨-, -, hscan⟩ | ⟨s', -, -, hscan⟩ <;>
      rw [hscan] at h ⊢
    · cases h
    · cases h
    · exact congrArg (· + 1) (ih h)

theorem scan_done_iff (s : σ) (xs : List τ) :
    (scan m s xs).verdict = .done ↔ m.done (scan m s xs).state = true := by
  induction xs generalizing s with
  | nil =>
    rw [scan_nil]
    cases h : m.done s <;> simp
  | cons x xs ih =>
    rcases scan_cons_cases m s x xs with ⟨hd, h⟩ | ⟨hd, -, h⟩ | ⟨s', -, -, h⟩ <;> rw [h]
    · exact iff_of_true rfl hd
    · exact iff_of_false nofun (by rw [hd]; exact Bool.false_ne_true)
    · exact ih s'

/-- An unfinished scan goes on where it stopped. -/
theorem scan_append_of_more (h : (scan m s xs).verdict = .more) (ys : List τ) :
    scan m s (xs ++ ys) = (scan m (scan m s xs).state ys).shift xs.length := by
  induction xs generalizing s with
  | nil => rfl
  | cons x xs ih =>
    rcases scan_cons_cases m s x xs with ⟨-, hscan⟩ | ⟨-, -, hscan⟩ | ⟨s', hd, hs, hscan⟩ <;>
      rw [hscan] at h
    · cases h
    · cases h
    · rw [List.cons_append, hscan, scan_cons hd hs, ih h, Scan.shift_shift]
      rfl

/-- A finished one ignores what follows. -/
theorem scan_append_of_ne_more (h : (scan m s xs).verdict ≠ .more) (ys : List τ) :
    scan m s (xs ++ ys) = scan m s xs := by
  induction xs generalizing s with
  | nil =>
    have hd : m.done s = true := by
      by_contra hd
      exact h (if_neg hd)
    rw [scan_of_done hd, scan_of_done hd]
  | cons x xs ih =>
    rcases scan_cons_cases m s x xs with ⟨hd, hscan⟩ | ⟨hd, hs, hscan⟩ | ⟨s', hd, hs, hscan⟩ <;>
      rw [hscan, List.cons_append]
    · exact scan_of_done hd _
    · exact scan_cons_error hd hs _
    · rw [scan_cons hd hs, ih (fun hmore => h (by rw [hscan]; exact hmore))]

/-! ## Getting through a piece -/

/-- From `s` the machine reads all of `xs` and is in `s'` then. -/
def Reads (m : Machine σ τ) (s : σ) (xs : List τ) (s' : σ) : Prop :=
  ∀ ys, scan m s (xs ++ ys) = (scan m s' ys).shift xs.length

theorem Reads.nil (s : σ) : Reads m s [] s := fun _ => rfl

theorem Reads.trans {s₁ s₂ : σ} {ys : List τ} (h₁ : Reads m s xs s₁) (h₂ : Reads m s₁ ys s₂) :
    Reads m s (xs ++ ys) s₂ := by
  intro zs
  rw [List.append_assoc, h₁, h₂, Scan.shift_shift, List.length_append, Nat.add_comm]

theorem reads_single {s' : σ} {x : τ} (h : m.done s = false) (hs : m.step s x = some s') :
    Reads m s [x] s' :=
  fun ys => scan_cons h hs ys

theorem Reads.cons {s₁ s₂ : σ} {x : τ} (h : m.done s = false) (hs : m.step s x = some s₁)
    (h₂ : Reads m s₁ xs s₂) : Reads m s (x :: xs) s₂ :=
  (reads_single h hs).trans h₂

/-- Symbols that leave the state as it is. -/
theorem reads_loop (h : m.done s = false) (hs : ∀ x ∈ xs, m.step s x = some s) :
    Reads m s xs s := by
  induction xs with
  | nil => exact Reads.nil s
  | cons x xs ih =>
    obtain ⟨hx, hxs⟩ := List.forall_mem_cons.mp hs
    exact Reads.cons h hx (ih hxs)

end Rut.Lib.Scanner
