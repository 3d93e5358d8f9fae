import Mathlib

/-!
# Emitting straight-line code in single assignment form

An emitter takes the number of the next value and answers with a result and the operations it
appends; the `k`-th operation of a piece of code that starts at `n` defines the value `n + k`. Code
is executed by `exec`, one operation after the other, over an assignment of the values defined so
far. What an operation means is the parameter `eval`.

    Evals e n env a n' env'   : e, started at n, returns a; its code leads from env to env'
    Computes e n env x        : e returns a value, and its code gives this value the meaning x

An emitter is verified along its own text: `Computes.bind` hands the next piece the value of the
piece before it, and every value that was defined earlier keeps its meaning (`Later`).
-/

namespace Rut.Lib.Ssa

/-- Emitters over the operations `Op` that may fail with an `ε`. -/
def Emit (Op ε α : Type) : Type := Nat → Except ε (α × List Op)

namespace Emit

variable {Op ε α β : Type}

protected def pure (a : α) : Emit Op ε α := fun _ => .ok (a, [])

protected def bind (e : Emit Op ε α) (f : α → Emit Op ε β) : Emit Op ε β := fun n =>
  match e n with
  | .error err => .error err
  | .ok (a, ops) =>
    match f a (n + ops.length) with
    | .error err => .error err
    | .ok (b, ops') => .ok (b, ops ++ ops')

instance : Monad (Emit Op ε) where
  pure := Emit.pure
  bind := Emit.bind

/-- Append an operation; its value is the result. -/
def op (o : Op) : Emit Op ε Nat := fun n => .ok (n, [o])

def fail (err : ε) : Emit Op ε α := fun _ => .error err

end Emit

/-! ## Execution -/

section Execution

variable {Op Val ε α β : Type} (eval : (Nat → Val) → Op → Val)

/-- Execute code whose first operation defines the value `n`. -/
def exec : Nat → List Op → (Nat → Val) → Nat → Val
  | _, [], env => env
  | n, o :: ops, env => exec (n + 1) ops (Function.update env n (eval env o))

/-- What a piece of code computes for the value its emitter returns. -/
def result (e : Emit Op ε Nat) (n : Nat) (env : Nat → Val) : Except ε Val :=
  match e n with
  | .error err => .error err
  | .ok (v, ops) => .ok (exec eval n ops env v)

/-- Code is executed piece by piece. -/
theorem exec_append (n : Nat) (ops ops' : List Op) (env : Nat → Val) :
    exec eval n (ops ++ ops') env = exec eval (n + ops.length) ops' (exec eval n ops env) := by
  induction ops generalizing n env with
  | nil => rfl
  | cons o ops ih =>
    show exec eval (n + 1) (ops ++ ops') _ = _
    rw [ih, List.length_cons, Nat.add_assoc, Nat.add_comm 1]
    rfl

variable {n v n' : Nat} {env env' : Nat → Val} {x : Val}

/-- Values before the code keep their meaning. -/
theorem exec_of_lt (hv : v < n) (ops : List Op) (env : Nat → Val) :
    exec eval n ops env v = env v := by
  induction ops generalizing n env with
  | nil => rfl
  | cons o ops ih =>
    show exec eval (n + 1) ops _ v = _
    rw [ih (Nat.lt_succ_of_lt hv), Function.update_of_ne (Nat.ne_of_lt hv)]

/-- The value `v` is defined before `n` and means `x`. -/
structure Holds (n : Nat) (env : Nat → Val) (v : Nat) (x : Val) : Prop where
  defined : v < n
  means : env v = x

/-- Code has been executed from `n` to `n'`. -/
structure Later (n : Nat) (env : Nat → Val) (n' : Nat) (env' : Nat → Val) : Prop where
  le : n ≤ n'
  keeps : ∀ v < n, env' v = env v

theorem Later.trans {n'' : Nat} {env'' : Nat → Val} (h : Later n env n' env')
    (h' : Later n' env' n'' env'') : Later n env n'' env'' :=
  ⟨Nat.le_trans h.le h'.le, fun v hv =>
    (h'.keeps v (Nat.lt_of_lt_of_le hv h.le)).trans (h.keeps v hv)⟩

/-- A value keeps its meaning. -/
theorem Holds.later (h : Holds n env v x) (hl : Later n env n' env') : Holds n' env' v x :=
  ⟨Nat.lt_of_lt_of_le h.defined hl.le, (hl.keeps v h.defined).trans h.means⟩

theorem Holds.ite {w : Nat} {y : Val} {p : Prop} [Decidable p] (hv : Holds n env v x)
    (hw : Holds n env w y) : Holds n env (if p then v else w) (if p then x else y) := by
  split
  · exact hv
  · exact hw

theorem Holds.map_eq {ids : List Nat} {vals : List Val} (h : List.Forall₂ (Holds n env) ids vals) :
    ids.map env = vals := by
  induction h with
  | nil => rfl
  | cons hv _ ih => rw [List.map_cons, hv.means, ih]

theorem Holds.forall₂_later {ids : List Nat} {vals : List Val}
    (h : List.Forall₂ (Holds n env) ids vals) (hl : Later n env n' env') :
    List.Forall₂ (Holds n' env') ids vals :=
  h.imp fun _ _ hv => hv.later hl

/-! ## Verifying emitters -/

/-- The emitter succeeds with `a`, and its code leads from `env` to `env'`. -/
def Evals (e : Emit Op ε α) (n : Nat) (env : Nat → Val) (a : α) (n' : Nat) (env' : Nat → Val) :
    Prop :=
  ∃ ops, e n = .ok (a, ops) ∧ n' = n + ops.length ∧ env' = exec eval n ops env

variable {eval}
variable {e : Emit Op ε α} {f : α → Emit Op ε β} {n n' n'' : Nat} {env env' env'' : Nat → Val}
  {a : α} {b : β}

theorem Evals.later (h : Evals eval e n env a n' env') : Later n env n' env' := by
  obtain ⟨ops, -, rfl, rfl⟩ := h
  exact ⟨Nat.le_add_right n _, fun v hv => exec_of_lt eval hv ops env⟩

theorem evals_pure (a : α) : Evals eval (pure a : Emit Op ε α) n env a n env :=
  ⟨[], rfl, rfl, rfl⟩

/-- One piece of code after the other. -/
theorem Evals.bind (h : Evals eval e n env a n' env') (hf : Evals eval (f a) n' env' b n'' env'') :
    Evals eval (e >>= f) n env b n'' env'' := by
  obtain ⟨ops, he, rfl, rfl⟩ := h
  obtain ⟨ops', hf, rfl, rfl⟩ := hf
  refine ⟨ops ++ ops', ?_, ?_, ?_⟩
  · show Emit.bind e f n = _
    rw [Emit.bind, he]
    dsimp only
    rw [hf]
  · rw [List.length_append, Nat.add_assoc]
  · rw [exec_append]

/-- The emitter returns a value that means `x` once its code has been executed. -/
def Computes (eval : (Nat → Val) → Op → Val) (e : Emit Op ε Nat) (n : Nat) (env : Nat → Val)
    (x : Val) : Prop :=
  ∃ v n' env', Evals eval e n env v n' env' ∧ Holds n' env' v x

/-- The meaning is what is computed. -/
theorem Computes.result_eq {e : Emit Op ε Nat} (h : Computes eval e n env x) :
    result eval e n env = .ok x := by
  obtain ⟨v, n', env', ⟨ops, he, rfl, rfl⟩, hx⟩ := h
  rw [result, he]
  exact congrArg Except.ok hx.means

theorem Holds.computes_pure (h : Holds n env v x) :
    Computes eval (pure v : Emit Op ε Nat) n env x :=
  ⟨v, n, env, evals_pure v, h⟩

theorem computes_op {o : Op} (h : eval env o = x) :
    Computes eval (Emit.op o : Emit Op ε Nat) n env x := by
  refine ⟨n, n + 1, Function.update env n (eval env o), ⟨[o], rfl, rfl, rfl⟩, ?_, ?_⟩
  · exact Nat.lt_succ_self n
  · rw [Function.update_self, h]

/-- The next piece goes on with the value of the piece before it. -/
theorem Computes.bind {e : Emit Op ε Nat} {f : Nat → Emit Op ε Nat} {y : Val}
    (h : Computes eval e n env x)
    (hf : ∀ v n' env', Later n env n' env' → Holds n' env' v x → Computes eval (f v) n' env' y) :
    Computes eval (e >>= f) n env y := by
  obtain ⟨v, n', env', he, hv⟩ := h
  obtain ⟨w, n'', env'', hw, hy⟩ := hf v n' env' he.later hv
  exact ⟨w, n'', env'', he.bind hw, hy⟩

end Execution

end Rut.Lib.Ssa
