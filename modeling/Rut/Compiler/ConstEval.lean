import Rut.Compiler.Equality

/-!
# Constant folding

`if const` and `match const` are decided by `const_eval_expr`, an evaluator of its own with its own
values. Of a variant it keeps the declaration and the case; the payload is not evaluated. A local is
folded through its initialiser, down to a fixed depth. The lowering knows nothing of this: for the
same expression it emits code that compares variants by their payloads too.

Expressions that are not folded are kept abstract: `Others` has their code and what it computes.
-/

namespace Rut.Compiler.ConstEval

open Rir Lib.Ssa Shape List

/-! ## Expressions -/

/-- An expression of a route or a function body. The declaration of a variant and the number of a
case are given by indices; `other` stands for every kind of expression that is never folded. -/
inductive Expr (κ : Type) where
  | boolLit (b : Bool)
  | intLit (n : Int)
  | strLit (s : Str)
  | constMethod (m : Nat)
  | variantCase (decl case : Nat)
  | variantPayload (decl case : Nat) (payload : Expr κ)
  | localRef (index : Nat)
  | eq (lhs rhs : Expr κ)
  | lt (lhs rhs : Expr κ)
  | gt (lhs rhs : Expr κ)
  | other (k : κ)

/-- A local with the type that was recorded for it. -/
structure Local (κ : Type) where
  shape : Shape
  init : Expr κ

structure VariantDecl where
  name : String
  cases : List (Option Shape)

/-- The code of other expressions, given where the values of the locals are, and its meaning. -/
structure Others (c : HandlerCtx) (κ : Type) where
  shape : κ → Shape
  code : κ → List ValueId → Emit ValueId
  value : κ → List Val → Val
  /-- The locals that it mentions come before this one. -/
  bound : κ → Nat
  computes : ∀ k ids vals n env, bound k ≤ ids.length → List.Forall₂ (Holds n env) ids vals →
    Computes (eval c) (code k ids) n env (value k vals)
  value_append : ∀ k vals vals', bound k ≤ vals.length → value k (vals ++ vals') = value k vals

/-! ## Folding -/

inductive ConstValue where
  | bool (b : Bool)
  | int (n : Int)
  | str (s : Str)
  | method (m : Nat)
  | variant (decl case : Nat)
deriving DecidableEq, Repr

def kMaxLocals : Nat := 16

section fold

variable {κ : Type} (locals : List (Local κ))

def constEq : ConstValue → ConstValue → Option ConstValue
  | .bool a, .bool b => some (.bool (a == b))
  | .int a, .int b => some (.bool (a == b))
  | .method a, .method b => some (.bool (a == b))
  | .str a, .str b => some (.bool (a == b))
  | .variant d a, .variant e b => some (.bool (d == e && a == b))
  | _, _ => none

/-- Only integers are folded under an order. -/
def constOrd (lt : Bool) : ConstValue → ConstValue → Option ConstValue
  | .int a, .int b => some (.bool (if lt then decide (a < b) else decide (b < a)))
  | _, _ => none

/-- `const_eval_expr`, with the depth that is left instead of the depth that is reached. -/
def constEval : Nat → Expr κ → Option ConstValue
  | 0, _ => none
  | fuel + 1, e =>
    match e with
    | .boolLit b => some (.bool b)
    | .intLit n => some (.int n)
    | .strLit s => some (.str s)
    | .constMethod m => some (.method m)
    | .variantCase decl case => some (.variant decl case)
    | .variantPayload decl case _ => some (.variant decl case)
    | .localRef i =>
      match locals[i]? with
      | some l => constEval fuel l.init
      | none => none
    | .eq lhs rhs =>
      match constEval fuel lhs, constEval fuel rhs with
      | some a, some b => constEq a b
      | _, _ => none
    | .lt lhs rhs =>
      match constEval fuel lhs, constEval fuel rhs with
      | some a, some b => constOrd true a b
      | _, _ => none
    | .gt lhs rhs =>
      match constEval fuel lhs, constEval fuel rhs with
      | some a, some b => constOrd false a b
      | _, _ => none
    | .other _ => none

def constEvalExpr (e : Expr κ) : Option ConstValue :=
  constEval locals (locals.length + kMaxLocals + 1) e

end fold

/-- A pattern of an arm; an arm without one is a wildcard. -/
inductive Pattern where
  | bool (b : Bool)
  | int (n : Int)
  | str (s : Str)
  | case (decl case : Nat)
deriving DecidableEq, Repr

def Pattern.folds : Pattern → ConstValue → Bool
  | .bool b, .bool b' => b == b'
  | .int n, .int n' => n == n'
  | .str s, .str s' => s == s'
  | .case decl k, .variant decl' k' => decl == decl' && k == k'
  | _, _ => false

/-- The loop over the arms of a `match const`, from arm `i` on, with the last wildcard so far. -/
def selectArm (subject : ConstValue) : List (Option Pattern) → Nat → Option Nat → Option Nat
  | [], _, wildcard => wildcard
  | none :: arms, i, _ => selectArm subject arms (i + 1) (some i)
  | some p :: arms, i, wildcard =>
    if p.folds subject then some i else selectArm subject arms (i + 1) wildcard

def constArm (subject : ConstValue) (arms : List (Option Pattern)) : Option Nat :=
  selectArm subject arms 0 none

/-! ## Lowering -/

section lowering

variable {κ : Type} {c : HandlerCtx} (variants : List VariantDecl) (O : Others c κ)
  (locals : List (Local κ))

def casesOf (decl : Nat) : List (Option Shape) := (variants[decl]?.map VariantDecl.cases).getD []

def variantShape (decl : Nat) : Shape :=
  .variant ((variants[decl]?.map VariantDecl.name).getD "") (casesOf variants decl)

/-- The type recorded on an expression. -/
def shapeOf : Expr κ → Shape
  | .boolLit _ => .bool
  | .intLit _ => .i32
  | .strLit _ => .str
  | .constMethod _ => .method
  | .variantCase decl _ => variantShape variants decl
  | .variantPayload decl _ _ => variantShape variants decl
  | .localRef i => (locals[i]?.map Local.shape).getD .unknown
  | .eq _ _ => .bool
  | .lt _ _ => .bool
  | .gt _ _ => .bool
  | .other k => O.shape k

/-- The optional for the payloads of a kind that the value at hand does not have. Where no case has
such a payload the one for integers is used. -/
def emitNil (cases : List (Option Shape)) (nilI32 : ValueId) (k : Shape.Carrier) : Emit ValueId :=
  if cases.any fun p => p.any fun s => s.carrier == k then op (.optNil (payloadTy k cases))
  else pure nilI32

/-- A value of a variant: the number of the case, and six optionals of which `payload` replaces
one. -/
def emitCase (decl case : Nat) (payload : Option (Emit ValueId)) : Emit ValueId := do
  let cases := casesOf variants decl
  let tag ← op (.constI32 case)
  let nilBool ← op (.optNil .bool)
  let nilI32 ← op (.optNil .i32)
  let nilStr ← op (.optNil .str)
  let nilTuple ← emitNil cases nilI32 .tuple
  let nilVariant ← emitNil cases nilI32 .variant
  let nilStruct ← emitNil cases nilI32 .struct
  match cases[case]?.join, payload with
  | some s, some payload => do
    let value ← payload
    let wrapped ← op (.optWrap value)
    op (.structCreate (variantShape variants decl).ty
      [tag,
        if s.carrier = .bool then wrapped else nilBool,
        if s.carrier = .i32 then wrapped else nilI32,
        if s.carrier = .str then wrapped else nilStr,
        if s.carrier = .tuple then wrapped else nilTuple,
        if s.carrier = .variant then wrapped else nilVariant,
        if s.carrier = .struct then wrapped else nilStruct])
  | _, _ =>
    op (.structCreate (variantShape variants decl).ty
      [tag, nilBool, nilI32, nilStr, nilTuple, nilVariant, nilStruct])

/-- `materialize_value`. -/
def emit (ids : List ValueId) : Expr κ → Emit ValueId
  | .boolLit b => op (.constBool b)
  | .intLit n => op (.constI32 n)
  | .strLit s => op (.constStr s)
  | .constMethod m => op (.constMethod m)
  | .variantCase decl case => emitCase variants decl case none
  | .variantPayload decl case payload => emitCase variants decl case (some (emit ids payload))
  | .localRef i =>
    match ids[i]? with
    | some id => pure id
    | none => fail .unsupportedSyntax
  | .eq lhs rhs => do
    let a ← emit ids lhs
    let b ← emit ids rhs
    (shapeOf variants O locals lhs).emitEq a b
  | .lt lhs rhs => do
    let a ← emit ids lhs
    let b ← emit ids rhs
    (shapeOf variants O locals lhs).emitOrd true a b
  | .gt lhs rhs => do
    let a ← emit ids lhs
    let b ← emit ids rhs
    (shapeOf variants O locals lhs).emitOrd false a b
  | .other k => O.code k ids

/-- What the code computes. -/
def value (vals : List Val) : Expr κ → Val
  | .boolLit b => .bool b
  | .intLit n => .i32 n
  | .strLit s => .str s
  | .constMethod m => .method m
  | .variantCase decl case => caseVal (nils (casesOf variants decl)) case none
  | .variantPayload decl case payload =>
    caseVal (nils (casesOf variants decl)) case
      ((casesOf variants decl)[case]?.join.map fun s => (s.carrier, value vals payload))
  | .localRef i => vals[i]?.getD .undefined
  | .eq lhs rhs => (shapeOf variants O locals lhs).eqVal (value vals lhs) (value vals rhs)
  | .lt lhs rhs => (shapeOf variants O locals lhs).ordVal true (value vals lhs) (value vals rhs)
  | .gt lhs rhs => (shapeOf variants O locals lhs).ordVal false (value vals lhs) (value vals rhs)
  | .other k => O.value k vals

/-- The condition for an arm: a comparison with the pattern, or of the case with its number. -/
def Pattern.test (v : Val) : Pattern → Val
  | .bool b => v.cmpEq (.bool b)
  | .int n => v.cmpEq (.i32 n)
  | .str s => v.cmpEq (.str s)
  | .case _ k => (v.field "tag").cmpEq (.i32 k)

/-- The arm that is taken when the arms of a `match` have become conditionals, the last arm first:
a wildcard replaces what comes after it, and the arm that is last has no condition. -/
def runArm (v : Val) : List (Option Pattern) → Nat → Option Nat
  | [], _ => none
  | none :: _, i => some i
  | some p :: arms, i =>
    if arms.isEmpty then some i
    else
      match p.test v with
      | .bool true => some i
      | .bool false => runArm v arms (i + 1)
      | _ => none

end lowering

/-! ## The code of an expression -/

section code

variable {κ : Type} {c : HandlerCtx} {variants : List VariantDecl} {O : Others c κ}
  {locals : List (Local κ)}

/-- What the lowering accepts where the first `n` locals have their values: known types under
comparisons, and no other locals. -/
def Emits (variants : List VariantDecl) (O : Others c κ) (locals : List (Local κ)) (n : Nat) :
    Expr κ → Prop
  | .variantPayload _ _ payload => Emits variants O locals n payload
  | .localRef i => i < n
  | .eq lhs rhs => Emits variants O locals n lhs ∧ Emits variants O locals n rhs ∧
      (shapeOf variants O locals lhs).Known
  | .lt lhs rhs => Emits variants O locals n lhs ∧ Emits variants O locals n rhs ∧
      (shapeOf variants O locals lhs).Orderable
  | .gt lhs rhs => Emits variants O locals n lhs ∧ Emits variants O locals n rhs ∧
      (shapeOf variants O locals lhs).Orderable
  | .other k => O.bound k ≤ n
  | _ => True

theorem payloadTy_absent {cases : List (Option Shape)} {k : Shape.Carrier}
    (h : cases.any (fun p => p.any fun s => s.carrier == k) = false) (hk : k.composite = true) :
    payloadTy k cases = .i32 := by
  induction cases with
  | nil => cases k <;> first | rfl | cases hk
  | cons p cases ih =>
    rw [any_cons, Bool.or_eq_false_iff] at h
    cases p with
    | none => exact ih h.2
    | some s =>
      have hs : (s.carrier == k) = false := h.1
      simp only [payloadTy, hs, Bool.and_false, Bool.false_eq_true, if_false]
      exact ih h.2

variable {env : ValueId → Val}

theorem computes_emitNil {cases : List (Option Shape)} {nilI32 : ValueId} {k : Shape.Carrier}
    {n : Nat} (hk : k.composite = true)
    (hnil : Holds n env nilI32 (Val.nil .i32)) :
    Computes (eval c) (emitNil cases nilI32 k) n env (nils cases k) := by
  unfold emitNil
  split
  next => exact computes_const _ rfl
  next h =>
    have hty := payloadTy_absent (Bool.eq_false_iff.mpr h) hk
    unfold nils
    rw [hty]
    exact hnil.computes_pure

/-- The seven fields of a variant, given where their values are. -/
theorem computes_variantStruct {decl tag : Nat} {ids : List ValueId} {n : Nat}
    {payload : Option (Shape.Carrier × Val)}
    (hids : List.Forall₂ (Holds n env) ids
      (.i32 tag :: Shape.Carrier.all.map fun k =>
        match payload with
        | some (k', v) => if k' = k then .opt true v else nils (casesOf variants decl) k
        | none => nils (casesOf variants decl) k)) :
    Computes (eval c) (op (.structCreate (variantShape variants decl).ty ids) : Emit ValueId) n env
      (caseVal (nils (casesOf variants decl)) tag payload) := by
  apply computes_const
  show Val.struct (zip _ (ids.map env)) = _
  rw [Holds.map_eq hids]
  rfl

/-- A value of a variant, with the payload of its case if it has one. -/
theorem computes_emitCase {decl case : Nat} {n : Nat}
    {payload : Option (Emit ValueId)} {x : Val}
    (hpayload : ∀ code, payload = some code → ∀ n' env', Later n env n' env' →
      Computes (eval c) code n' env' x) :
    Computes (eval c) (emitCase variants decl case payload) n env
      (caseVal (nils (casesOf variants decl)) case
        (match payload with
          | some _ => (casesOf variants decl)[case]?.join.map fun s => (s.carrier, x)
          | none => none)) := by
  have hbool : Val.nil .bool = nils (casesOf variants decl) .bool :=
    congrArg Val.nil (payloadTy_scalar (k := .bool) rfl _).symm
  have hi32 : Val.nil .i32 = nils (casesOf variants decl) .i32 :=
    congrArg Val.nil (payloadTy_scalar (k := .i32) rfl _).symm
  have hstr : Val.nil .str = nils (casesOf variants decl) .str :=
    congrArg Val.nil (payloadTy_scalar (k := .str) rfl _).symm
  refine (computes_const (.constI32 case) rfl).bind fun _ _ _ h₁ ht => ?_
  refine (computes_const (.optNil .bool) hbool).bind fun _ _ _ h₂ hb => ?_
  refine (computes_const (.optNil .i32) hi32).bind fun _ _ _ h₃ hi => ?_
  refine (computes_const (.optNil .str) hstr).bind fun _ _ _ h₄ hs => ?_
  refine (computes_emitNil rfl (hi32 ▸ hi.later h₄)).bind fun _ _ _ h₅ hp => ?_
  have h₄₅ := h₄.trans h₅
  refine (computes_emitNil rfl (hi32 ▸ hi.later h₄₅)).bind fun _ _ _ h₆ hv => ?_
  have h₄₆ := h₄₅.trans h₆
  refine (computes_emitNil rfl (hi32 ▸ hi.later h₄₆)).bind fun _ _ _ h₇ hr => ?_
  have h₄₇ := h₄₆.trans h₇
  have h₃₇ := h₃.trans h₄₇
  have h₂₇ := h₂.trans h₃₇
  have hfields : List.Forall₂ (Holds _ _) _ _ :=
    .cons (ht.later h₂₇) (.cons (hb.later h₃₇) (.cons (hi.later h₄₇)
      (.cons (hs.later (h₅.trans (h₆.trans h₇))) (.cons (hp.later (h₆.trans h₇))
        (.cons (hv.later h₇) (.cons hr .nil))))))
  cases hs' : (casesOf variants decl)[case]?.join with
  | none =>
    cases payload <;> exact computes_variantStruct hfields
  | some s =>
    cases payload with
    | none => exact computes_variantStruct hfields
    | some code =>
      refine (hpayload code rfl _ _ (h₁.trans h₂₇)).bind fun _ _ _ h₈ hx => ?_
      refine (computes_optWrap hx).bind fun _ _ _ h₉ hw => ?_
      have h₈₉ := h₈.trans h₉
      apply computes_variantStruct
      refine .cons (ht.later (h₂₇.trans h₈₉)) ?_
      refine .cons (hw.ite (hb.later (h₃₇.trans h₈₉))) ?_
      refine .cons (hw.ite (hi.later (h₄₇.trans h₈₉))) ?_
      refine .cons (hw.ite (hs.later ((h₅.trans (h₆.trans h₇)).trans h₈₉))) ?_
      refine .cons (hw.ite (hp.later ((h₆.trans h₇).trans h₈₉))) ?_
      refine .cons (hw.ite (hv.later (h₇.trans h₈₉))) ?_
      exact .cons (hw.ite (hr.later h₈₉)) .nil

theorem computes_emit {ids : List ValueId} {vals : List Val} :
    (e : Expr κ) → Emits variants O locals ids.length e → ∀ {n : Nat} {env : ValueId → Val},
      List.Forall₂ (Holds n env) ids vals →
      Computes (eval c) (emit variants O locals ids e) n env (value variants O locals vals e)
  | .boolLit _, _, _, _, _ => computes_const _ rfl
  | .intLit _, _, _, _, _ => computes_const _ rfl
  | .strLit _, _, _, _, _ => computes_const _ rfl
  | .constMethod _, _, _, _, _ => computes_const _ rfl
  | .variantCase decl case, _, _, _, _ => by
    apply computes_emitCase (x := .undefined)
    intro code hcode
    cases hcode
  | .variantPayload decl case payload, he, _, _, h => by
    apply computes_emitCase
    intro code hcode n' env' hl
    cases hcode
    exact computes_emit payload he (Holds.forall₂_later h hl)
  | .localRef i, he, n, env, h => by
    have hv : i < vals.length := h.length_eq ▸ he
    simp only [emit, value, getElem?_eq_getElem he, getElem?_eq_getElem hv]
    exact (h.get he hv).computes_pure
  | .eq lhs rhs, he, _, _, h => by
    refine (computes_emit lhs he.1 h).bind fun _ _ _ h₁ ha => ?_
    refine (computes_emit rhs he.2.1 (Holds.forall₂_later h h₁)).bind fun _ _ _ h₂ hb => ?_
    exact computes_emitEq _ he.2.2 (ha.later h₂) hb
  | .lt lhs rhs, he, _, _, h => by
    refine (computes_emit lhs he.1 h).bind fun _ _ _ h₁ ha => ?_
    refine (computes_emit rhs he.2.1 (Holds.forall₂_later h h₁)).bind fun _ _ _ h₂ hb => ?_
    exact computes_emitOrd true _ he.2.2 (ha.later h₂) hb
  | .gt lhs rhs, he, _, _, h => by
    refine (computes_emit lhs he.1 h).bind fun _ _ _ h₁ ha => ?_
    refine (computes_emit rhs he.2.1 (Holds.forall₂_later h h₁)).bind fun _ _ _ h₂ hb => ?_
    exact computes_emitOrd false _ he.2.2 (ha.later h₂) hb
  | .other k, he, _, _, h => O.computes k ids vals _ _ he h

end code

/-! ## Locals -/

section locals

variable {κ : Type} {c : HandlerCtx} (variants : List VariantDecl) (O : Others c κ)
  (locals : List (Local κ))

/-- The loop of `lower_to_rir` over the locals: the code of an initialiser finds the locals before it. -/
def emitLocals : List (Local κ) → List ValueId → Emit (List ValueId)
  | [], ids => pure ids
  | l :: rest, ids => do
    let id ← emit variants O locals ids l.init
    emitLocals rest (ids ++ [id])

def localVals : List (Local κ) → List Val → List Val
  | [], vals => vals
  | l :: rest, vals => localVals rest (vals ++ [value variants O locals vals l.init])

/-- Locals as the analysis leaves them: the type of the initialiser is recorded, and there is code for
it that mentions earlier locals only. A parameter, and a local that may be nil or an error, has an
initialiser that is never folded. -/
structure Scope where
  locals : List (Local κ)
  typed : ∀ l ∈ locals, l.shape = shapeOf variants O locals l.init
  emits : ∀ i l, locals[i]? = some l → Emits variants O locals i l.init

variable {variants O locals} {n n' : Nat} {vals vals' : List Val}

/-- More locals do no harm. -/
theorem Emits.mono (hle : n ≤ n') : {e : Expr κ} → Emits variants O locals n e →
    Emits variants O locals n' e
  | .variantPayload _ _ payload, h => Emits.mono (e := payload) hle h
  | .localRef _, h => Nat.lt_of_lt_of_le h hle
  | .eq _ _, h => ⟨Emits.mono hle h.1, Emits.mono hle h.2.1, h.2.2⟩
  | .lt _ _, h => ⟨Emits.mono hle h.1, Emits.mono hle h.2.1, h.2.2⟩
  | .gt _ _, h => ⟨Emits.mono hle h.1, Emits.mono hle h.2.1, h.2.2⟩
  | .other _, h => Nat.le_trans h hle
  | .boolLit _, _ | .intLit _, _ | .strLit _, _ | .constMethod _, _ | .variantCase _ _, _ => trivial

/-- An expression does not see the locals behind those it may mention. -/
theorem value_append : (e : Expr κ) → Emits variants O locals vals.length e →
    value variants O locals (vals ++ vals') e = value variants O locals vals e
  | .variantPayload _ _ payload, h => by rw [value, value, value_append payload h]
  | .localRef i, h => by rw [value, value, getElem?_append_left h]
  | .eq lhs rhs, h => by rw [value, value, value_append lhs h.1, value_append rhs h.2.1]
  | .lt lhs rhs, h => by rw [value, value, value_append lhs h.1, value_append rhs h.2.1]
  | .gt lhs rhs, h => by rw [value, value, value_append lhs h.1, value_append rhs h.2.1]
  | .other k, h => O.value_append k vals vals' h
  | .boolLit _, _ | .intLit _, _ | .strLit _, _ | .constMethod _, _ | .variantCase _ _, _ => rfl

theorem prefix_localVals (rest : List (Local κ)) :
    ∀ vals, vals <+: localVals variants O locals rest vals := by
  induction rest with
  | nil => exact fun vals => prefix_refl vals
  | cons l rest ih => exact fun vals => (prefix_append ..).trans (ih _)

/-- Every local has the value of its initialiser, also when all locals are in place. -/
theorem getElem?_localVals (rest : List (Local κ)) : ∀ (vals : List Val) {i : Nat} {l : Local κ},
    (∀ j l, rest[j]? = some l → Emits variants O locals (vals.length + j) l.init) →
    rest[i]? = some l →
    (localVals variants O locals rest vals)[vals.length + i]? =
      some (value variants O locals (localVals variants O locals rest vals) l.init) := by
  induction rest with
  | nil =>
    intro vals i l _ hl
    cases hl
  | cons l' rest ih =>
    intro vals i l hemits hl
    cases i with
    | zero =>
      obtain rfl := Option.some.inj hl
      have hearlier : _ <+: localVals variants O locals rest _ :=
        prefix_localVals rest (vals ++ [value variants O locals vals l'.init])
      obtain ⟨later, hlater⟩ := hearlier
      rw [localVals, ← hlater, append_assoc, value_append _ (hemits 0 l' rfl)]
      simp
    | succ i =>
      have hlen : (vals ++ [value variants O locals vals l'.init]).length = vals.length + 1 :=
        length_append ..
      have hrest := ih (vals ++ [value variants O locals vals l'.init])
        (fun j l hj => by
          rw [hlen, Nat.add_assoc, Nat.add_comm 1]
          exact hemits (j + 1) l hj) hl
      rw [hlen, Nat.add_assoc, Nat.add_comm 1] at hrest
      exact hrest

/-- The code of the locals gives them these values. -/
theorem evals_emitLocals (rest : List (Local κ)) : ∀ {ids : List ValueId} {vals : List Val} {n : Nat}
    {env : ValueId → Val}, List.Forall₂ (Holds n env) ids vals →
    (∀ j l, rest[j]? = some l → Emits variants O locals (ids.length + j) l.init) →
    ∃ ids' n' env', Evals (eval c) (emitLocals variants O locals rest ids) n env ids' n' env' ∧
      List.Forall₂ (Holds n' env') ids' (localVals variants O locals rest vals) := by
  induction rest with
  | nil => exact fun {ids} {vals} {n} {env} h _ => ⟨ids, n, env, evals_pure ids, h⟩
  | cons l rest ih =>
    intro ids vals n env h hemits
    obtain ⟨id, n₁, env₁, he, hid⟩ := computes_emit l.init (hemits 0 l rfl) h
    obtain ⟨ids', n', env', he', hids'⟩ := ih
      (rel_append (Holds.forall₂_later h he.later) (.cons hid .nil))
      fun j l hj => by
        rw [length_append, length_singleton, Nat.add_assoc, Nat.add_comm 1]
        exact hemits (j + 1) l hj
    exact ⟨ids', n', env', he.bind he', hids'⟩

theorem length_localVals (rest : List (Local κ)) :
    ∀ vals, (localVals variants O locals rest vals).length = vals.length + rest.length := by
  induction rest with
  | nil => exact fun _ => rfl
  | cons l rest ih =>
    intro vals
    rw [localVals, ih, length_append, length_singleton, length_cons]
    omega

end locals

namespace Scope

variable {κ : Type} {c : HandlerCtx} {variants : List VariantDecl} {O : Others c κ}
  (S : Scope variants O)

/-- The values of the locals, with all of them in place. -/
def vals : List Val := localVals variants O S.locals S.locals []

/-- The code of an expression behind the code of the locals. -/
def lower (e : Expr κ) : Emit ValueId := do
  let ids ← emitLocals variants O S.locals S.locals []
  emit variants O S.locals ids e

theorem emits_zero_add (j : Nat) (l : Local κ) (hl : S.locals[j]? = some l) :
    Emits variants O S.locals (0 + j) l.init := by
  rw [Nat.zero_add]
  exact S.emits j l hl

theorem getElem?_vals {i : Nat} {l : Local κ} (hl : S.locals[i]? = some l) :
    S.vals[i]? = some (value variants O S.locals S.vals l.init) := by
  have h := getElem?_localVals S.locals [] S.emits_zero_add hl
  rw [length_nil, Nat.zero_add] at h
  exact h

theorem computes_lower {e : Expr κ} (he : Emits variants O S.locals S.locals.length e) (n : Nat)
    (env : ValueId → Val) :
    Computes (eval c) (S.lower e) n env (value variants O S.locals S.vals e) := by
  obtain ⟨ids, n₁, env₁, hlocals, hids⟩ := evals_emitLocals S.locals
    (.nil : List.Forall₂ (Holds n env) [] []) S.emits_zero_add
  have hlen : ids.length = S.locals.length := by
    rw [hids.length_eq, length_localVals, length_nil, Nat.zero_add]
  obtain ⟨id, n₂, env₂, hcode, hid⟩ := computes_emit e (hlen ▸ he) hids
  exact ⟨id, n₂, env₂, hlocals.bind hcode, hid⟩

end Scope

end Rut.Compiler.ConstEval
