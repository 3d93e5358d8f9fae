import Rut.Compiler.ConstEval
import Rut.Compiler.Ordering

/-!
# Folded and computed values

What `const_eval_expr` finds is compared with what the code of the same expression computes. The two
can part at one place only, a comparison of two variants. There the fold looks at declarations and
cases, the code at the payloads that the case on the left has, or at the cases if it has none.

    Reaches e s       : s is folded on the way to the value of e
    IsCase e d a p    : e is written as case a of declaration d, with the payload p
    Comparable l r    : the payloads of l and r are as equal as their cases are

All folds that an expression rests on are right if and only if its comparisons are `Comparable`.

The arm of a `match const` is a different matter: a wildcard counts only when no pattern matches,
wherever it stands, whereas the code of a `match` never gets past it (`WildcardLast`).
-/

namespace Rut.Compiler.ConstEval

open Rir Lib.Ssa Relation List Shape

/-! ## Agreement -/

section fold

variable {κ : Type} {locals : List (Local κ)}

/-- The expressions that the fold of an expression looks at. -/
def parts (locals : List (Local κ)) : Expr κ → List (Expr κ)
  | .localRef i => (locals[i]?.map Local.init).toList
  | .eq lhs rhs => [lhs, rhs]
  | .lt lhs rhs => [lhs, rhs]
  | .gt lhs rhs => [lhs, rhs]
  | _ => []

def Reaches (locals : List (Local κ)) : Expr κ → Expr κ → Prop :=
  ReflTransGen fun e s => s ∈ parts locals e

/-- The literal of a case that an expression is, or that the local it refers to is set to. -/
inductive IsCase (locals : List (Local κ)) : Expr κ → Nat → Nat → Option (Expr κ) → Prop where
  | bare (decl case : Nat) : IsCase locals (.variantCase decl case) decl case none
  | payload (decl case : Nat) (e : Expr κ) :
    IsCase locals (.variantPayload decl case e) decl case (some e)
  | ofLocal {i decl case : Nat} {l : Local κ} {p : Option (Expr κ)} (hl : locals[i]? = some l)
    (h : IsCase locals l.init decl case p) : IsCase locals (.localRef i) decl case p

variable {fuel : Nat} {lhs rhs : Expr κ} {v : ConstValue}

theorem constEval_eq_inv (h : constEval locals (fuel + 1) (.eq lhs rhs) = some v) :
    ∃ a b, constEval locals fuel lhs = some a ∧ constEval locals fuel rhs = some b ∧
      constEq a b = some v := by
  simp only [constEval] at h
  split at h
  next a b ha hb => exact ⟨a, b, ha, hb, h⟩
  next => cases h

theorem constEval_lt_inv (h : constEval locals (fuel + 1) (.lt lhs rhs) = some v) :
    ∃ a b, constEval locals fuel lhs = some a ∧ constEval locals fuel rhs = some b ∧
      constOrd true a b = some v := by
  simp only [constEval] at h
  split at h
  next a b ha hb => exact ⟨a, b, ha, hb, h⟩
  next => cases h

theorem constEval_gt_inv (h : constEval locals (fuel + 1) (.gt lhs rhs) = some v) :
    ∃ a b, constEval locals fuel lhs = some a ∧ constEval locals fuel rhs = some b ∧
      constOrd false a b = some v := by
  simp only [constEval] at h
  split at h
  next a b ha hb => exact ⟨a, b, ha, hb, h⟩
  next => cases h

theorem constEval_localRef_inv {i : Nat} (h : constEval locals (fuel + 1) (.localRef i) = some v) :
    ∃ l, locals[i]? = some l ∧ constEval locals fuel l.init = some v := by
  simp only [constEval] at h
  split at h
  next l hl => exact ⟨l, hl, h⟩
  next => cases h

theorem constEval_mono : ∀ {e : Expr κ} {fuel' : Nat} {v : ConstValue},
    fuel ≤ fuel' → constEval locals fuel e = some v → constEval locals fuel' e = some v := by
  induction fuel with
  | zero => exact fun _ h => nomatch h
  | succ fuel ih =>
    intro e fuel' v hle h
    obtain ⟨m, rfl⟩ : ∃ m, fuel' = m + 1 := ⟨fuel' - 1, by omega⟩
    have hm : fuel ≤ m := Nat.le_of_succ_le_succ hle
    cases e with
    | boolLit | intLit | strLit | constMethod | variantCase | variantPayload | other => exact h
    | localRef i =>
      obtain ⟨l, hl, h⟩ := constEval_localRef_inv h
      rw [constEval, hl]
      exact ih hm h
    | eq lhs rhs =>
      obtain ⟨a, b, ha, hb, h⟩ := constEval_eq_inv h
      rw [constEval, ih hm ha, ih hm hb]
      exact h
    | lt lhs rhs =>
      obtain ⟨a, b, ha, hb, h⟩ := constEval_lt_inv h
      rw [constEval, ih hm ha, ih hm hb]
      exact h
    | gt lhs rhs =>
      obtain ⟨a, b, ha, hb, h⟩ := constEval_gt_inv h
      rw [constEval, ih hm ha, ih hm hb]
      exact h

/-- An expression is folded through its parts. -/
theorem constEval_part {e s : Expr κ} (h : constEval locals (fuel + 1) e = some v)
    (hs : s ∈ parts locals e) : ∃ w, constEval locals fuel s = some w := by
  cases e with
  | boolLit | intLit | strLit | constMethod | variantCase | variantPayload | other => cases hs
  | localRef i =>
    obtain ⟨l, hl, h⟩ := constEval_localRef_inv h
    rw [parts, hl] at hs
    obtain rfl := mem_singleton.mp hs
    exact ⟨v, h⟩
  | eq lhs rhs | lt lhs rhs | gt lhs rhs =>
    obtain ⟨a, b, ha, hb, -⟩ := by
      first | exact constEval_eq_inv h | exact constEval_lt_inv h | exact constEval_gt_inv h
    rcases mem_cons.mp hs with rfl | hs
    · exact ⟨a, ha⟩
    · obtain rfl := mem_singleton.mp hs
      exact ⟨b, hb⟩

theorem constEval_reaches {e s : Expr κ} (h : constEval locals fuel e = some v)
    (hs : Reaches locals e s) : ∃ fuel' w, fuel' ≤ fuel ∧ constEval locals fuel' s = some w := by
  induction hs with
  | refl => exact ⟨fuel, v, Nat.le_refl _, h⟩
  | tail _ hpart ih =>
    obtain ⟨fuel', w, hle, hw⟩ := ih
    cases fuel' with
    | zero => cases hw
    | succ m =>
      obtain ⟨w', hw'⟩ := constEval_part hw hpart
      exact ⟨m, w', by omega, hw'⟩

/-- What is written as a case is folded to it. -/
theorem IsCase.constEval_eq {e : Expr κ} {decl case : Nat} {p : Option (Expr κ)}
    (hcase : IsCase locals e decl case p) :
    ∀ {fuel : Nat} {v : ConstValue}, constEval locals fuel e = some v → v = .variant decl case := by
  induction hcase with
  | bare | payload =>
    intro fuel v h
    cases fuel with
    | zero => cases h
    | succ fuel => exact (Option.some.inj h).symm
  | ofLocal hl _ ih =>
    intro fuel v h
    cases fuel with
    | zero => cases h
    | succ fuel =>
      obtain ⟨l', hl', h⟩ := constEval_localRef_inv h
      obtain rfl := Option.some.inj (hl.symm.trans hl')
      exact ih h

theorem constEq_isBool {a b w : ConstValue} (h : constEq a b = some w) : ∃ p, w = .bool p := by
  cases a <;> cases b <;> first | cases h; exact ⟨_, rfl⟩ | cases h

theorem constOrd_isBool {lt : Bool} {a b w : ConstValue} (h : constOrd lt a b = some w) :
    ∃ p, w = .bool p := by
  cases a <;> cases b <;> first | cases h; exact ⟨_, rfl⟩ | cases h

/-- And nothing else is folded to a case. -/
theorem exists_isCase {fuel decl case : Nat} : ∀ {e : Expr κ},
    constEval locals fuel e = some (.variant decl case) → ∃ p, IsCase locals e decl case p := by
  induction fuel with
  | zero => exact fun h => nomatch h
  | succ fuel ih =>
    intro e h
    cases e with
    | boolLit | intLit | strLit | constMethod | other => cases h
    | variantCase => cases h; exact ⟨none, .bare ..⟩
    | variantPayload _ _ e => cases h; exact ⟨some e, .payload ..⟩
    | localRef i =>
      obtain ⟨l, hl, h⟩ := constEval_localRef_inv h
      exact (ih h).imp fun _ hcase => .ofLocal hl hcase
    | eq lhs rhs =>
      obtain ⟨a, b, -, -, h⟩ := constEval_eq_inv h
      obtain ⟨p, hp⟩ := constEq_isBool h
      cases hp
    | lt lhs rhs =>
      obtain ⟨a, b, -, -, h⟩ := constEval_lt_inv h
      obtain ⟨p, hp⟩ := constOrd_isBool h
      cases hp
    | gt lhs rhs =>
      obtain ⟨a, b, -, -, h⟩ := constEval_gt_inv h
      obtain ⟨p, hp⟩ := constOrd_isBool h
      cases hp

end fold

section agreement

variable {κ : Type} {c : HandlerCtx} (variants : List VariantDecl) (O : Others c κ)

/-- A computed value is the folded one, as far as the fold knows it. -/
def Agrees : ConstValue → Val → Prop
  | .bool b, v => v = .bool b
  | .int n, v => v = .i32 n
  | .str s, v => v = .str s
  | .method m, v => v = .method m
  | .variant decl case, v => ∃ p, v = caseVal (nils (casesOf variants decl)) case p

def constShape : ConstValue → Shape
  | .bool _ => .bool
  | .int _ => .i32
  | .str _ => .str
  | .method _ => .method
  | .variant decl _ => variantShape variants decl

/-- What the code finds in the field for payloads of kind `k`: the payload of the case, if it is of this
kind, or what a nil leaves there. -/
def payloadIn (S : Scope variants O) (k : Shape.Carrier) (decl case : Nat) (p : Option (Expr κ)) :
    Val :=
  match p, (casesOf variants decl)[case]?.join with
  | some e, some s =>
    if s.carrier = k then value variants O S.locals S.vals e
    else (nils (casesOf variants decl) k).unwrap
  | _, _ => (nils (casesOf variants decl) k).unwrap

/-- For `l` and `r` that are written as cases: where the case of `l` has no payload, equal numbers are
cases of one declaration; where it has one, this payload and what `r` has in its field are equal if
and only if declarations and cases are. -/
def Comparable (S : Scope variants O) (l r : Expr κ) : Prop :=
  ∀ d a p e b q, IsCase S.locals l d a p → IsCase S.locals r e b q →
    match (casesOf variants d)[a]?.join with
    | none => a = b → d = e
    | some s => s.eqVal (payloadIn variants O S s.carrier d a p) (payloadIn variants O S s.carrier e b q) =
        .bool (decide (d = e ∧ a = b))

variable {variants O}

/-- The field of a value that is written as a case. -/
theorem IsCase.field_value {S : Scope variants O} {e : Expr κ} {d a : Nat} {p : Option (Expr κ)}
    (h : IsCase S.locals e d a p) (k : Shape.Carrier) :
    ((value variants O S.locals S.vals e).field k.fieldName).unwrap = payloadIn variants O S k d a p := by
  induction h with
  | bare d a =>
    rw [value, field_nil (by simp)]
    rfl
  | payload d a e =>
    rw [value]
    unfold payloadIn
    cases hs : (casesOf variants d)[a]?.join with
    | none => rw [Option.map_none, field_nil (by simp)]
    | some s =>
      rw [Option.map_some]
      dsimp only
      split
      · next hk => rw [← hk, field_payload]; rfl
      · next hk => rw [field_nil (by simp [hk])]
  | ofLocal hl _ ih =>
    rw [value, S.getElem?_vals hl]
    exact ih

variable {a b w : ConstValue} {x y : Val}

/-- The type on which the code of a comparison depends is the type of the folded value. -/
theorem shapeOf_constEval (S : Scope variants O) {fuel : Nat} :
    ∀ {e : Expr κ} {v : ConstValue}, constEval S.locals fuel e = some v →
      shapeOf variants O S.locals e = constShape variants v := by
  induction fuel with
  | zero => exact fun h => nomatch h
  | succ fuel ih =>
    intro e v h
    cases e with
    | boolLit | intLit | strLit | constMethod | variantCase | variantPayload =>
      obtain rfl := Option.some.inj h
      rfl
    | other => cases h
    | localRef i =>
      obtain ⟨l, hl, h⟩ := constEval_localRef_inv h
      rw [shapeOf, hl, ← ih h]
      exact S.typed l (mem_of_getElem? hl)
    | eq lhs rhs =>
      obtain ⟨a, b, -, -, h⟩ := constEval_eq_inv h
      obtain ⟨p, rfl⟩ := constEq_isBool h
      rfl
    | lt lhs rhs =>
      obtain ⟨a, b, -, -, h⟩ := constEval_lt_inv h
      obtain ⟨p, rfl⟩ := constOrd_isBool h
      rfl
    | gt lhs rhs =>
      obtain ⟨a, b, -, -, h⟩ := constEval_gt_inv h
      obtain ⟨p, rfl⟩ := constOrd_isBool h
      rfl

/-- What the code computes for two variants, which may be of different declarations. -/
theorem eqVal_variants (d a e b : Nat) (p q : Option (Shape.Carrier × Val)) :
    (variantShape variants d).eqVal (caseVal (nils (casesOf variants d)) a p)
      (caseVal (nils (casesOf variants e)) b q) =
    eqPayload (casesOf variants d)[a]?.join
      (caseVal (nils (casesOf variants d)) a p)
      (caseVal (nils (casesOf variants e)) b q) (.bool (decide (a = b))) := by
  rw [variantShape, eqVal, field_tag, field_tag, cmpEq_i32]
  apply eqCases_tag
  rw [Nat.zero_add, field_tag]

/-- Comparisons of anything but variants agree with their folds. -/
theorem agrees_eq (hx : Agrees variants a x) (hy : Agrees variants b y) (hw : constEq a b = some w)
    (hvar : ∀ d k, a ≠ .variant d k) : Agrees variants w ((constShape variants a).eqVal x y) := by
  cases a with
  | variant d k => exact absurd rfl (hvar d k)
  | bool | int | str | method =>
    obtain rfl := hx
    cases b with
    | variant => cases hw
    | bool | int | str | method =>
      obtain rfl := hy
      first
      | exact Option.some.inj hw ▸ rfl
      | cases hw

theorem agrees_ord {lt : Bool} (hx : Agrees variants a x) (hy : Agrees variants b y)
    (hw : constOrd lt a b = some w) :
    Agrees variants w ((constShape variants a).ordVal lt x y) := by
  cases a with
  | bool | str | method | variant => cases hw
  | int m =>
    cases b with
    | bool | str | method | variant => cases hw
    | int n =>
      obtain rfl := hx
      obtain rfl := hy
      obtain rfl := Option.some.inj hw
      rw [constShape, ordVal, cmpOrd_i32]
      cases lt <;> rfl

/-- Comparisons of variants agree with their folds just where they are comparable. -/
theorem agrees_variants_iff {d a e b : Nat} (hx : Agrees variants (.variant d a) x)
    (hy : Agrees variants (.variant e b) y) :
    Agrees variants (.bool (d == e && a == b)) ((variantShape variants d).eqVal x y) ↔
      match (casesOf variants d)[a]?.join with
      | none => a = b → d = e
      | some s => s.eqVal (x.field s.carrier.fieldName).unwrap (y.field s.carrier.fieldName).unwrap =
          .bool (decide (d = e ∧ a = b)) := by
  obtain ⟨p, rfl⟩ := hx
  obtain ⟨q, rfl⟩ := hy
  have hbool : (d == e && a == b) = decide (d = e ∧ a = b) := by
    rw [Bool.eq_iff_iff]
    simp
  rw [eqVal_variants, hbool]
  cases (casesOf variants d)[a]?.join with
  | some s => exact Iff.rfl
  | none =>
    show Val.bool (decide (a = b)) = .bool _ ↔ _
    rw [Val.bool.injEq, decide_eq_decide]
    exact ⟨fun h hab => (h.mp hab).1, fun h => ⟨fun hab => ⟨h hab, hab⟩, And.right⟩⟩

/-- The same for what is written as cases. -/
theorem agrees_cases_iff {S : Scope variants O} {l r : Expr κ} {d a e b : Nat} {p q : Option (Expr κ)}
    (hl : IsCase S.locals l d a p) (hr : IsCase S.locals r e b q)
    (hx : Agrees variants (.variant d a) (value variants O S.locals S.vals l))
    (hy : Agrees variants (.variant e b) (value variants O S.locals S.vals r)) :
    Agrees variants (.bool (d == e && a == b)) ((variantShape variants d).eqVal
        (value variants O S.locals S.vals l) (value variants O S.locals S.vals r)) ↔
      match (casesOf variants d)[a]?.join with
      | none => a = b → d = e
      | some s => s.eqVal (payloadIn variants O S s.carrier d a p)
          (payloadIn variants O S s.carrier e b q) = .bool (decide (d = e ∧ a = b)) := by
  rw [agrees_variants_iff hx hy]
  simp only [hl.field_value, hr.field_value]

end agreement

/-! ## All folds of an expression -/

section sound

variable {κ : Type} {c : HandlerCtx} {variants : List VariantDecl} {O : Others c κ}
  (S : Scope variants O)

theorem emits_reaches {e s : Expr κ} (he : Emits variants O S.locals S.locals.length e)
    (hs : Reaches S.locals e s) : Emits variants O S.locals S.locals.length s := by
  induction hs with
  | refl => exact he
  | @tail m s _ hpart ih =>
    cases m with
    | boolLit | intLit | strLit | constMethod | variantCase | variantPayload | other => cases hpart
    | localRef i =>
      simp only [parts] at hpart
      cases hl : S.locals[i]? with
      | none => rw [hl] at hpart; cases hpart
      | some l =>
        rw [hl] at hpart
        obtain rfl := mem_singleton.mp hpart
        exact (S.emits i l hl).mono (Nat.le_of_lt (List.getElem?_eq_some_iff.mp hl).1)
    | eq lhs rhs | lt lhs rhs | gt lhs rhs =>
      rcases mem_cons.mp hpart with rfl | hpart
      · exact ih.1
      · obtain rfl := mem_singleton.mp hpart
        exact ih.2.1

/-- By induction on the fuel, along the fold. -/
theorem agrees_constEval {fuel : Nat} :
    ∀ {e : Expr κ} {v : ConstValue}, constEval S.locals fuel e = some v →
      (∀ l r, Reaches S.locals e (.eq l r) → Comparable variants O S l r) →
      Agrees variants v (value variants O S.locals S.vals e) := by
  induction fuel with
  | zero => exact fun h _ => nomatch h
  | succ fuel ih =>
    intro e v h hcmp
    have hpart : ∀ {s w}, s ∈ parts S.locals e → constEval S.locals fuel s = some w →
        Agrees variants w (value variants O S.locals S.vals s) := fun hs hw =>
      ih hw fun l r hr => hcmp l r (.head hs hr)
    cases e with
    | boolLit | intLit | strLit | constMethod =>
      obtain rfl := Option.some.inj h
      rfl
    | variantCase | variantPayload =>
      obtain rfl := Option.some.inj h
      exact ⟨_, rfl⟩
    | other => cases h
    | localRef i =>
      obtain ⟨l, hl, h⟩ := constEval_localRef_inv h
      rw [value, S.getElem?_vals hl]
      exact hpart (by rw [parts, hl]; exact mem_singleton_self _) h
    | eq lhs rhs =>
      obtain ⟨a, b, ha, hb, hw⟩ := constEval_eq_inv h
      have hx := hpart mem_cons_self ha
      have hy := hpart (mem_cons_of_mem _ mem_cons_self) hb
      rw [value, shapeOf_constEval S ha]
      by_cases hvar : ∃ d k, a = .variant d k
      · obtain ⟨d, k, rfl⟩ := hvar
        cases b with
        | bool | int | str | method => cases hw
        | variant e k' =>
          obtain rfl := Option.some.inj hw
          obtain ⟨p, hl⟩ := exists_isCase ha
          obtain ⟨q, hr⟩ := exists_isCase hb
          exact (agrees_cases_iff hl hr hx hy).mpr (hcmp lhs rhs .refl d k p e k' q hl hr)
      · exact agrees_eq hx hy hw fun d k h => hvar ⟨d, k, h⟩
    | lt lhs rhs =>
      obtain ⟨a, b, ha, hb, hw⟩ := constEval_lt_inv h
      have hx := hpart mem_cons_self ha
      have hy := hpart (mem_cons_of_mem _ mem_cons_self) hb
      rw [value, shapeOf_constEval S ha]
      exact agrees_ord hx hy hw
    | gt lhs rhs =>
      obtain ⟨a, b, ha, hb, hw⟩ := constEval_gt_inv h
      have hx := hpart mem_cons_self ha
      have hy := hpart (mem_cons_of_mem _ mem_cons_self) hb
      rw [value, shapeOf_constEval S ha]
      exact agrees_ord hx hy hw

/-- Every fold that an expression rests on agrees with the code just where its comparisons are
comparable. -/
theorem agrees_iff_comparable {e : Expr κ} {cv : ConstValue} (hcv : constEvalExpr S.locals e = some cv) :
    (∀ s, Reaches S.locals e s → ∀ w, constEvalExpr S.locals s = some w →
      Agrees variants w (value variants O S.locals S.vals s)) ↔
      ∀ l r, Reaches S.locals e (.eq l r) → Comparable variants O S l r := by
  constructor
  · intro h l r hr d a p d' b q hl hr'
    obtain ⟨fuel, w, hfuel, hw⟩ := constEval_reaches hcv hr
    cases fuel with
    | zero => cases hw
    | succ m =>
      obtain ⟨u, v, hu, hv, huv⟩ := constEval_eq_inv hw
      obtain rfl := hl.constEval_eq hu
      obtain rfl := hr'.constEval_eq hv
      obtain rfl := Option.some.inj huv
      have hm : m ≤ S.locals.length + kMaxLocals + 1 := Nat.le_of_succ_le hfuel
      have hx := h l (hr.tail mem_cons_self) _ (constEval_mono hm hu)
      have hy := h r (hr.tail (mem_cons_of_mem _ mem_cons_self)) _ (constEval_mono hm hv)
      have heq := h _ hr _ (constEval_mono hfuel hw)
      rw [value, shapeOf_constEval S hu] at heq
      exact (agrees_cases_iff hl hr' hx hy).mp heq
  · intro h s hs w hw
    exact agrees_constEval S hw fun l r hr => h l r (hs.trans hr)

end sound

/-! ## Arms -/

section arms

variable {variants : List VariantDecl} {subject : ConstValue} {v : Val}

/-- The pattern is of the type of the subject. -/
def Pattern.Fits : Pattern → ConstValue → Prop
  | .bool _, .bool _ => True
  | .int _, .int _ => True
  | .str _, .str _ => True
  | .case decl _, .variant decl' _ => decl = decl'
  | _, _ => False

theorem test_eq_folds (hv : Agrees variants subject v) {p : Pattern} (hp : p.Fits subject) :
    p.test v = .bool (p.folds subject) := by
  cases p with
  | bool b | int b | str b =>
    cases subject <;> first | exact hp.elim | skip
    obtain rfl := hv
    exact congrArg Val.bool Bool.beq_comm
  | case decl k =>
    cases subject with
    | bool | int | str | method => exact hp.elim
    | variant decl' k' =>
      obtain rfl : decl = decl' := hp
      obtain ⟨q, rfl⟩ := hv
      rw [Pattern.test, field_tag, cmpEq_i32, Val.bool.injEq, Bool.eq_iff_iff]
      simp only [Pattern.folds, beq_self_eq_true, Bool.true_and, decide_eq_true_iff, beq_iff_eq]
      exact eq_comm

/-- A wildcard that comes before every pattern of the subject is the only one, and none of these
patterns follows. -/
def WildcardLast (subject : ConstValue) : List (Option Pattern) → Prop
  | [] => True
  | none :: arms => ∀ p ∈ arms, ∃ q, p = some q ∧ q.folds subject = false
  | some p :: arms => p.folds subject = true ∨ WildcardLast subject arms

/-- The loop ends at the wildcard it comes with, or further on. -/
theorem selectArm_le {j : Nat} : (arms : List (Option Pattern)) → {i : Nat} → {w : Option Nat} →
    selectArm subject arms i w = some j → w = some j ∨ i ≤ j
  | [], _, _, h => .inl h
  | none :: arms, i, _, h => by
    rcases selectArm_le arms h with hj | hj
    · exact .inr (Nat.le_of_eq (Option.some.inj hj))
    · exact .inr (Nat.le_of_succ_le hj)
  | some p :: arms, i, _, h => by
    rw [selectArm] at h
    split at h
    · exact .inr (Nat.le_of_eq (Option.some.inj h))
    · exact (selectArm_le arms h).imp_right Nat.le_of_succ_le

/-- It ends at the wildcard it comes with if nothing else is for the subject. -/
theorem selectArm_wildcard_iff {k : Nat} : (arms : List (Option Pattern)) → {i : Nat} → k < i →
    (selectArm subject arms i (some k) = some k ↔ ∀ p ∈ arms, ∃ q, p = some q ∧ q.folds subject = false)
  | [], _, _ => by simp [selectArm]
  | none :: arms, i, hk => by
    refine iff_of_false (fun h => ?_) fun h => ?_
    · rcases selectArm_le arms h with hj | hj
      · exact absurd (Option.some.inj hj) (Nat.ne_of_gt hk)
      · omega
    · obtain ⟨q, hq, -⟩ := h none mem_cons_self
      cases hq
  | some p :: arms, i, hk => by
    rw [selectArm, forall_mem_cons]
    cases hp : p.folds subject with
    | true => simpa [hp] using Nat.ne_of_gt hk
    | false =>
      rw [if_neg Bool.false_ne_true, selectArm_wildcard_iff arms (Nat.lt_succ_of_lt hk)]
      simp [hp]

/-- The arm that is selected is the one that is run into, unless a wildcard comes first. -/
theorem runArm_iff (hv : Agrees variants subject v) {j : Nat} : (arms : List (Option Pattern)) →
    (i : Nat) → (∀ p, some p ∈ arms → p.Fits subject) → selectArm subject arms i none = some j →
    (runArm v arms i = some j ↔ WildcardLast subject arms)
  | [], _, _, h => nomatch h
  | none :: arms, i, _, h => by
    rw [runArm, WildcardLast, ← selectArm_wildcard_iff arms (Nat.lt_succ_self i), ← h]
    exact eq_comm
  | some p :: arms, i, hfits, h => by
    rw [selectArm] at h
    rw [runArm, test_eq_folds hv (hfits p mem_cons_self), WildcardLast]
    cases hp : p.folds subject with
    | true =>
      rw [if_pos hp] at h
      obtain rfl := Option.some.inj h
      simp
    | false =>
      rw [if_neg (by rw [hp]; exact Bool.false_ne_true)] at h
      have hne : arms.isEmpty = false := by
        cases arms with
        | nil => cases h
        | cons => rfl
      rw [hne, if_neg Bool.false_ne_true, or_iff_right Bool.false_ne_true]
      exact runArm_iff hv arms (i + 1) (fun q hq => hfits q (mem_cons_of_mem _ hq)) h

end arms

/-! ## Folding in a route or a function -/

section result

variable {κ : Type} {c : HandlerCtx} {variants : List VariantDecl} {O : Others c κ}

/-- No expressions but the folded ones. -/
def noOthers (c : HandlerCtx) : Others c Empty where
  shape := nofun
  code := nofun
  value := nofun
  bound := nofun
  computes := nofun
  value_append := nofun

/-- A variant with the cases `none` and `some(i32)`. -/
def opt : VariantDecl := ⟨"Opt", [none, some .i32]⟩

def optNone : Expr Empty := .variantCase 0 0
def optSome (n : Int) : Expr Empty := .variantPayload 0 1 (.intLit n)

/-- `let x = Opt.none`, `let y = x` -/
def optLocals : List (Local Empty) :=
  [⟨variantShape [opt] 0, optNone⟩, ⟨variantShape [opt] 0, .localRef 0⟩]

theorem emits_optLocals : ∀ i l, optLocals[i]? = some l →
    Emits [opt] (noOthers default) optLocals i l.init := by
  intro i l hl
  rcases i with _ | _ | i
  · cases hl
    trivial
  · cases hl
    exact Nat.zero_lt_one
  · cases hl

theorem typed_optLocals : ∀ l ∈ optLocals, l.shape = shapeOf [opt] (noOthers default) optLocals l.init := by
  simp [optLocals, shapeOf, optNone]

def optScope : Scope [opt] (noOthers default) where
  locals := optLocals
  typed := typed_optLocals
  emits := emits_optLocals

/-- `y == Opt.some(1)` -/
def noneSome : Expr Empty := .eq (.localRef 1) (optSome 1)

theorem eq_of_reaches_noneSome {l r : Expr Empty} (h : Reaches optLocals noneSome (.eq l r)) :
    l = .localRef 1 ∧ r = optSome 1 := by
  have hreached : ∀ {s}, Reaches optLocals noneSome s →
      s ∈ [noneSome, .localRef 1, .localRef 0, optNone, optSome 1] := by
    intro s hs
    induction hs with
    | refl => exact mem_cons_self
    | tail _ hpart ih =>
      simp only [mem_cons, not_mem_nil, or_false] at ih
      rcases ih with rfl | rfl | rfl | rfl | rfl <;>
        simp [parts, noneSome, optLocals, optNone, optSome] at hpart ⊢ <;> tauto
  simpa [noneSome, optNone, optSome] using hreached h

end result

end Rut.Compiler.ConstEval
