import Rut.Compiler.Equality

/-!
# The order of lowered values

The code for `a < b` and `a > b` is to be the lexicographic order of a type: slots and fields from
the left, the number of a case before its payload. Slots are folded from the last one on, so that an
earlier difference overrides a later one; that a slot does not differ is `==` of its type.

As with `==`, a payload on the left decides alone. Equal payloads of two cases, or a payload and what
a nil leaves in its field, are then neither smaller nor greater, though the cases are different.
-/

namespace Rut.Compiler

open Rir Lib.Ssa

namespace Shape

/-- The relation that `lt` stands for: before, or else after. -/
def Before {α : Type} [LT α] (lt : Bool) (a b : α) : Prop := if lt then a < b else b < a

section Before

variable {α β : Type} [LinearOrder α] [LinearOrder β] {lt : Bool} {a b : α}

instance : Decidable (Before lt a b) := inferInstanceAs (Decidable (if lt then a < b else b < a))

theorem not_before_self (lt : Bool) (a : α) : ¬ Before lt a a := by
  cases lt <;> exact lt_irrefl a

theorem exists_before (h : a ≠ b) : ∃ lt, Before lt a b :=
  (lt_or_gt_of_ne h).elim (fun h => ⟨true, h⟩) fun h => ⟨false, h⟩

theorem before_iff_of_strictMono {f : α → β} (hf : StrictMono f) :
    Before lt (f a) (f b) ↔ Before lt a b := by
  cases lt <;> exact hf.lt_iff_lt

end Before

/-- The first difference decides. -/
theorem before_els {s : Shape} {ss : List Shape} {lt : Bool} {a b : Els (s :: ss)} :
    Before lt a b ↔ Before lt a.head b.head ∨ a.head = b.head ∧ Before lt a.tail b.tail := by
  cases lt with
  | true => exact els_lt
  | false => exact els_lt.trans (or_congr_right (and_congr_left' eq_comm))

/-! ## Integers and strings -/

theorem cmpOrd_i32 (lt : Bool) (a b : Int) :
    (Val.i32 a).cmpOrd (sign lt) (.i32 b) = .bool (decide (Before lt a b)) := by
  apply congrArg Val.bool
  cases lt with
  | true => exact decide_eq_decide.mpr ⟨Int.lt_of_sub_neg, Int.sub_neg_of_lt⟩
  | false => exact decide_eq_decide.mpr ⟨Int.lt_of_sub_pos, Int.sub_pos_of_lt⟩

theorem strCmp_neg : (a b : Str) → (strCmp a b < 0 ↔ a < b)
  | [], [] => by simp [strCmp]
  | [], _ :: _ => by simp [strCmp]
  | _ :: _, [] => by simp [strCmp]
  | x :: a, y :: b => by
    have ih := strCmp_neg a b
    rw [strCmp, List.cons_lt_cons_iff]
    rcases lt_trichotomy x y with h | rfl | h
    · simp [h]
    · simpa using ih
    · simp [h, lt_asymm h, h.ne']

theorem strCmp_pos : (a b : Str) → (0 < strCmp a b ↔ b < a)
  | [], [] => by simp [strCmp]
  | [], _ :: _ => by simp [strCmp]
  | _ :: _, [] => by simp [strCmp]
  | x :: a, y :: b => by
    have ih := strCmp_pos a b
    rw [strCmp, List.cons_lt_cons_iff]
    rcases lt_trichotomy x y with h | rfl | h
    · simp [h, lt_asymm h, h.ne']
    · simpa using ih
    · simp [h, lt_asymm h]

/-- Strings are compared byte by byte. -/
theorem cmpOrd_str (lt : Bool) (a b : Str) :
    (Val.str a).cmpOrd (sign lt) (.str b) = .bool (decide (Before lt a b)) := by
  apply congrArg Val.bool
  cases lt with
  | true => exact decide_eq_decide.mpr (strCmp_neg a b)
  | false => exact decide_eq_decide.mpr (strCmp_pos a b)

theorem cmpOrd_tag (lt : Bool) (a b : Nat) :
    (Val.i32 a).cmpOrd (sign lt) (.i32 b) = .bool (decide (Before lt a b)) := by
  rw [cmpOrd_i32]
  cases lt <;> exact congrArg Val.bool (decide_eq_decide.mpr Int.ofNat_lt)

/-! ## Tuples and structs -/

def ordEls (lt : Bool) : (ss : List Shape) → Els ss → Els ss → Val
  | [], _, _ => .bool false
  | s :: ss, a, b =>
    (s.eqVal (s.encode a.head) (s.encode b.head)).select (ordEls lt ss a.tail b.tail)
      (s.ordVal lt (s.encode a.head) (s.encode b.head))

theorem ordSlots_eq {lt : Bool} {x y : Val} : {ss : List Shape} → {names : List String} →
    (a b : Els ss) →
    List.Forall₂ (fun name v => x.field name = v) names (encodes ss a) →
    List.Forall₂ (fun name v => y.field name = v) names (encodes ss b) →
    ordSlots lt ss names x y (.bool false) = ordEls lt ss a b
  | [], [], _, _, _, _ => rfl
  | s :: ss, name :: names, a, b, ha, hb => by
    obtain ⟨ha, has⟩ := List.forall₂_cons.mp ha
    obtain ⟨hb, hbs⟩ := List.forall₂_cons.mp hb
    rw [ordSlots, ha, hb, ordSlots_eq a.tail b.tail has hbs]
    rfl

theorem ordSlots_zip {lt : Bool} {names : List String} {ss : List Shape} (hn : names.Nodup)
    (hlen : names.length = ss.length) (a b : Els ss) :
    ordSlots lt ss names (.struct (names.zip (encodes ss a))) (.struct (names.zip (encodes ss b)))
      (.bool false) = ordEls lt ss a b :=
  ordSlots_eq a b (field_zip hn (by rw [hlen, length_encodes]))
    (field_zip hn (by rw [hlen, length_encodes]))

theorem ordEls_self (lt : Bool) : (ss : List Shape) → AcceptedAll ss → (x : Els ss) →
    ordEls lt ss x x = .bool false := by
  intro ss hs x
  induction ss with
  | nil => rfl
  | cons s ss ih =>
    rw [ordEls, eqVal_self s hs.1 x.head]
    exact ih hs.2 x.tail

/-! ## Variants -/

def ordPayload (lt : Bool) (c : Option Shape) (x y acc : Val) : Val :=
  match c with
  | none => acc
  | some s =>
    s.ordVal lt (x.field s.carrier.fieldName).unwrap (y.field s.carrier.fieldName).unwrap

theorem ordPayload_some {lt : Bool} {a : Val} {s : Shape} {nils : Carrier → Val} {tag : Nat}
    (y acc : Val) :
    ordPayload lt (some s) (caseVal nils tag (some (s.carrier, a))) y acc =
      ordVal lt s a (y.field s.carrier.fieldName).unwrap := by
  rw [ordPayload, field_payload]
  rfl

theorem ordCases_of_lt {lt : Bool} {x y acc : Val} {tag : Nat} (hx : x.field "tag" = .i32 tag) :
    (cs : List (Option Shape)) → {i : Nat} → tag < i → ordCases lt cs i x y acc = acc
  | [], _, _ => rfl
  | none :: cs, _, h => ordCases_of_lt hx cs (Nat.lt_succ_of_lt h)
  | some _ :: cs, i, h => by
    rw [ordCases, hx, cmpEq_i32, decide_eq_false (Nat.ne_of_lt h)]
    exact ordCases_of_lt hx cs (Nat.lt_succ_of_lt h)

/-- Only the case on the left counts. -/
theorem ordCases_at {lt : Bool} {x y acc : Val} : {cs : List (Option Shape)} → (a : Cases cs) →
    {i : Nat} → x.field "tag" = .i32 ((i + a.tag : Nat) : Int) →
    ordCases lt cs i x y acc = ordPayload lt a.shape x y acc
  | [], a, _, _ => Empty.elim a
  | none :: cs, .inl _, i, hx => ordCases_of_lt hx cs (Nat.lt_succ_self i)
  | some s :: cs, .inl _, i, hx => by
    rw [ordCases, hx, cmpEq_i32]
    show Val.select (.bool (decide (i = i))) _ _ = _
    rw [decide_eq_true rfl]
    rfl
  | none :: cs, .inr a, i, hx => by
    rw [ordCases]
    refine @ordCases_at lt x y acc cs a (i + 1) ?_
    rw [hx, Nat.add_assoc, Nat.add_comm 1]
    rfl
  | some s :: cs, .inr a, i, hx => by
    have htag : x.field "tag" = .i32 ((i + 1 + @Cases.tag cs a : Nat) : Int) := by
      rw [hx, Nat.add_assoc, Nat.add_comm 1]
      rfl
    rw [ordCases, htag, cmpEq_i32, decide_eq_false (by omega)]
    exact @ordCases_at lt x y acc cs a (i + 1) htag

/-- The case on the left decides which payloads are compared. -/
theorem ordVal_variant (lt : Bool) (name : String) (cs : List (Option Shape)) (a b : Cases cs) :
    ordVal lt (.variant name cs) (encode (.variant name cs) a) (encode (.variant name cs) b) =
      ordPayload lt a.shape (caseVal (nils cs) a.tag a.payload)
        (caseVal (nils cs) b.tag b.payload) (.bool (decide (Before lt a.tag b.tag))) := by
  rw [encode_variant, encode_variant, ordVal, field_tag, field_tag, cmpOrd_tag]
  apply ordCases_at
  rw [Nat.zero_add, field_tag]

mutual

/-- Comparing with an undefined value never comes out true. -/
theorem ordVal_undefined_ne (lt : Bool) : (s : Shape) → (x : Val) → ordVal lt s x .undefined ≠ .bool true
  | .unknown, _ => nofun
  | .bool, _ => nofun
  | .i32, x => by cases x <;> exact nofun
  | .str, x => by cases x <;> exact nofun
  | .method, _ => nofun
  | .byteSize, _ => nofun
  | .ip, _ => nofun
  | .tuple elems, x => ordSlots_undefined_ne lt elems _ x
  | .struct _ names elems, x => ordSlots_undefined_ne lt elems names x
  | .variant _ cases, x => ordCases_undefined_ne lt cases 0 x (by cases x.field "tag" <;> exact nofun)

theorem ordSlots_undefined_ne (lt : Bool) : (ss : List Shape) → (names : List String) → (x : Val) →
    ordSlots lt ss names x .undefined (.bool false) ≠ .bool true
  | [], [], _ => nofun
  | [], _ :: _, _ => nofun
  | _ :: _, [], _ => nofun
  | s :: ss, name :: names, x =>
    select_ne (ordSlots_undefined_ne lt ss names x) (ordVal_undefined_ne lt s (x.field name)) nofun

theorem ordCases_undefined_ne (lt : Bool) : (cs : List (Option Shape)) → (i : Nat) → (x : Val) →
    {acc : Val} → acc ≠ .bool true → ordCases lt cs i x .undefined acc ≠ .bool true
  | [], _, _, _, h => h
  | none :: cs, i, x, _, h => ordCases_undefined_ne lt cs (i + 1) x h
  | some s :: cs, i, x, _, h =>
    select_ne (ordVal_undefined_ne lt s _) (ordCases_undefined_ne lt cs (i + 1) x h) nofun

end

/-! ## A value and itself -/

theorem bool_before_self {α : Type} [LinearOrder α] (lt : Bool) (a : α) :
    Val.bool (decide (Before lt a a)) = .bool false :=
  congrArg Val.bool (decide_eq_false (not_before_self lt a))

mutual

/-- No value is before itself. -/
theorem ordVal_self (lt : Bool) : (s : Shape) → s.Accepted → s.Orderable → (x : s.El) →
    ordVal lt s (s.encode x) (s.encode x) = .bool false
  | .i32, _, _, x => (cmpOrd_i32 lt x x).trans (@bool_before_self Int _ lt x)
  | .str, _, _, x => (cmpOrd_str lt x x).trans (@bool_before_self Str _ lt x)
  | .tuple elems, hs, _, x =>
    (ordSlots_zip (tupleFieldNames_nodup hs.1) (length_tupleFieldNames _) x x).trans
      (ordEls_self lt elems hs.2 x)
  | .struct _ _ elems, hs, _, x =>
    (ordSlots_zip hs.1 hs.2.1 x x).trans (ordEls_self lt elems hs.2.2 x)
  | .variant name cases, hs, ho, x => by
    rw [ordVal_variant lt name cases x x, bool_before_self]
    exact ordPayload_self lt cases hs.2.2 ho (nils cases) x.tag x

theorem ordPayload_self (lt : Bool) : (cs : List (Option Shape)) → AcceptedCases cs →
    OrderableCases cs → (nils : Carrier → Val) → (tag : Nat) → (x : Cases cs) →
    ordPayload lt x.shape (caseVal nils tag x.payload) (caseVal nils tag x.payload) (.bool false) =
      .bool false
  | [], _, _, _, _, x => Empty.elim x
  | none :: _, _, _, _, _, .inl _ => rfl
  | some s :: _, hs, ho, nils, tag, .inl x => by
    show ordPayload lt (some s) (caseVal nils tag (some (s.carrier, s.encode x)))
      (caseVal nils tag (some (s.carrier, s.encode x))) _ = _
    rw [ordPayload_some, field_payload]
    exact ordVal_self lt s hs.1 ho.1 x
  | none :: cs, hs, ho, nils, tag, .inr x => ordPayload_self lt cs hs ho nils tag x
  | some _ :: cs, hs, ho, nils, tag, .inr x => ordPayload_self lt cs hs.2 ho.2 nils tag x

end

/-! ## Where the order is right -/

def OrdRight (s : Shape) : Prop :=
  ∀ (lt : Bool) (a b : s.El),
    ordVal lt s (s.encode a) (s.encode b) = .bool (decide (Before lt a b))

def OrdRightAll (ss : List Shape) : Prop :=
  ∀ (lt : Bool) (a b : Els ss), ordEls lt ss a b = .bool (decide (Before lt a b))

theorem ordRight_tuple {elems : List Shape} (hs : (tuple elems).Accepted) :
    (tuple elems).OrdRight ↔ OrdRightAll elems :=
  forall₃_congr fun lt a b => by
    rw [← ordSlots_zip (tupleFieldNames_nodup hs.1) (length_tupleFieldNames _) a b]
    rfl

theorem ordRight_struct {name : String} {names : List String} {elems : List Shape}
    (hs : (struct name names elems).Accepted) :
    (struct name names elems).OrdRight ↔ OrdRightAll elems :=
  forall₃_congr fun lt a b => by
    rw [← ordSlots_zip hs.1 hs.2.1 a b]
    rfl

theorem ordRightAll_nil : OrdRightAll [] := by
  intro lt a b
  exact congrArg Val.bool (decide_eq_false (not_before_self lt a)).symm

theorem bool_before_congr {α β : Type} [LinearOrder α] [LinearOrder β] {lt : Bool} {a b : α}
    {c d : β} (h : Before lt a b ↔ Before lt c d) :
    Val.bool (decide (Before lt a b)) = .bool (decide (Before lt c d)) :=
  congrArg Val.bool (decide_eq_decide.mpr h)

/-- One slot more: it decides where it differs, and that it does has to be seen by `==`. -/
theorem ordRightAll_cons {s : Shape} {ss : List Shape} (hs : AcceptedAll (s :: ss))
    (ho : s.Orderable) :
    OrdRightAll (s :: ss) ↔ (s.EqRight ∧ s.OrdRight) ∧ OrdRightAll ss := by
  constructor
  · intro h
    obtain ⟨t⟩ := AcceptedAll.nonempty hs.2
    have hhead : ∀ (lt : Bool) (x y : s.El),
        (eqVal s (s.encode x) (s.encode y)).select (.bool false)
          (ordVal lt s (s.encode x) (s.encode y)) = .bool (decide (Before lt x y)) := by
      intro lt x y
      have hxy := h lt (Els.cons x t) (Els.cons y t)
      have hbefore : Before lt (Els.cons x t) (Els.cons y t) ↔ Before lt x y :=
        before_els.trans (or_iff_left fun h => not_before_self lt t h.2)
      rw [ordEls, bool_before_congr hbefore] at hxy
      rw [← ordEls_self lt ss hs.2 t]
      exact hxy
    -- a difference is seen by one of the two orders, and then `==` has seen it too
    have hne : ∀ x y : s.El, x ≠ y → eqVal s (s.encode x) (s.encode y) = .bool false := by
      intro x y hxy
      obtain ⟨lt, hlt⟩ := exists_before hxy
      have hlt' := hhead lt x y
      rw [decide_eq_true hlt] at hlt'
      match eqVal s (s.encode x) (s.encode y), hlt' with
      | .bool false, _ => rfl
    refine ⟨⟨?_, ?_⟩, ?_⟩
    · intro x y
      by_cases hxy : x = y
      · subst hxy
        rw [eqVal_self s hs.1 x, decide_eq_true rfl]
      · rw [hne x y hxy, decide_eq_false hxy]
    · intro lt x y
      by_cases hxy : x = y
      · subst hxy
        rw [ordVal_self lt s hs.1 ho x, bool_before_self]
      · have hlt := hhead lt x y
        rw [hne x y hxy] at hlt
        exact hlt
    · intro lt u v
      obtain ⟨x⟩ := Accepted.nonempty hs.1
      have huv := h lt (Els.cons x u) (Els.cons x v)
      have hbefore : Before lt (Els.cons x u) (Els.cons x v) ↔ Before lt u v :=
        before_els.trans ((or_iff_right (not_before_self lt x)).trans (and_iff_right rfl))
      rw [ordEls, bool_before_congr hbefore] at huv
      rw [← huv]
      show _ = (eqVal s (s.encode x) (s.encode x)).select _ _
      rw [eqVal_self s hs.1 x]
      rfl
  · rintro ⟨⟨heq, hord⟩, htail⟩ lt a b
    rw [ordEls, heq a.head b.head]
    by_cases hab : a.head = b.head
    · rw [decide_eq_true hab]
      rw [htail lt a.tail b.tail]
      apply bool_before_congr
      rw [before_els, hab]
      exact ((or_iff_right (not_before_self lt _)).trans (and_iff_right rfl)).symm
    · rw [decide_eq_false hab]
      rw [hord lt a.head b.head]
      apply bool_before_congr
      rw [before_els]
      exact (or_iff_left fun h => hab h.1).symm

theorem ordRight_variant_iff {name : String} {cs : List (Option Shape)} :
    (variant name cs).OrdRight ↔ ∀ (lt : Bool) (a b : Cases cs),
      ordPayload lt a.shape (caseVal (nils cs) a.tag a.payload)
        (caseVal (nils cs) b.tag b.payload) (.bool (decide (Before lt a.tag b.tag))) =
          .bool (decide (Before lt a b)) :=
  forall₃_congr fun lt a b => by
    rw [← ordVal_variant lt name cs a b]
    rfl

/-- A payload needs to be alone, and its own order right. -/
theorem ordRight_variant {name : String} {cs : List (Option Shape)}
    (hs : (variant name cs).Accepted) (ho : (variant name cs).Orderable) :
    (variant name cs).OrdRight ↔
      ((∃ s, some s ∈ cs) → cs.length = 1) ∧ ∀ s, some s ∈ cs → s.OrdRight := by
  rw [ordRight_variant_iff]
  constructor
  · intro h
    constructor
    · rintro ⟨s, hmem⟩
      by_contra hlen
      obtain ⟨a, b, x, htag, hshape, hpayload, hread⟩ := exists_confused hs hmem hlen
      obtain ⟨lt, hlt⟩ := exists_before fun hab : a = b => htag (congrArg Cases.tag hab)
      have hord := h lt a b
      rw [hshape, hpayload, ordPayload_some, decide_eq_true hlt] at hord
      rcases hread with hread | hread
      · rw [hread, ordVal_self lt s (hs.2.2.of_mem hmem) (OrderableCases.of_mem ho hmem) x] at hord
        exact nomatch hord
      · rw [hread] at hord
        exact ordVal_undefined_ne lt s _ hord
    · intro s hmem lt x y
      obtain ⟨i, hi⟩ := List.mem_iff_getElem?.mp hmem
      obtain ⟨f, hmono, hf⟩ := exists_case hi
      have hord := h lt (f x) (f y)
      rw [(hf x).2.1, (hf x).2.2, encodePayload_some, ordPayload_some, (hf y).2.2,
        encodePayload_some, field_payload] at hord
      rw [show ordVal lt s (s.encode x) (s.encode y) = _ from hord]
      exact bool_before_congr (before_iff_of_strictMono hmono)
  · rintro ⟨hlone, hpayloads⟩ lt a b
    by_cases hex : ∃ s, some s ∈ cs
    · obtain ⟨s, hmem⟩ := hex
      obtain ⟨c, rfl⟩ := List.length_eq_one_iff.mp (hlone ⟨s, hmem⟩)
      obtain rfl := List.mem_singleton.mp hmem
      match a, b with
      | .inl x, .inl y =>
        show ordPayload lt (some s) (caseVal _ 0 (some (s.carrier, s.encode x)))
          (caseVal _ 0 (some (s.carrier, s.encode y))) _ = _
        rw [ordPayload_some, field_payload]
        show ordVal lt s (s.encode x) (s.encode y) = _
        rw [hpayloads s hmem lt x y]
        have hmono : StrictMono (Cases.first : Payload (some s) → Cases [some s]) :=
          fun _ _ => first_lt_first.mpr
        exact bool_before_congr (before_iff_of_strictMono hmono).symm
    · have hnone : ∀ s, some s ∉ cs := not_exists.mp hex
      rw [Cases.shape_eq_none hnone a]
      exact bool_before_congr (before_iff_of_strictMono (tag_strictMono hnone))

mutual

/-- The order is right where payloads are alone, and only there. -/
theorem ordRight_iff : (s : Shape) → s.Accepted → s.Orderable → (s.OrdRight ↔ s.LonePayloads)
  | .i32, _, _ => iff_of_true cmpOrd_i32 trivial
  | .str, _, _ => iff_of_true cmpOrd_str trivial
  | .tuple elems, hs, ho => (ordRight_tuple hs).trans (ordRightAll_iff elems hs.2 ho)
  | .struct _ _ elems, hs, ho => (ordRight_struct hs).trans (ordRightAll_iff elems hs.2.2 ho)
  | .variant _ cases, hs, ho =>
    (ordRight_variant hs ho).trans (and_congr_right' (ordRightCases_iff cases hs.2.2 ho))

theorem ordRightAll_iff : (ss : List Shape) → AcceptedAll ss → OrderableAll ss →
    (OrdRightAll ss ↔ LonePayloadsAll ss)
  | [], _, _ => iff_of_true ordRightAll_nil trivial
  | s :: ss, hs, ho => by
    rw [ordRightAll_cons hs ho.2.1, eqRight_iff s hs.1, ordRight_iff s hs.1 ho.2.1,
      ordRightAll_iff ss hs.2 ho.2.2, and_self_iff]
    rfl

theorem ordRightCases_iff : (cs : List (Option Shape)) → AcceptedCases cs → OrderableCases cs →
    ((∀ s, some s ∈ cs → s.OrdRight) ↔ LonePayloadsCases cs)
  | [], _, _ => iff_of_true nofun trivial
  | none :: cs, hs, ho => by
    simp only [List.mem_cons, reduceCtorEq, false_or]
    exact ordRightCases_iff cs hs ho
  | some s :: cs, hs, ho => by
    simp only [List.mem_cons, Option.some.injEq, forall_eq_or_imp]
    exact and_congr (ordRight_iff s hs.1 ho.1) (ordRightCases_iff cs hs.2 ho.2)

end

/-! ## The code for `a < b` and `a > b` -/

/-- Where the code emitted for `a < b`, or `a > b`, has the values of `a` and `b` at hand, it
computes `x`. -/
def LoweredOrd (lt : Bool) (s : Shape) (a b : s.El) (x : Bool) : Prop :=
  ∀ (c : HandlerCtx) (n : Nat) (env : ValueId → Val) (lhs rhs : ValueId),
    Holds n env lhs (s.encode a) → Holds n env rhs (s.encode b) →
    result (eval c) (emitOrd lt s lhs rhs) n env = .ok (.bool x)

/-- The code computes `ordVal`. -/
theorem loweredOrd_iff {s : Shape} (ho : s.Orderable) (lt : Bool) (a b : s.El) (x : Bool) :
    LoweredOrd lt s a b x ↔ ordVal lt s (s.encode a) (s.encode b) = .bool x := by
  constructor
  · intro h
    have hres := h default 2 (fun v => if v = 0 then s.encode a else s.encode b) 0 1
      ⟨by decide, rfl⟩ ⟨by decide, rfl⟩
    rw [(computes_emitOrd lt s ho ⟨by decide, rfl⟩ ⟨by decide, rfl⟩).result_eq] at hres
    exact Except.ok.inj hres
  · intro h c n env lhs rhs hl hr
    rw [(computes_emitOrd lt s ho hl hr).result_eq, h]

/-- A strict total order and its converse, the lexicographic one of the type. -/
structure StrictTotal (s : Shape) (lt gt : s.El → s.El → Prop) : Prop where
  lt_irrefl : ∀ a, ¬ lt a a
  gt_irrefl : ∀ a, ¬ gt a a
  lt_trans : ∀ a b c, lt a b → lt b c → lt a c
  gt_trans : ∀ a b c, gt a b → gt b c → gt a c
  trichotomy : ∀ a b, (lt a b ∧ a ≠ b ∧ ¬ gt a b) ∨ (¬ lt a b ∧ a = b ∧ ¬ gt a b) ∨
    (¬ lt a b ∧ a ≠ b ∧ gt a b)
  converse : ∀ a b, lt a b ↔ gt b a
  lexicographic : ∀ a b, lt a b ↔ a < b

/-- What the code is to compute is a strict total order. -/
theorem strictTotal_lt (s : Shape) : StrictTotal s (· < ·) (· > ·) where
  lt_irrefl := lt_irrefl
  gt_irrefl := lt_irrefl
  lt_trans _ _ _ := lt_trans
  gt_trans _ _ _ := fun h h' => lt_trans h' h
  trichotomy a b := by
    rcases lt_trichotomy a b with h | h | h
    · exact .inl ⟨h, h.ne, h.asymm⟩
    · exact .inr (.inl ⟨h.not_lt, h, h.not_gt⟩)
    · exact .inr (.inr ⟨h.asymm, h.ne', h⟩)
  converse _ _ := Iff.rfl
  lexicographic _ _ := Iff.rfl

/-- The code for `a < b` and `a > b` computes a strict total order, and the lexicographic one, just
at the types where payloads are alone. -/
theorem loweredOrd_strictTotal_iff {s : Shape} (hs : s.Accepted) (ho : s.Orderable) :
    (∃ lt gt : s.El → s.El → Bool, (∀ a b, LoweredOrd true s a b (lt a b)) ∧
      (∀ a b, LoweredOrd false s a b (gt a b)) ∧
      StrictTotal s (fun a b => lt a b = true) (fun a b => gt a b = true)) ↔ s.LonePayloads := by
  rw [← ordRight_iff s hs ho]
  constructor
  · rintro ⟨lt, gt, hlt, hgt, h⟩ b x y
    cases b with
    | true =>
      rw [(loweredOrd_iff ho true x y _).mp (hlt x y), Val.bool.injEq, Bool.eq_iff_iff,
        decide_eq_true_iff]
      exact h.lexicographic x y
    | false =>
      rw [(loweredOrd_iff ho false x y _).mp (hgt x y), Val.bool.injEq, Bool.eq_iff_iff,
        decide_eq_true_iff]
      exact (h.converse y x).symm.trans (h.lexicographic y x)
  · intro h
    refine ⟨fun a b => decide (a < b), fun a b => decide (b < a), fun a b => ?_, fun a b => ?_, ?_⟩
    · exact (loweredOrd_iff ho true a b _).mpr (h true a b)
    · exact (loweredOrd_iff ho false a b _).mpr (h false a b)
    · simpa only [decide_eq_true_eq] using strictTotal_lt s

theorem boxed_orderable : boxed.Orderable :=
  ⟨rfl, ⟨trivial, trivial⟩, rfl, trivial, rfl, trivial, trivial⟩

theorem loweredOrd_boxed :
    boxed.Accepted ∧ boxed.Orderable ∧ ∃ lt gt : boxed.El → boxed.El → Bool,
      (∀ a b, LoweredOrd true boxed a b (lt a b)) ∧ (∀ a b, LoweredOrd false boxed a b (gt a b)) ∧
      StrictTotal boxed (fun a b => lt a b = true) (fun a b => gt a b = true) :=
  ⟨boxed_accepted, boxed_orderable, (loweredOrd_strictTotal_iff boxed_accepted boxed_orderable).mpr
    ⟨⟨fun _ => rfl, trivial, trivial⟩, ⟨by simp, trivial⟩, trivial, trivial⟩⟩

/-- The first case with a five is found to be greater than the second with a three. -/
theorem loweredOrd_twoInts :
    twoInts.Accepted ∧ twoInts.Orderable ∧
      (∃ v ops, emitOrd true twoInts 0 1 2 = .ok (v, ops) ∧
        accepts (fun w => if w < 2 then some twoInts.ty else none) 2 ops = true) ∧
      LoweredOrd true twoInts (twoInts.a 5) (twoInts.b 3) false ∧
      LoweredOrd false twoInts (twoInts.a 5) (twoInts.b 3) true ∧ twoInts.a 5 < twoInts.b 3 := by
  have ho : twoInts.Orderable := ⟨trivial, trivial, trivial⟩
  refine ⟨twoInts_accepted, ho, ⟨_, _, rfl, by decide⟩, ?_, ?_, first_lt_other _ _⟩
  · rw [loweredOrd_iff ho]
    rfl
  · rw [loweredOrd_iff ho]
    rfl

end Shape

end Rut.Compiler
