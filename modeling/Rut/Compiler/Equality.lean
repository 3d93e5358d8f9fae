import Rut.Compiler.Compare

/-!
# Equality of lowered values

The code for `a == b` is to be true for equal values and false for different ones. For tuples and
structs it is, if it is for their slots and fields. For a variant, the payloads decide alone as soon
as the case on the left has one: the field that this payload is in is read from the right side too,
whichever case is there.

    left case    right case           outcome
    no payload   any                  the tags are compared
    payload      the same             the payloads are compared
    payload      another, same kind   the payloads are compared
    payload      another              the payload is compared with what a nil leaves in the field

So `==` is right at the types of which every variant with a payload has a single case
(`Shape.LonePayloads`), and at no others.
-/

namespace Rut.Compiler

open Rir Lib.Ssa

namespace Shape

/-! ## Tuples and structs -/

/-- The loop over slots, on values. -/
def eqEls : (ss : List Shape) → Els ss → Els ss → Val → Val
  | [], _, _, acc => acc
  | s :: ss, a, b, acc =>
    eqEls ss a.tail b.tail (acc.select (s.eqVal (s.encode a.head) (s.encode b.head)) acc)

variable {x y : Val} {ss : List Shape} {s : Shape} {cs : List (Option Shape)} {name : String}

theorem eqSlots_eq {acc : Val} : {ss : List Shape} → {names : List String} → (a b : Els ss) →
    List.Forall₂ (fun name v => x.field name = v) names (encodes ss a) →
    List.Forall₂ (fun name v => y.field name = v) names (encodes ss b) →
    eqSlots ss names x y acc = eqEls ss a b acc
  | [], [], _, _, _, _ => rfl
  | s :: ss, name :: names, a, b, ha, hb => by
    obtain ⟨ha, has⟩ := List.forall₂_cons.mp ha
    obtain ⟨hb, hbs⟩ := List.forall₂_cons.mp hb
    rw [eqSlots, ha, hb]
    exact eqSlots_eq a.tail b.tail has hbs

theorem eqSlots_zip {names : List String} (hn : names.Nodup) (hlen : names.length = ss.length)
    (a b : Els ss) (acc : Val) :
    eqSlots ss names (.struct (names.zip (encodes ss a))) (.struct (names.zip (encodes ss b))) acc =
      eqEls ss a b acc :=
  eqSlots_eq a b (field_zip hn (by rw [hlen, length_encodes]))
    (field_zip hn (by rw [hlen, length_encodes]))

/-- Once a slot differs the outcome stays false. -/
theorem eqEls_false : (ss : List Shape) → (a b : Els ss) →
    eqEls ss a b (.bool false) = .bool false
  | [], _, _ => rfl
  | _ :: ss, a, b => eqEls_false ss a.tail b.tail

/-- Nor does an outcome that is no truth value ever become one. -/
theorem eqEls_isBool : (ss : List Shape) → (a b : Els ss) → {acc : Val} → {p : Bool} →
    eqEls ss a b acc = .bool p → ∃ q, acc = .bool q
  | [], _, _, _, p, h => ⟨p, h⟩
  | _ :: ss, a, b, acc, _, h => by
    obtain ⟨q, hq⟩ := eqEls_isBool ss a.tail b.tail h
    cases acc with
    | bool r => exact ⟨r, rfl⟩
    | _ => simp [Val.select] at hq

theorem els_eq_iff {a b : Els (s :: ss)} : a = b ↔ a.head = b.head ∧ a.tail = b.tail :=
  Prod.ext_iff

/-! ## Variants -/

/-- The comparison that decides for a case on the left. -/
def eqPayload (c : Option Shape) (x y acc : Val) : Val :=
  match c with
  | none => acc
  | some s =>
    s.eqVal (x.field s.carrier.fieldName).unwrap (y.field s.carrier.fieldName).unwrap

theorem cmpEq_i32 (a b : Nat) : (Val.i32 a).cmpEq (.i32 b) = .bool (decide (a = b)) := by
  show Val.bool ((a : Int) == b) = _
  rw [Val.bool.injEq, Bool.eq_iff_iff, beq_iff_eq, decide_eq_true_iff]
  omega

theorem eqCases_of_lt {tag : Nat} (hx : x.field "tag" = .i32 tag) :
    (cs : List (Option Shape)) → {i : Nat} → tag < i → (acc : Val) → eqCases cs i x y acc = acc
  | [], _, _, _ => rfl
  | none :: cs, _, h, acc => eqCases_of_lt hx cs (Nat.lt_succ_of_lt h) acc
  | some _ :: cs, i, h, acc => by
    rw [eqCases, hx, cmpEq_i32, decide_eq_false (Nat.ne_of_lt h)]
    exact eqCases_of_lt hx cs (Nat.lt_succ_of_lt h) acc

/-- Only the case on the left counts. -/
theorem eqCases_tag : (cs : List (Option Shape)) → (k : Nat) → {i : Nat} →
    x.field "tag" = .i32 ((i + k : Nat) : Int) → (acc : Val) →
    eqCases cs i x y acc = eqPayload cs[k]?.join x y acc
  | [], _, _, _, _ => rfl
  | none :: cs, 0, i, hx, acc => eqCases_of_lt hx cs (Nat.lt_succ_self i) acc
  | some s :: cs, 0, i, hx, acc => by
    rw [eqCases, hx, cmpEq_i32]
    show eqCases cs (i + 1) x y (Val.select (.bool (decide (i = i))) _ acc) = _
    rw [decide_eq_true rfl]
    exact eqCases_of_lt hx cs (Nat.lt_succ_self i) _
  | c :: cs, k + 1, i, hx, acc => by
    have htag : x.field "tag" = .i32 ((i + 1 + k : Nat) : Int) := by
      rw [hx, Nat.add_assoc, Nat.add_comm 1]
    cases c with
    | none => exact eqCases_tag cs k htag acc
    | some s =>
      rw [eqCases, htag, cmpEq_i32, decide_eq_false (by omega)]
      exact eqCases_tag cs k htag acc

theorem Cases.shape_eq : {cs : List (Option Shape)} → (a : Cases cs) → cs[a.tag]?.join = a.shape
  | [], a => Empty.elim a
  | _ :: _, .inl _ => rfl
  | _ :: cs, .inr a => @Cases.shape_eq cs a

/-- The case on the left decides what is compared. -/
theorem eqVal_variant (name : String) (cs : List (Option Shape)) (a b : Cases cs) :
    eqVal (.variant name cs) (encode (.variant name cs) a) (encode (.variant name cs) b) =
      eqPayload a.shape (caseVal (nils cs) a.tag a.payload) (caseVal (nils cs) b.tag b.payload)
        (.bool (decide (a.tag = b.tag))) := by
  rw [encode_variant, encode_variant, eqVal, field_tag, field_tag, cmpEq_i32, ← a.shape_eq]
  apply eqCases_tag
  rw [Nat.zero_add, field_tag]

/-- Every case can be built, from every payload. -/
theorem exists_case : {cs : List (Option Shape)} → {i : Nat} → {c : Option Shape} →
    cs[i]? = some c → ∃ f : Payload c → Cases cs, StrictMono f ∧
      ∀ x, (f x).tag = i ∧ (f x).shape = c ∧ (f x).payload = encodePayload c x
  | _ :: _, 0, _, h => by
    obtain rfl := Option.some.inj h
    exact ⟨Cases.first, fun _ _ => first_lt_first.mpr, fun _ => ⟨rfl, rfl, rfl⟩⟩
  | _ :: cs, _ + 1, _, h => by
    obtain ⟨f, hf, hx⟩ := @exists_case cs _ _ h
    exact ⟨Cases.other ∘ f, fun _ _ hxy => other_lt_other.mpr (hf hxy), fun x =>
      ⟨congrArg (· + 1) (hx x).1, (hx x).2⟩⟩

/-- Without payloads the cases are told apart by their numbers. -/
theorem tag_strictMono : {cs : List (Option Shape)} → (∀ s, some s ∉ cs) →
    StrictMono (Cases.tag : Cases cs → Nat)
  | [], _, a, _, _ => Empty.elim a
  | some s :: _, h, _, _, _ => absurd List.mem_cons_self (h s)
  | none :: cs, h, a, b, hab => by
    match a, b, hab with
    | .inl _, .inl _, hab => exact absurd hab (lt_irrefl _)
    | .inl _, .inr _, _ => exact Nat.succ_pos _
    | .inr a, .inl b, hab => exact absurd (first_lt_other b a) (lt_asymm hab)
    | .inr a, .inr b, hab =>
      exact Nat.succ_lt_succ (@tag_strictMono cs
        (fun s hs => h s (List.mem_cons_of_mem _ hs)) a b (other_lt_other.mp hab))

theorem Cases.shape_eq_none : {cs : List (Option Shape)} → (∀ s, some s ∉ cs) → (a : Cases cs) →
    a.shape = none
  | [], _, a => Empty.elim a
  | some s :: _, h, _ => absurd List.mem_cons_self (h s)
  | none :: _, _, .inl _ => rfl
  | none :: cs, h, .inr a =>
    @Cases.shape_eq_none cs (fun s hs => h s (List.mem_cons_of_mem _ hs)) a

/-! ## What is read from a nil -/

theorem select_ne {c t e v : Val} (ht : t ≠ v) (he : e ≠ v) (hv : v ≠ .undefined) :
    c.select t e ≠ v := by
  cases c with
  | bool b => cases b <;> assumption
  | _ => exact hv.symm

mutual

/-- Comparing with an undefined value never comes out false. -/
theorem eqVal_undefined_ne : (s : Shape) → (x : Val) → eqVal s x .undefined ≠ .bool false
  | .unknown, _ => nofun
  | .bool, x => by cases x <;> exact nofun
  | .i32, x => by cases x <;> exact nofun
  | .str, x => by cases x <;> exact nofun
  | .method, x => by cases x <;> exact nofun
  | .byteSize, x => by cases x <;> exact nofun
  | .ip, x => by cases x <;> exact nofun
  | .tuple elems, x => eqSlots_undefined_ne elems _ x nofun
  | .struct _ names elems, x => eqSlots_undefined_ne elems names x nofun
  | .variant _ cases, x => eqCases_undefined_ne cases 0 x (by cases x.field "tag" <;> exact nofun)

theorem eqSlots_undefined_ne : (ss : List Shape) → (names : List String) → (x : Val) → {acc : Val} →
    acc ≠ .bool false → eqSlots ss names x .undefined acc ≠ .bool false
  | [], [], _, _, h => h
  | [], _ :: _, _, _, h => h
  | _ :: _, [], _, _, h => h
  | s :: ss, name :: names, x, _, h =>
    eqSlots_undefined_ne ss names x (select_ne (eqVal_undefined_ne s (x.field name)) h nofun)

theorem eqCases_undefined_ne : (cs : List (Option Shape)) → (i : Nat) → (x : Val) → {acc : Val} →
    acc ≠ .bool false → eqCases cs i x .undefined acc ≠ .bool false
  | [], _, _, _, h => h
  | none :: cs, i, x, _, h => eqCases_undefined_ne cs (i + 1) x h
  | some s :: cs, i, x, _, h =>
    eqCases_undefined_ne cs (i + 1) x (select_ne (eqVal_undefined_ne s _) h nofun)

end

theorem payloadTy_scalar {k : Carrier} (hk : k.composite = false) (cs : List (Option Shape)) :
    payloadTy k cs = payloadTy k [] := by
  induction cs with
  | nil => rfl
  | cons c cs ih => cases c <;> simp [payloadTy, hk, ih]

theorem payloadTy_composite (hk : s.carrier.composite = true) :
    (cs : List (Option Shape)) → some s ∈ cs →
    ∃ name fields, payloadTy s.carrier cs = .struct name fields
  | none :: cs, hs => payloadTy_composite hk cs ((List.mem_cons.mp hs).resolve_left nofun)
  | some t :: cs, hs => by
    rw [payloadTy, hk, Bool.true_and]
    by_cases ht : t.carrier = s.carrier
    · rw [if_pos (beq_iff_eq.mpr ht)]
      rw [← ht] at hk
      cases t <;> first | exact absurd hk (by decide) | exact ⟨_, _, rfl⟩
    · rw [if_neg (by simpa using ht)]
      have hne : some s ≠ some t := fun h => ht (congrArg carrier (Option.some.inj h)).symm
      exact payloadTy_composite hk cs ((List.mem_cons.mp hs).resolve_left hne)

/-- What the field of a payload holds where it is nil. -/
def nilPayload : Carrier → Val
  | .i32 => .i32 0
  | .str => .str []
  | _ => .undefined

theorem unwrap_nils (hs : some s ∈ cs) : (nils cs s.carrier).unwrap = nilPayload s.carrier := by
  have hstruct : s.carrier.composite = true → (nils cs s.carrier).unwrap = .undefined := by
    intro hk
    obtain ⟨name, fields, h⟩ := payloadTy_composite hk cs hs
    rw [nils, h]
    rfl
  cases hk : s.carrier with
  | bool => rw [nils, payloadTy_scalar rfl]; rfl
  | i32 => rw [nils, payloadTy_scalar rfl]; rfl
  | str => rw [nils, payloadTy_scalar rfl]; rfl
  | tuple | variant | struct =>
    rw [← hk, hstruct (by rw [hk]; rfl), hk]
    rfl

/-! ## A value and itself -/

mutual

/-- A value equals itself. -/
theorem eqVal_self : (s : Shape) → s.Accepted → (x : s.El) →
    eqVal s (s.encode x) (s.encode x) = .bool true
  | .bool, _, x => congrArg Val.bool (@beq_self_eq_true Bool _ _ x)
  | .i32, _, x => congrArg Val.bool (@beq_self_eq_true Int _ _ x)
  | .str, _, x => congrArg Val.bool (@beq_self_eq_true Str _ _ x)
  | .method, _, x => congrArg Val.bool (@beq_self_eq_true Nat _ _ x)
  | .byteSize, _, x => congrArg Val.bool (@beq_self_eq_true Nat _ _ x)
  | .ip, _, x => congrArg Val.bool (@beq_self_eq_true Nat _ _ x)
  | .tuple elems, hs, x =>
    (eqSlots_zip (tupleFieldNames_nodup hs.1) (length_tupleFieldNames _) x x _).trans
      (eqEls_self elems hs.2 x)
  | .struct _ _ elems, hs, x =>
    (eqSlots_zip hs.1 hs.2.1 x x _).trans (eqEls_self elems hs.2.2 x)
  | .variant name cases, hs, x => by
    rw [eqVal_variant name cases x x, decide_eq_true rfl]
    exact eqPayload_self cases hs.2.2 (nils cases) x.tag x

theorem eqEls_self : (ss : List Shape) → AcceptedAll ss → (x : Els ss) →
    eqEls ss x x (.bool true) = .bool true
  | [], _, _ => rfl
  | s :: ss, hs, x => by
    rw [eqEls, eqVal_self s hs.1 x.head]
    exact eqEls_self ss hs.2 x.tail

theorem eqPayload_self : (cs : List (Option Shape)) → AcceptedCases cs → (nils : Carrier → Val) →
    (tag : Nat) → (x : Cases cs) →
    eqPayload x.shape (caseVal nils tag x.payload) (caseVal nils tag x.payload) (.bool true) =
      .bool true
  | [], _, _, _, x => Empty.elim x
  | none :: _, _, _, _, .inl _ => rfl
  | some s :: _, hs, nils, tag, .inl x => by
    show eqVal s ((caseVal nils tag (some (s.carrier, s.encode x))).field _).unwrap
      ((caseVal nils tag (some (s.carrier, s.encode x))).field _).unwrap = _
    rw [field_payload]
    exact eqVal_self s hs.1 x
  | none :: cs, hs, nils, tag, .inr x => eqPayload_self cs hs nils tag x
  | some _ :: cs, hs, nils, tag, .inr x => eqPayload_self cs hs.2 nils tag x

end

/-! ## Where equality is right -/

def EqRight (s : Shape) : Prop :=
  ∀ a b : s.El, eqVal s (s.encode a) (s.encode b) = .bool (decide (a = b))

def EqRightAll (ss : List Shape) : Prop :=
  ∀ a b : Els ss, eqEls ss a b (.bool true) = .bool (decide (a = b))

theorem bool_beq {α : Type} [BEq α] [LawfulBEq α] {a b : α} {_ : Decidable (a = b)} :
    Val.bool (a == b) = .bool (decide (a = b)) :=
  congrArg Val.bool (by rw [Bool.eq_iff_iff, decide_eq_true_iff, beq_iff_eq])

theorem eqRight_tuple {elems : List Shape} (hs : (tuple elems).Accepted) :
    (tuple elems).EqRight ↔ EqRightAll elems :=
  forall₂_congr fun a b => by
    rw [← eqSlots_zip (tupleFieldNames_nodup hs.1) (length_tupleFieldNames _) a b]
    rfl

theorem eqRight_struct {names : List String} {elems : List Shape}
    (hs : (struct name names elems).Accepted) :
    (struct name names elems).EqRight ↔ EqRightAll elems :=
  forall₂_congr fun a b => by
    rw [← eqSlots_zip hs.1 hs.2.1 a b]
    rfl

theorem eqRightAll_nil : EqRightAll [] := fun _ _ => rfl

/-- One slot more: it is the one that differs, or the others are compared. -/
theorem eqRightAll_cons (hs : AcceptedAll (s :: ss)) :
    EqRightAll (s :: ss) ↔ s.EqRight ∧ EqRightAll ss := by
  constructor
  · intro h
    constructor
    · intro x y
      obtain ⟨t⟩ := AcceptedAll.nonempty hs.2
      have hxy : eqEls ss t t (eqVal s (s.encode x) (s.encode y)) =
          .bool (decide (Els.cons x t = Els.cons y t)) := h (Els.cons x t) (Els.cons y t)
      obtain ⟨q, hq⟩ := eqEls_isBool ss t t hxy
      have hdec : (Els.cons x t = Els.cons y t) ↔ x = y :=
        els_eq_iff.trans (and_iff_left rfl)
      rw [hq]
      rw [hq] at hxy
      cases q with
      | true => rw [eqEls_self ss hs.2 t] at hxy; simpa [hdec] using hxy
      | false => rw [eqEls_false] at hxy; simpa [hdec] using hxy
    · intro t u
      obtain ⟨x⟩ := Accepted.nonempty hs.1
      have htu : eqEls ss t u (eqVal s (s.encode x) (s.encode x)) =
          .bool (decide (Els.cons x t = Els.cons x u)) := h (Els.cons x t) (Els.cons x u)
      have hdec : (Els.cons x t = Els.cons x u) ↔ t = u :=
        els_eq_iff.trans (and_iff_right rfl)
      rw [eqVal_self s hs.1 x] at htu
      simpa [hdec] using htu
  · rintro ⟨hhead, htail⟩ a b
    show eqEls ss a.tail b.tail (eqVal s (s.encode a.head) (s.encode b.head)) = _
    rw [hhead a.head b.head]
    by_cases hab : a.head = b.head
    · rw [decide_eq_true hab, htail a.tail b.tail]
      simp [els_eq_iff, hab]
    · rw [decide_eq_false hab, eqEls_false]
      simp [els_eq_iff, hab]

theorem eqPayload_some {a : Val} {nils : Carrier → Val} {tag : Nat} (y acc : Val) :
    eqPayload (some s) (caseVal nils tag (some (s.carrier, a))) y acc =
      eqVal s a (y.field s.carrier.fieldName).unwrap := by
  rw [eqPayload, field_payload]
  rfl

/-- What a nil leaves in the field of a payload is a value of its type, or nothing. -/
theorem nilPayload_cases (hs : s.Accepted) (hfits : typesEqual (payloadTy s.carrier cs) s.ty = true)
    :
    ∃ x : s.El, nilPayload s.carrier = s.encode x ∨ nilPayload s.carrier = .undefined := by
  obtain ⟨x⟩ := hs.nonempty
  cases s with
  | unknown => exact hs.elim
  | i32 => exact ⟨(0 : Int), .inl rfl⟩
  | str => exact ⟨([] : Str), .inl rfl⟩
  | method | byteSize | ip =>
    rw [show payloadTy _ cs = .i32 from payloadTy_scalar rfl cs] at hfits
    exact absurd hfits (by decide)
  | bool | tuple | struct | variant => exact ⟨x, .inr rfl⟩

/-- A payload that comes with a second case is met by itself or by nothing at all. -/
theorem exists_confused (hs : (variant name cs).Accepted) (hmem : some s ∈ cs)
    (hlen : cs.length ≠ 1) :
    ∃ (a b : Cases cs) (x : s.El), a.tag ≠ b.tag ∧ a.shape = some s ∧
      a.payload = some (s.carrier, s.encode x) ∧
      (((caseVal (nils cs) b.tag b.payload).field s.carrier.fieldName).unwrap = s.encode x ∨
        ((caseVal (nils cs) b.tag b.payload).field s.carrier.fieldName).unwrap = .undefined) := by
  obtain ⟨-, hshared, hcases⟩ := hs
  have hacc : s.Accepted := hcases.of_mem hmem
  obtain ⟨i, hi⟩ := List.mem_iff_getElem?.mp hmem
  obtain ⟨hilt, -⟩ := List.getElem?_eq_some_iff.mp hi
  obtain ⟨j, hj, hij⟩ : ∃ j, j < cs.length ∧ i ≠ j :=
    ⟨if i = 0 then 1 else 0, by split <;> omega, by split <;> omega⟩
  obtain ⟨c, hc⟩ : ∃ c, cs[j]? = some c := ⟨_, List.getElem?_eq_getElem hj⟩
  have hcmem : c ∈ cs := List.mem_of_getElem? hc
  obtain ⟨f, -, hf⟩ := exists_case hi
  obtain ⟨g, -, hg⟩ := exists_case hc
  have htag : ∀ x y, (f x).tag ≠ (g y).tag := by
    intro x y
    rw [(hf x).1, (hg y).1]
    exact hij
  by_cases hsame : c = some s
  · -- the second case has a payload of this type too
    subst hsame
    obtain ⟨x⟩ := hacc.nonempty
    refine ⟨f x, g x, x, htag x x, (hf x).2.1, (hf x).2.2, .inl ?_⟩
    rw [(hg x).2.2, encodePayload_some, field_payload]
    rfl
  · -- the second case leaves the field of this payload nil
    obtain ⟨y⟩ := hcases.payload_nonempty hcmem
    obtain ⟨x, hx⟩ := nilPayload_cases hacc (hshared.fits s hmem)
    have hnil : ∀ v, (g y).payload ≠ some (s.carrier, v) := by
      intro v hv
      rw [(hg y).2.2] at hv
      match c, y, hv with
      | some t, _, hv =>
        have hk : t.carrier = s.carrier := (Prod.mk.inj (Option.some.inj hv)).1
        exact hsame (congrArg some (hshared.same t s hcmem hmem hk))
    refine ⟨f x, g y, x, htag x y, (hf x).2.1, (hf x).2.2, ?_⟩
    rw [field_nil hnil, unwrap_nils hmem]
    exact hx

theorem eqRight_variant_iff :
    (variant name cs).EqRight ↔ ∀ a b : Cases cs,
      eqPayload a.shape (caseVal (nils cs) a.tag a.payload) (caseVal (nils cs) b.tag b.payload)
        (.bool (decide (a.tag = b.tag))) = .bool (decide (a = b)) :=
  forall₂_congr fun a b => by
    rw [← eqVal_variant name cs a b]
    rfl

/-- A payload needs to be alone, and right itself. -/
theorem eqRight_variant (hs : (variant name cs).Accepted) :
    (variant name cs).EqRight ↔
      ((∃ s, some s ∈ cs) → cs.length = 1) ∧ ∀ s, some s ∈ cs → s.EqRight := by
  rw [eqRight_variant_iff]
  constructor
  · intro h
    constructor
    · rintro ⟨s, hmem⟩
      by_contra hlen
      obtain ⟨a, b, x, htag, hshape, hpayload, hread⟩ := exists_confused hs hmem hlen
      have hab : a ≠ b := fun hab => htag (congrArg Cases.tag hab)
      have heq := h a b
      rw [hshape, hpayload, eqPayload_some, decide_eq_false hab] at heq
      rcases hread with hread | hread
      · rw [hread, eqVal_self s (hs.2.2.of_mem hmem) x] at heq
        exact nomatch heq
      · rw [hread] at heq
        exact eqVal_undefined_ne s _ heq
    · intro s hmem x y
      obtain ⟨i, hi⟩ := List.mem_iff_getElem?.mp hmem
      obtain ⟨f, hmono, hf⟩ := exists_case hi
      have heq := h (f x) (f y)
      rw [(hf x).2.1, (hf x).2.2, encodePayload_some, eqPayload_some, (hf y).2.2,
        encodePayload_some, field_payload] at heq
      rw [show eqVal s (s.encode x) (s.encode y) = _ from heq]
      exact congrArg Val.bool (decide_eq_decide.mpr hmono.injective.eq_iff)
  · rintro ⟨hlone, hpayloads⟩ a b
    by_cases hex : ∃ s, some s ∈ cs
    · obtain ⟨s, hmem⟩ := hex
      obtain ⟨c, rfl⟩ := List.length_eq_one_iff.mp (hlone ⟨s, hmem⟩)
      obtain rfl := List.mem_singleton.mp hmem
      match a, b with
      | .inl x, .inl y =>
        show eqPayload (some s) (caseVal _ 0 (some (s.carrier, s.encode x)))
          (caseVal _ 0 (some (s.carrier, s.encode y))) _ = _
        rw [eqPayload_some, field_payload]
        show eqVal s (s.encode x) (s.encode y) = _
        rw [hpayloads s hmem x y]
        exact congrArg Val.bool (decide_eq_decide.mpr Sum.inl_injective.eq_iff.symm)
    · have hnone : ∀ s, some s ∉ cs := not_exists.mp hex
      rw [Cases.shape_eq_none hnone a]
      exact congrArg Val.bool (decide_eq_decide.mpr (tag_strictMono hnone).injective.eq_iff)

mutual

/-- A variant with a payload has no other case, nowhere in the type. -/
def LonePayloads : Shape → Prop
  | .tuple elems => LonePayloadsAll elems
  | .struct _ _ elems => LonePayloadsAll elems
  | .variant _ cases => ((∃ s, some s ∈ cases) → cases.length = 1) ∧ LonePayloadsCases cases
  | _ => True

def LonePayloadsAll : List Shape → Prop
  | [] => True
  | s :: ss => s.LonePayloads ∧ LonePayloadsAll ss

def LonePayloadsCases : List (Option Shape) → Prop
  | [] => True
  | none :: cs => LonePayloadsCases cs
  | some s :: cs => s.LonePayloads ∧ LonePayloadsCases cs

end

mutual

/-- Where `==` is right. -/
theorem eqRight_iff : (s : Shape) → s.Accepted → (s.EqRight ↔ s.LonePayloads)
  | .bool, _ => iff_of_true (fun _ _ => @bool_beq Bool _ _ _ _ _) trivial
  | .i32, _ => iff_of_true (fun _ _ => @bool_beq Int _ _ _ _ _) trivial
  | .str, _ => iff_of_true (fun _ _ => @bool_beq Str _ _ _ _ _) trivial
  | .method, _ => iff_of_true (fun _ _ => @bool_beq Nat _ _ _ _ _) trivial
  | .byteSize, _ => iff_of_true (fun _ _ => @bool_beq Nat _ _ _ _ _) trivial
  | .ip, _ => iff_of_true (fun _ _ => @bool_beq Nat _ _ _ _ _) trivial
  | .tuple elems, hs => (eqRight_tuple hs).trans (eqRightAll_iff elems hs.2)
  | .struct _ _ elems, hs => (eqRight_struct hs).trans (eqRightAll_iff elems hs.2.2)
  | .variant _ cases, hs =>
    (eqRight_variant hs).trans (and_congr_right' (eqRightCases_iff cases hs.2.2))

theorem eqRightAll_iff : (ss : List Shape) → AcceptedAll ss → (EqRightAll ss ↔ LonePayloadsAll ss)
  | [], _ => iff_of_true eqRightAll_nil trivial
  | s :: ss, hs =>
    (eqRightAll_cons hs).trans (and_congr (eqRight_iff s hs.1) (eqRightAll_iff ss hs.2))

theorem eqRightCases_iff : (cs : List (Option Shape)) → AcceptedCases cs →
    ((∀ s, some s ∈ cs → s.EqRight) ↔ LonePayloadsCases cs)
  | [], _ => iff_of_true nofun trivial
  | none :: cs, hs => by
    simp only [List.mem_cons, reduceCtorEq, false_or]
    exact eqRightCases_iff cs hs
  | some s :: cs, hs => by
    simp only [List.mem_cons, Option.some.injEq, forall_eq_or_imp]
    exact and_congr (eqRight_iff s hs.1) (eqRightCases_iff cs hs.2)

end

/-! ## The code for `a == b` -/

/-- Where the code emitted for `a == b` has the values of `a` and `b` at hand, it computes `x`. -/
def LoweredEq (s : Shape) (a b : s.El) (x : Bool) : Prop :=
  ∀ (c : HandlerCtx) (n : Nat) (env : ValueId → Val) (lhs rhs : ValueId),
    Holds n env lhs (s.encode a) → Holds n env rhs (s.encode b) →
    result (eval c) (emitEq s lhs rhs) n env = .ok (.bool x)

/-- The code computes `eqVal`. -/
theorem loweredEq_iff (hs : s.Known) (a b : s.El) (x : Bool) :
    LoweredEq s a b x ↔ eqVal s (s.encode a) (s.encode b) = .bool x := by
  constructor
  · intro h
    have hres := h default 2 (fun v => if v = 0 then s.encode a else s.encode b) 0 1
      ⟨by decide, rfl⟩ ⟨by decide, rfl⟩
    rw [(computes_emitEq s hs ⟨by decide, rfl⟩ ⟨by decide, rfl⟩).result_eq]
      at hres
    exact Except.ok.inj hres
  · intro h c n env lhs rhs hl hr
    rw [(computes_emitEq s hs hl hr).result_eq, h]

/-- The code for `a == b` tells the equal values of a type from the different ones just where
payloads are alone. -/
theorem loweredEq_structural_iff {s : Shape} (hs : s.Accepted) :
    (∀ a b : s.El, LoweredEq s a b (decide (a = b))) ↔ s.LonePayloads :=
  (forall₂_congr fun a b => loweredEq_iff hs.known a b _).trans (eqRight_iff s hs)

/-- A box, a colour and a number: one variant with a payload and one without. -/
def boxed : Shape :=
  .tuple [.variant "Box" [some .str], .variant "Colour" [none, none, none], .i32]

theorem boxed_accepted : boxed.Accepted :=
  ⟨by decide,
    ⟨nofun, ⟨by simp, by simp [payloadTy, carrier, ty, typesEqual, Carrier.composite]⟩,
      trivial, trivial⟩,
    ⟨nofun, ⟨by simp, by simp⟩, trivial⟩, trivial, trivial⟩

theorem loweredEq_boxed : boxed.Accepted ∧ ∀ a b : boxed.El, LoweredEq boxed a b (decide (a = b)) :=
  ⟨boxed_accepted, (loweredEq_structural_iff boxed_accepted).mpr
    ⟨⟨fun _ => rfl, trivial, trivial⟩, ⟨by simp, trivial⟩, trivial, trivial⟩⟩

def twoInts : Shape := .variant "V" [some .i32, some .i32]

def twoInts.a (n : Int) : twoInts.El := Cases.first n
def twoInts.b (n : Int) : twoInts.El := Cases.other (Cases.first n)

theorem twoInts_accepted : twoInts.Accepted :=
  ⟨nofun, ⟨by simp, by simp [payloadTy, carrier, ty, typesEqual, Carrier.composite]⟩,
    trivial, trivial, trivial⟩

/-- The comparison of the first case with the second is accepted, and is true if they carry the same
number. -/
theorem loweredEq_twoInts :
    twoInts.Accepted ∧
      (∃ v ops, emitEq twoInts 0 1 2 = .ok (v, ops) ∧
        accepts (fun w => if w < 2 then some twoInts.ty else none) 2 ops = true) ∧
      LoweredEq twoInts (twoInts.a 5) (twoInts.b 5) true ∧ twoInts.a 5 ≠ twoInts.b 5 := by
  refine ⟨twoInts_accepted, ⟨_, _, rfl, by decide⟩, ?_, nofun⟩
  rw [loweredEq_iff twoInts_accepted.known]
  rfl

end Shape

end Rut.Compiler
