import Rut.Compiler.Rir

/-!
# Types of the language and their values

A `Shape` is a type of the language with the declarations it refers to written out: the tables of
structs and variants of a module, and the indices into them, are gone, and with them the types that
refer to themselves, for which the lowering produces no code. `Shape.El` is what a type is to its
user: products and sums, with the order that declarations give to slots, fields and cases.

The lowered form of a value is `encode`. A variant becomes a struct with the number of the case and
one optional for each kind of payload; payloads of one kind share the optional.
-/

namespace Rut.Compiler

open Rir List

scoped instance byteOrder : LinearOrder UInt8 where
  le_refl a := UInt8.le_refl a
  le_trans _ _ _ := UInt8.le_trans
  le_antisymm _ _ := UInt8.le_antisymm
  le_total := UInt8.le_total
  toDecidableLE := inferInstance
  toDecidableEq := inferInstance
  toDecidableLT := inferInstance
  lt_iff_le_not_ge a b := by
    simp only [UInt8.le_iff_toNat_le, UInt8.lt_iff_toNat_lt]
    omega

/-- A case of a variant is given by the type of its payload. -/
inductive Shape where
  | unknown
  | bool
  | i32
  | str
  | method
  | byteSize
  | ip
  | tuple (elems : List Shape)
  | struct (name : String) (names : List String) (elems : List Shape)
  | variant (name : String) (cases : List (Option Shape))

namespace Shape

def errorName : String := "Error"

/-- The type of errors. Structs made for errors have a field of it. -/
def error : Shape :=
  .struct errorName ["code", "msg", "file", "func", "line"] [.i32, .str, .str, .str, .i32]

def isErrorType : Shape → Bool
  | .struct name _ _ => name == errorName
  | _ => false

/-- `build_tuple_field_name`: slots are counted from one. -/
def tupleFieldNames (len : Nat) : List String := (range len).map fun i => "_" ++ toString (i + 1)

def kMaxMirTupleSlots : Nat := 10

/-! ## Values -/

mutual

def El : Shape → Type
  | .unknown => Empty
  | .bool => Bool
  | .i32 => Int
  | .str => Str
  | .method => Nat
  | .byteSize => Nat
  | .ip => Nat
  | .tuple elems => Els elems
  | .struct _ _ elems => Els elems
  | .variant _ cases => Cases cases

def Els : List Shape → Type
  | [] => Unit
  | s :: ss => s.El × Els ss

/-- Of a payload there is nothing where the case has none. -/
def Payload : Option Shape → Type
  | none => Unit
  | some s => s.El

def Cases : List (Option Shape) → Type
  | [] => Empty
  | c :: cs => Payload c ⊕ Cases cs

end

mutual

/-- Slots and fields from left to right; cases in the order of their declaration, then payloads. -/
@[reducible] def order : (s : Shape) → LinearOrder s.El
  | .unknown => inferInstanceAs (LinearOrder Empty)
  | .bool => inferInstanceAs (LinearOrder Bool)
  | .i32 => inferInstanceAs (LinearOrder Int)
  | .str => inferInstanceAs (LinearOrder (List UInt8))
  | .method => inferInstanceAs (LinearOrder Nat)
  | .byteSize => inferInstanceAs (LinearOrder Nat)
  | .ip => inferInstanceAs (LinearOrder Nat)
  | .tuple elems => orders elems
  | .struct _ _ elems => orders elems
  | .variant _ cases => orderCases cases

@[reducible] def orders : (ss : List Shape) → LinearOrder (Els ss)
  | [] => inferInstanceAs (LinearOrder Unit)
  | s :: ss => @Prod.Lex.instLinearOrder s.El (Els ss) s.order (orders ss)

@[reducible] def orderPayload : (c : Option Shape) → LinearOrder (Payload c)
  | none => inferInstanceAs (LinearOrder Unit)
  | some s => s.order

@[reducible] def orderCases : (cs : List (Option Shape)) → LinearOrder (Cases cs)
  | [] => inferInstanceAs (LinearOrder Empty)
  | c :: cs => @Sum.Lex.linearOrder (Payload c) (Cases cs) (orderPayload c) (orderCases cs)

end

instance (s : Shape) : LinearOrder s.El := s.order
instance (ss : List Shape) : LinearOrder (Els ss) := orders ss
instance (c : Option Shape) : LinearOrder (Payload c) := orderPayload c
instance (cs : List (Option Shape)) : LinearOrder (Cases cs) := orderCases cs

section order

variable {s : Shape} {ss : List Shape} {c : Option Shape} {cs : List (Option Shape)}

def Els.head (x : Els (s :: ss)) : s.El := Prod.fst x
def Els.tail (x : Els (s :: ss)) : Els ss := Prod.snd x
def Els.cons (x : s.El) (xs : Els ss) : Els (s :: ss) := (x, xs)

def Cases.first (x : Payload c) : Cases (c :: cs) := Sum.inl x

def Cases.other (x : Cases cs) : Cases (c :: cs) := Sum.inr x

/-- The first slot that differs decides. -/
theorem els_lt {x y : Els (s :: ss)} :
    x < y ↔ x.head < y.head ∨ x.head = y.head ∧ x.tail < y.tail :=
  @Prod.Lex.lt_iff s.El (Els ss) _ _ x y

/-- Within a case, the payloads are compared. -/
theorem first_lt_first {x y : Payload c} :
    (Cases.first x : Cases (c :: cs)) < Cases.first y ↔ x < y :=
  @Sum.Lex.inl_lt_inl_iff (Payload c) (Cases cs) _ _ x y

theorem other_lt_other {x y : Cases cs} :
    (Cases.other x : Cases (c :: cs)) < Cases.other y ↔ x < y :=
  @Sum.Lex.inr_lt_inr_iff (Payload c) (Cases cs) _ _ x y

/-- An earlier case is less, whatever the payloads. -/
theorem first_lt_other (x : Payload c) (y : Cases cs) :
    (Cases.first x : Cases (c :: cs)) < Cases.other y :=
  @Sum.Lex.inl_lt_inr (Payload c) (Cases cs) _ _ x y

end order

/-! ## Types with an order -/

mutual

/-- No part of the type is unknown. -/
def Known : Shape → Prop
  | .unknown => False
  | .tuple elems => KnownAll elems
  | .struct _ _ elems => KnownAll elems
  | .variant _ cases => KnownCases cases
  | _ => True

def KnownAll : List Shape → Prop
  | [] => True
  | s :: ss => s.Known ∧ KnownAll ss

def KnownCases : List (Option Shape) → Prop
  | [] => True
  | none :: cs => KnownCases cs
  | some s :: cs => s.Known ∧ KnownCases cs

end

mutual

/-- `hir_type_shape_satisfies_ord_constraint`. -/
def Orderable : Shape → Prop
  | .i32 => True
  | .str => True
  | .tuple elems => OrderableAll elems
  | .struct _ _ elems => OrderableAll elems
  | .variant _ cases => OrderableCases cases
  | _ => False

def OrderableAll : List Shape → Prop
  | [] => True
  | s :: ss => s.isErrorType = false ∧ s.Orderable ∧ OrderableAll ss

def OrderableCases : List (Option Shape) → Prop
  | [] => True
  | none :: cs => OrderableCases cs
  | some s :: cs => s.Orderable ∧ OrderableCases cs

end

mutual

/-- What can be ordered is known in all its parts. -/
theorem Orderable.known : {s : Shape} → s.Orderable → s.Known
  | .i32, _ => trivial
  | .str, _ => trivial
  | .tuple elems, h => @OrderableAll.known elems h
  | .struct _ _ elems, h => @OrderableAll.known elems h
  | .variant _ cases, h => @OrderableCases.known cases h

theorem OrderableAll.known : {ss : List Shape} → OrderableAll ss → KnownAll ss
  | [], _ => trivial
  | _ :: _, h => ⟨Orderable.known h.2.1, OrderableAll.known h.2.2⟩

theorem OrderableCases.known : {cs : List (Option Shape)} → OrderableCases cs → KnownCases cs
  | [], _ => trivial
  | none :: cs, h => @OrderableCases.known cs h
  | some _ :: _, h => ⟨Orderable.known h.1, OrderableCases.known h.2⟩

end

/-- The payloads of an orderable variant are orderable. -/
theorem OrderableCases.of_mem : {cs : List (Option Shape)} → OrderableCases cs → ∀ {s : Shape},
    some s ∈ cs → s.Orderable
  | none :: cs, h, _, hs =>
    @OrderableCases.of_mem cs h _ ((mem_cons.mp hs).resolve_left nofun)
  | some _ :: _, h, _, hs => by
    rcases mem_cons.mp hs with hs | hs
    · exact Option.some.inj hs ▸ h.1
    · exact OrderableCases.of_mem h.2 hs

/-! ## Lowered types -/

/-- The kinds of payloads, each with its own field in the struct of a variant. -/
inductive Carrier where
  | bool | i32 | str | tuple | variant | struct
deriving DecidableEq, Repr

/-- `payload_field_name`. -/
def Carrier.fieldName : Carrier → String
  | .bool => "payload_bool"
  | .i32 => "payload_i32"
  | .str => "payload_str"
  | .tuple => "payload_tuple"
  | .variant => "payload_variant"
  | .struct => "payload_struct"

def Carrier.all : List Carrier := [.bool, .i32, .str, .tuple, .variant, .struct]

def Carrier.composite : Carrier → Bool
  | .tuple | .variant | .struct => true
  | _ => false

def carrier : Shape → Carrier
  | .bool => .bool
  | .str => .str
  | .tuple _ => .tuple
  | .variant _ _ => .variant
  | .struct _ _ _ => .struct
  | _ => .i32

def Ty.name : Ty → String
  | .bool => "bool"
  | .i32 => "i32"
  | .str => "str"
  | .method => "method"
  | .byteSize => "bytesize"
  | .ip => "ip"
  | .optional inner => Ty.name inner ++ "?"
  | .struct name _ => name

/-- The definitions of tuples are told apart by their slots. -/
def tupleName (types : List Ty) : String :=
  "__tuple(" ++ ",".intercalate (types.map Ty.name) ++ ")"

mutual

/-- `rir_type_for_shape`, where it has an answer. -/
def ty : Shape → Ty
  | .unknown => .i32
  | .bool => .bool
  | .i32 => .i32
  | .str => .str
  | .method => .method
  | .byteSize => .byteSize
  | .ip => .ip
  | .tuple elems => .struct (tupleName (tys elems)) ((tupleFieldNames elems.length).zip (tys elems))
  | .struct name names elems => .struct name (names.zip (tys elems))
  | .variant name cases =>
    .struct name (("tag", .i32) ::
      Carrier.all.map fun k => (k.fieldName, .optional (payloadTy k cases)))

def tys : List Shape → List Ty
  | [] => []
  | s :: ss => s.ty :: tys ss

/-- The type that the payloads of one kind share. -/
def payloadTy (k : Carrier) : List (Option Shape) → Ty
  | [] =>
    match k with
    | .bool => .bool
    | .str => .str
    | _ => .i32
  | none :: cs => payloadTy k cs
  | some s :: cs => if k.composite && s.carrier == k then s.ty else payloadTy k cs

end

/-! ## Lowered values -/

/-- The struct of a variant value: the number of the case, and all but its own optional nil. -/
def caseVal (nils : Carrier → Val) (tag : Nat) (payload : Option (Carrier × Val)) : Val :=
  .struct (("tag", .i32 tag) :: Carrier.all.map fun k =>
    (k.fieldName,
      match payload with
      | some (k', v) => if k' = k then .opt true v else nils k
      | none => nils k))

def nils (cases : List (Option Shape)) (k : Carrier) : Val := Val.nil (payloadTy k cases)

mutual

def encode : (s : Shape) → s.El → Val
  | .unknown, x => Empty.elim x
  | .bool, b => .bool b
  | .i32, n => .i32 n
  | .str, s => .str s
  | .method, m => .method m
  | .byteSize, n => .byteSize n
  | .ip, n => .ip n
  | .tuple elems, x => .struct ((tupleFieldNames elems.length).zip (encodes elems x))
  | .struct _ names elems, x => .struct (names.zip (encodes elems x))
  | .variant _ cases, x => encodeCase (nils cases) 0 cases x

def encodes : (ss : List Shape) → Els ss → List Val
  | [], _ => []
  | s :: ss, x => s.encode x.head :: encodes ss x.tail

def encodePayload : (c : Option Shape) → Payload c → Option (Carrier × Val)
  | none, _ => none
  | some s, x => some (s.carrier, s.encode x)

def encodeCase (nils : Carrier → Val) : Nat → (cs : List (Option Shape)) → Cases cs → Val
  | _, [], x => Empty.elim x
  | tag, c :: _, .inl x => caseVal nils tag (encodePayload c x)
  | tag, _ :: cs, .inr x => encodeCase nils (tag + 1) cs x

end

@[simp] theorem encodePayload_some (s : Shape) (x : s.El) :
    encodePayload (some s) x = some (s.carrier, s.encode x) := rfl

/-! ## Reading lowered values -/

theorem tupleFieldNames_nodup {len : Nat} (h : len ≤ kMaxMirTupleSlots) :
    (tupleFieldNames len).Nodup := by
  have hall : (tupleFieldNames kMaxMirTupleSlots).Nodup := by decide
  exact hall.sublist ((range_sublist.mpr h).map _)

@[simp] theorem length_tupleFieldNames (len : Nat) : (tupleFieldNames len).length = len := by
  simp [tupleFieldNames]

@[simp] theorem length_encodes : {ss : List Shape} → (x : Els ss) → (encodes ss x).length = ss.length
  | [], _ => rfl
  | _ :: _, x => congrArg (· + 1) (length_encodes x.tail)

/-- Fields with names of their own are read back by these. -/
theorem field_zip {names : List String} {vals : List Val} (hn : names.Nodup)
    (hlen : names.length = vals.length) :
    List.Forall₂ (fun name v => (Val.struct (names.zip vals)).field name = v) names vals := by
  have hlookup : ∀ name v, (name, v) ∈ names.zip vals → (names.zip vals).lookup name = some v := by
    induction names generalizing vals with
    | nil => intro name v h; simp at h
    | cons a names ih =>
      cases vals with
      | nil => intro name v h; simp at h
      | cons b vals =>
        intro name v h
        rw [zip_cons_cons, mem_cons] at h
        rcases h with h | h
        · obtain ⟨rfl, rfl⟩ := Prod.mk.inj h
          simp
        · have hne : name ≠ a := fun hna =>
            (nodup_cons.mp hn).1 (hna ▸ (of_mem_zip h).1)
          have hbeq : (name == a) = false := beq_false_of_ne hne
          rw [zip_cons_cons, lookup, hbeq]
          exact ih (nodup_cons.mp hn).2 (Nat.succ.inj hlen) name v h
  refine forall₂_iff_zip.mpr ⟨hlen, fun {name v} h => ?_⟩
  show ((names.zip vals).lookup name).getD .undefined = v
  rw [hlookup name v h]
  rfl

/-! ## Variants -/

def Cases.tag : {cs : List (Option Shape)} → Cases cs → Nat
  | [], x => Empty.elim x
  | _ :: _, .inl _ => 0
  | _ :: cs, .inr x => @Cases.tag cs x + 1

/-- The type of the payload of the case. -/
def Cases.shape : {cs : List (Option Shape)} → Cases cs → Option Shape
  | [], x => Empty.elim x
  | c :: _, .inl _ => c
  | _ :: cs, .inr x => @Cases.shape cs x

def Cases.payload : {cs : List (Option Shape)} → Cases cs → Option (Carrier × Val)
  | [], x => Empty.elim x
  | c :: _, .inl x => encodePayload c x
  | _ :: cs, .inr x => @Cases.payload cs x

/-- Of a value, only the number of its case and the payload are laid out. -/
theorem encodeCase_eq (nils : Carrier → Val) : (cs : List (Option Shape)) → (i : Nat) →
    (x : Cases cs) → encodeCase nils i cs x = caseVal nils (i + x.tag) x.payload
  | [], _, x => Empty.elim x
  | _ :: _, _, .inl _ => rfl
  | _ :: cs, i, .inr x => by
    rw [encodeCase, encodeCase_eq nils cs (i + 1) x, Nat.add_assoc, Nat.add_comm 1]
    rfl

/-- So a variant is laid out as the struct of its case. -/
theorem encode_variant (name : String) (cs : List (Option Shape)) (x : Cases cs) :
    encode (.variant name cs) x = caseVal (nils cs) x.tag x.payload := by
  show encodeCase (nils cs) 0 cs x = _
  rw [encodeCase_eq, Nat.zero_add]

theorem field_tag (nils : Carrier → Val) (tag : Nat) (p : Option (Carrier × Val)) :
    (caseVal nils tag p).field "tag" = .i32 tag := rfl

/-- A payload is found in the field of its kind. -/
theorem field_payload (nils : Carrier → Val) (tag : Nat) (k : Carrier) (v : Val) :
    (caseVal nils tag (some (k, v))).field k.fieldName = .opt true v := by
  cases k <;> rfl

/-- The fields of all other kinds are nil. -/
theorem field_nil {nils : Carrier → Val} {tag : Nat} {k : Carrier} {p : Option (Carrier × Val)}
    (h : ∀ v, p ≠ some (k, v)) : (caseVal nils tag p).field k.fieldName = nils k := by
  cases p with
  | none => cases k <;> rfl
  | some q =>
    obtain ⟨k', v⟩ := q
    have hne : k' ≠ k := fun hk => h v (hk ▸ rfl)
    cases k <;> cases k' <;> first | rfl | exact absurd rfl hne

/-! ## Types that are accepted -/

/-- Payloads of one kind are of one type, and this is what the builder finds their field to be. -/
structure SharedCarriers (cases : List (Option Shape)) : Prop where
  same : ∀ s t, some s ∈ cases → some t ∈ cases → s.carrier = t.carrier → s = t
  fits : ∀ s, some s ∈ cases → typesEqual (payloadTy s.carrier cases) s.ty = true

mutual

/-- What the values of a type need in order to be laid out: fields have names of their own, a variant
has a case, and `SharedCarriers`. The compiler accepts less: it also refuses methods as fields and
tuples within tuples. -/
def Accepted : Shape → Prop
  | .unknown => False
  | .tuple elems => elems.length ≤ kMaxMirTupleSlots ∧ AcceptedAll elems
  | .struct _ names elems => names.Nodup ∧ names.length = elems.length ∧ AcceptedAll elems
  | .variant _ cases => cases ≠ [] ∧ SharedCarriers cases ∧ AcceptedCases cases
  | _ => True

def AcceptedAll : List Shape → Prop
  | [] => True
  | s :: ss => s.Accepted ∧ AcceptedAll ss

def AcceptedCases : List (Option Shape) → Prop
  | [] => True
  | none :: cs => AcceptedCases cs
  | some s :: cs => s.Accepted ∧ AcceptedCases cs

end

mutual

/-- What is accepted is known in all its parts. -/
theorem Accepted.known : {s : Shape} → s.Accepted → s.Known
  | .bool, _ => trivial
  | .i32, _ => trivial
  | .str, _ => trivial
  | .method, _ => trivial
  | .byteSize, _ => trivial
  | .ip, _ => trivial
  | .tuple _, h => AcceptedAll.known h.2
  | .struct _ _ _, h => AcceptedAll.known h.2.2
  | .variant _ _, h => AcceptedCases.known h.2.2

theorem AcceptedAll.known : {ss : List Shape} → AcceptedAll ss → KnownAll ss
  | [], _ => trivial
  | _ :: _, h => ⟨Accepted.known h.1, AcceptedAll.known h.2⟩

theorem AcceptedCases.known : {cs : List (Option Shape)} → AcceptedCases cs → KnownCases cs
  | [], _ => trivial
  | none :: cs, h => @AcceptedCases.known cs h
  | some _ :: _, h => ⟨Accepted.known h.1, AcceptedCases.known h.2⟩

end

theorem AcceptedCases.of_mem : {cs : List (Option Shape)} → AcceptedCases cs → ∀ {s : Shape},
    some s ∈ cs → s.Accepted
  | none :: cs, h, _, hs =>
    @AcceptedCases.of_mem cs h _ ((mem_cons.mp hs).resolve_left nofun)
  | some _ :: _, h, _, hs => by
    rcases mem_cons.mp hs with hs | hs
    · exact Option.some.inj hs ▸ h.1
    · exact AcceptedCases.of_mem h.2 hs

mutual

/-- An accepted type has a value. -/
theorem Accepted.nonempty : {s : Shape} → s.Accepted → Nonempty s.El
  | .bool, _ => ⟨false⟩
  | .i32, _ => ⟨(0 : Int)⟩
  | .str, _ => ⟨([] : Str)⟩
  | .method, _ => ⟨(0 : Nat)⟩
  | .byteSize, _ => ⟨(0 : Nat)⟩
  | .ip, _ => ⟨(0 : Nat)⟩
  | .tuple _, h => AcceptedAll.nonempty h.2
  | .struct _ _ _, h => AcceptedAll.nonempty h.2.2
  | .variant _ (_ :: _), h => (AcceptedCases.nonempty h.2.2).elim fun x => ⟨Cases.first x⟩

theorem AcceptedAll.nonempty : {ss : List Shape} → AcceptedAll ss → Nonempty (Els ss)
  | [], _ => ⟨()⟩
  | _ :: _, h =>
    (Accepted.nonempty h.1).elim fun x =>
      (AcceptedAll.nonempty h.2).elim fun xs => ⟨Els.cons x xs⟩

theorem AcceptedCases.nonempty : {c : Option Shape} → {cs : List (Option Shape)} →
    AcceptedCases (c :: cs) → Nonempty (Payload c)
  | none, _, _ => ⟨()⟩
  | some _, _, h => Accepted.nonempty h.1

end

theorem AcceptedCases.payload_nonempty {cs : List (Option Shape)} (h : AcceptedCases cs) :
    {c : Option Shape} → c ∈ cs → Nonempty (Payload c)
  | none, _ => ⟨()⟩
  | some _, hc => (h.of_mem hc).nonempty

end Shape

end Rut.Compiler
