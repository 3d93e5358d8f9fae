import Rut.Compiler.Shape
import Rut.Lib.Rounds

/-!
# Carriers of declared types

The first part of `lower_to_rir`: for each struct and each variant of a module a struct definition
of the IR, its carrier, and one for each tuple type they mention. A declaration can mention any
other, so rounds over the declarations build those whose parts are built, until a round builds none.

The declarations here are the ones that get a carrier: open generic templates and instances with
unresolved arguments are passed over by the source, and only their number is kept, which counts for
the size of the table of definitions. References to declarations are indices in range, which is what
the analysis hands on. A tuple has no tuple among its slots.
-/

namespace Rut.Compiler.Carriers

/-! ## Declarations -/

inductive Scalar where
  | bool | i32 | str | method | byteSize | ip
deriving DecidableEq, Repr

/-- A type without tuples: a slot of a tuple is one. -/
inductive Slot (n m : Nat) where
  | scalar (k : Scalar)
  | struct (i : Fin n)
  | variant (i : Fin m)
deriving DecidableEq, Repr

/-- `FlatMirShape`. -/
inductive FlatShape (n m : Nat) where
  | one (s : Slot n m)
  | tuple (slots : List (Slot n m))
deriving DecidableEq, Repr

/-- The type of a field: `is_error_type` is set for fields declared as `Error`. -/
inductive FieldType (n m : Nat) where
  | error
  | shape (s : FlatShape n m)
deriving DecidableEq, Repr

structure StructDecl (n m : Nat) where
  name : String
  fields : List (String × FieldType n m)

/-- A case is given by the type of its payload. -/
structure VariantDecl (n m : Nat) where
  name : String
  cases : List (Option (FlatShape n m))

structure TypeDecls (n m : Nat) where
  structs : Fin n → StructDecl n m
  variants : Fin m → VariantDecl n m
  /-- The declarations that are passed over. -/
  openStructs : Nat := 0
  openVariants : Nat := 0

/-- The size of the table of struct definitions. -/
def TypeDecls.structCap {n m : Nat} (D : TypeDecls n m) : Nat :=
  (m + D.openVariants) * 2 + (n + D.openStructs) + 8

abbrev Decl (n m : Nat) := Fin n ⊕ Fin m

def declarations (n m : Nat) : List (Decl n m) :=
  (List.finRange n).map Sum.inl ++ (List.finRange m).map Sum.inr

theorem mem_declarations {n m : Nat} (d : Decl n m) : d ∈ declarations n m := by
  cases d <;> simp [declarations]

variable {n m : Nat}

/-! ## Types and definitions of the IR -/

/-- A struct definition, by what it was created for. Tuples share a definition where they have the
same slots. -/
inductive StructRef (n m : Nat) where
  | error
  | user (i : Fin n)
  | variant (i : Fin m)
  | tuple (slots : List (Slot n m))
deriving DecidableEq, Repr

inductive Ty (n m : Nat) where
  | scalar (k : Scalar)
  | optional (inner : Ty n m)
  | struct (d : StructRef n m)
deriving DecidableEq, Repr

structure StructDef (n m : Nat) where
  name : String
  fields : List (String × Ty n m)
deriving DecidableEq, Repr

/-- `TupleLoweringInfo`. -/
structure TupleInfo (n m : Nat) where
  slots : List (Slot n m)
  structDef : StructDef n m
deriving DecidableEq, Repr

/-- `user_struct_defs`, the struct types in `variant_infos`, and `tuple_infos`. -/
structure Lowering (n m : Nat) where
  structDefs : Fin n → Option (StructDef n m)
  variantDefs : Fin m → Option (StructDef n m)
  tuples : List (TupleInfo n m)

def Lowering.init : Lowering n m := ⟨fun _ => none, fun _ => none, []⟩

namespace Lowering

variable (st : Lowering n m)

def built : Decl n m → Bool
  | .inl i => (st.structDefs i).isSome
  | .inr i => (st.variantDefs i).isSome

def cached : List (List (Slot n m)) := st.tuples.map TupleInfo.slots

/-- `struct_count`: the definition of `Error` is there from the start. -/
def structCount : Nat := 1 + ((declarations n m).filter st.built).length + st.tuples.length

/-- `create_struct`, where there is room for one more definition. -/
def createStruct {α : Type} (cap : Nat) (created : α) : Except FrontendError α :=
  if cap ≤ st.structCount then .error .outOfMemory else .ok created

/-- `rir_type_for_shape` at a slot of a tuple. A variant that has no carrier yet is an integer. -/
def slotType : Slot n m → Except FrontendError (Ty n m)
  | .scalar k => .ok (.scalar k)
  | .variant i => .ok (if st.built (.inr i) then .struct (.variant i) else .scalar .i32)
  | .struct i => if st.built (.inl i) then .ok (.struct (.user i)) else .error .unsupportedSyntax

def kMaxTuples : Nat := 64

/-- The definition of a tuple's carrier, from the types of its slots. -/
def tupleDef (index : Nat) (types : List (Ty n m)) : StructDef n m :=
  ⟨"__tuple_" ++ toString index, (Shape.tupleFieldNames types.length).zip types⟩

def getOrCreateTupleLowering (cap : Nat) (slots : List (Slot n m)) :
    Except FrontendError (Lowering n m) :=
  if slots ∈ st.cached then .ok st
  else if kMaxTuples ≤ st.tuples.length then .error .tooManyItems
  else
    match slots.mapM st.slotType with
    | .error e => .error e
    | .ok types => st.createStruct cap
        { st with tuples := st.tuples ++ [⟨slots, tupleDef st.tuples.length types⟩] }

def defineStruct (i : Fin n) (sd : StructDef n m) : Lowering n m :=
  { st with structDefs := Function.update st.structDefs i (some sd) }

def defineVariant (i : Fin m) (sd : StructDef n m) : Lowering n m :=
  { st with variantDefs := Function.update st.variantDefs i (some sd) }

/-! ## Structs -/

/-- The type of a field, or nothing where it has to wait for another declaration. -/
def fieldType (cap : Nat) : FieldType n m → Except FrontendError (Lowering n m × Option (Ty n m))
  | .error => .ok (st, some (.struct .error))
  | .shape (.one (.scalar k)) =>
    match k with
    | .bool | .i32 | .str => .ok (st, some (.scalar k))
    | _ => .error .unsupportedSyntax
  | .shape (.one (.variant i)) =>
    .ok (st, if st.built (.inr i) then some (.struct (.variant i)) else none)
  | .shape (.one (.struct i)) =>
    .ok (st, if st.built (.inl i) then some (.struct (.user i)) else none)
  | .shape (.tuple slots) =>
    match st.getOrCreateTupleLowering cap slots with
    | .error e => .error e
    | .ok st' => .ok (st', some (.struct (.tuple slots)))

/-- The fields in order, up to the first that has to wait. The tuples of the fields before it
stay. -/
def fieldDefs (cap : Nat) (st : Lowering n m) :
    List (String × FieldType n m) →
      Except FrontendError (Lowering n m × Option (List (String × Ty n m)))
  | [] => .ok (st, some [])
  | (name, field) :: rest =>
    match st.fieldType cap field with
    | .error e => .error e
    | .ok (st', none) => .ok (st', none)
    | .ok (st', some ty) =>
      match fieldDefs cap st' rest with
      | .error e => .error e
      | .ok (st'', defs) => .ok (st'', defs.map ((name, ty) :: ·))

end Lowering

/-! ## Payloads of variants -/

/-- What is noted of a variant's payloads before any carrier is built. Of `tuple`, `variant` and
`struct` each holds the first payload of its kind, and `shape` the one that was noted last. -/
structure PayloadInfo (n m : Nat) where
  tuple : Option (List (Slot n m)) := none
  variant : Option (Fin m) := none
  struct : Option (Fin n) := none
  shape : Option (FlatShape n m) := none
deriving DecidableEq, Repr

def PayloadInfo.note (info : PayloadInfo n m) :
    Option (FlatShape n m) → Except FrontendError (PayloadInfo n m)
  | none => .ok info
  | some (.one (.scalar _)) => .ok info
  | some (.tuple slots) =>
    match info.tuple with
    | none => .ok { info with tuple := some slots, shape := some (.tuple slots) }
    | some first => if first = slots then .ok info else .error .unsupportedSyntax
  | some (.one (.variant i)) =>
    match info.variant with
    | none => .ok { info with variant := some i, shape := some (.one (.variant i)) }
    | some first => if first = i then .ok info else .error .unsupportedSyntax
  | some (.one (.struct i)) =>
    match info.struct with
    | none => .ok { info with struct := some i, shape := some (.one (.struct i)) }
    | some first => if first = i then .ok info else .error .unsupportedSyntax

def VariantDecl.payloadInfo (v : VariantDecl n m) : Except FrontendError (PayloadInfo n m) :=
  v.cases.foldlM PayloadInfo.note {}

/-- The parts of a shape that the carrier of a variant is built from. -/
structure PayloadShape (n m : Nat) where
  tuple : List (Slot n m) := []
  variant : Option (Fin m) := none
  struct : Option (Fin n) := none
deriving DecidableEq, Repr

def FlatShape.payloadShape : FlatShape n m → PayloadShape n m
  | .one (.scalar _) => {}
  | .one (.variant i) => { variant := some i }
  | .one (.struct i) => { struct := some i }
  | .tuple slots => { tuple := slots }

def PayloadInfo.fallbackPayloadShape (info : PayloadInfo n m) : PayloadShape n m :=
  match info.tuple, info.variant, info.struct with
  | some (slot :: slots), _, _ => { tuple := slot :: slots }
  | _, some i, _ => { variant := some i }
  | _, _, some i => { struct := some i }
  | _, _, _ => {}

/-! ### Shapes with a carrier

`build_mir` works out beforehand which types can get a carrier at all. -/

def Scalar.ready : Scalar → Bool
  | .bool | .i32 | .str | .method => true
  | .byteSize | .ip => false

def Slot.ready (ready : Decl n m → Bool) : Slot n m → Bool
  | .scalar k => k.ready
  | .struct i => ready (.inl i)
  | .variant i => ready (.inr i)

/-- `shape_carrier_ready`. -/
def FlatShape.ready (ready : Decl n m → Bool) : FlatShape n m → Bool
  | .one s => s.ready ready
  | .tuple slots => slots.all (Slot.ready ready)

/-- `shape_slot_carrier_ready`: fields and payloads that are methods have no carrier. -/
def FlatShape.slotReady (ready : Decl n m → Bool) : FlatShape n m → Bool
  | .one (.scalar .method) => false
  | s => s.ready ready

/-- `field_carrier_ready`. -/
def FieldType.ready (ready : Decl n m → Bool) : FieldType n m → Bool
  | .error => true
  | .shape s => s.slotReady ready

namespace TypeDecls

variable (D : TypeDecls n m)

def declReady (ready : Decl n m → Bool) : Decl n m → Bool
  | .inl i => (D.structs i).fields.all fun f => f.2.ready ready
  | .inr i => (D.variants i).cases.all fun c => c.all fun s => s.slotReady ready

def readyJobs : Lib.Jobs (Decl n m → Bool) FrontendError (Decl n m) where
  done ready d := ready d
  attempt d ready :=
    .ok (if D.declReady ready d then (Function.update ready d true, true) else (ready, false))

/-- Each round that goes on finishes a declaration, so that many rounds and one more are enough. -/
def kRounds (n m : Nat) : Nat := (declarations n m).length + 1

def carrierReady (s : FlatShape n m) : Bool :=
  match D.readyJobs.rounds (declarations n m) (kRounds n m) fun _ => false with
  | .error _ => false
  | .ok ready => s.ready ready

def resolvedPayloadShape (info : PayloadInfo n m) : PayloadShape n m :=
  match info.shape with
  | some s => if D.carrierReady s then s.payloadShape else info.fallbackPayloadShape
  | none => info.fallbackPayloadShape

/-! ## Building -/

def buildUserStruct (i : Fin n) (st : Lowering n m) :
    Except FrontendError (Lowering n m × Bool) :=
  match st.fieldDefs D.structCap (D.structs i).fields with
  | .error e => .error e
  | .ok (st', none) => .ok (st', false)
  | .ok (st', some fields) =>
    st'.createStruct D.structCap (st'.defineStruct i ⟨(D.structs i).name, fields⟩, true)

/-- Where a variant waits: its payload is a variant or a struct without a carrier. -/
def waits (info : PayloadInfo n m) (shape : PayloadShape n m) (st : Lowering n m) : Bool :=
  (info.variant.isSome && !shape.variant.any fun i => st.built (.inr i)) ||
    (info.struct.isSome && !shape.struct.any fun i => st.built (.inl i))

def optional (present : Bool) (d : Option (StructRef n m)) : Ty n m :=
  match present, d with
  | true, some d => .optional (.struct d)
  | _, _ => .optional (.scalar .i32)

def carrierFields (info : PayloadInfo n m) (shape : PayloadShape n m) : List (String × Ty n m) :=
  [("tag", .scalar .i32),
    ("payload_bool", .optional (.scalar .bool)),
    ("payload_i32", .optional (.scalar .i32)),
    ("payload_str", .optional (.scalar .str)),
    ("payload_tuple", optional info.tuple.isSome (some (.tuple shape.tuple))),
    ("payload_variant", optional info.variant.isSome (shape.variant.map .variant)),
    ("payload_struct", optional info.struct.isSome (shape.struct.map .user))]

def buildVariantCarrier (i : Fin m) (st : Lowering n m) :
    Except FrontendError (Lowering n m × Bool) :=
  match (D.variants i).payloadInfo with
  | .error e => .error e
  | .ok info =>
    let shape := D.resolvedPayloadShape info
    if waits info shape st then .ok (st, false)
    else
      match (if info.tuple.isSome then st.getOrCreateTupleLowering D.structCap shape.tuple
        else .ok st) with
      | .error e => .error e
      | .ok st' => st'.createStruct D.structCap
          (st'.defineVariant i ⟨(D.variants i).name, carrierFields info shape⟩, true)

def jobs : Lib.Jobs (Lowering n m) FrontendError (Decl n m) where
  done := Lowering.built
  attempt
    | .inl i => D.buildUserStruct i
    | .inr i => D.buildVariantCarrier i

/-- The carriers of all declarations. The payloads of all variants are looked at first. -/
def lowerTypes : Except FrontendError (Lowering n m) :=
  match (List.finRange m).mapM fun i => (D.variants i).payloadInfo with
  | .error e => .error e
  | .ok _ =>
    match D.jobs.rounds (declarations n m) (kRounds n m) .init with
    | .error e => .error e
    | .ok st => if (declarations n m).all st.built then .ok st else .error .unsupportedSyntax

end TypeDecls

end Rut.Compiler.Carriers
