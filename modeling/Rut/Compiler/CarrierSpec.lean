import Rut.Compiler.Carriers

/-!
# What carriers should be

What the carriers of a module should be can be said without any order: `carrierDef` gives for each
declaration the definition in which every field and payload has the carrier of its declared type. A
lowering is `Faithful` where it has exactly these. Such definitions can be built one from the other
where no declaration contains itself.

The rounds of the lowering find a faithful outcome only where they meet every tuple late enough. A
field or a payload waits for the declaration it mentions, but a tuple does not wait for its slots: a
struct among them that is not built yet is an error, and a variant becomes an integer, for good,
since tuples are kept. `Settled` says of a run that this does not happen.
-/

namespace Rut.Compiler.Carriers

open List Lowering

variable {n m : Nat}

/-! ## What a declaration mentions -/

def Slot.decl : Slot n m → Option (Decl n m)
  | .scalar _ => none
  | .struct i => some (.inl i)
  | .variant i => some (.inr i)

def FlatShape.slots : FlatShape n m → List (Slot n m)
  | .one s => [s]
  | .tuple slots => slots

def FieldType.shape? : FieldType n m → Option (FlatShape n m)
  | .error => none
  | .shape s => some s

namespace TypeDecls

variable (D : TypeDecls n m)

def shapes : Decl n m → List (FlatShape n m)
  | .inl i => (D.structs i).fields.filterMap fun f => f.2.shape?
  | .inr i => (D.variants i).cases.filterMap id

/-- A declaration contains the declarations among its fields or payloads and among their slots. -/
def Contains (d e : Decl n m) : Prop :=
  ∃ shape ∈ D.shapes d, ∃ slot ∈ shape.slots, slot.decl = some e

instance (d e : Decl n m) : Decidable (D.Contains d e) :=
  inferInstanceAs (Decidable (∃ shape ∈ D.shapes d, ∃ slot ∈ shape.slots, slot.decl = some e))

def Acyclic : Prop := ∀ d, ¬ Relation.TransGen D.Contains d d

def Mentions (d : Decl n m) (slots : List (Slot n m)) : Prop := .tuple slots ∈ D.shapes d

/-- The declarations that are made of other ones only finitely deep. -/
def Grounded (d : Decl n m) : Prop := Acc (flip D.Contains) d

variable {D : TypeDecls n m}

theorem grounded_of_acyclic (h : D.Acyclic) :
    WellFounded (flip D.Contains) := by
  have hirrefl : Std.Irrefl (Relation.TransGen (flip D.Contains)) :=
    ⟨fun d hd => h d (Relation.transGen_swap.mp hd)⟩
  have hwf : WellFounded (Relation.TransGen (flip D.Contains)) :=
    Finite.wellFounded_of_trans_of_irrefl _
  exact Subrelation.wf (fun h => Relation.TransGen.single h) hwf

theorem acyclic_of_grounded (h : ∀ d, D.Grounded d) : D.Acyclic := by
  intro d hd
  have hwf : WellFounded (Relation.TransGen (flip D.Contains)) := (WellFounded.intro h).transGen
  exact hwf.irrefl.irrefl d (Relation.transGen_swap.mp hd)

/-- A rank that decreases excludes cycles. -/
theorem acyclic_of_rank (rank : Decl n m → Nat)
    (h : ∀ d e, D.Contains d e → rank e < rank d) : D.Acyclic := by
  have hwf : WellFounded (InvImage (· < ·) rank) := InvImage.wf rank wellFounded_lt
  exact acyclic_of_grounded (Subrelation.wf (fun hde => h _ _ hde) hwf).apply

end TypeDecls

/-! ## What the carriers should be -/

def Slot.carrier : Slot n m → Ty n m
  | .scalar k => .scalar k
  | .struct i => .struct (.user i)
  | .variant i => .struct (.variant i)

def FlatShape.carrier : FlatShape n m → Ty n m
  | .one s => s.carrier
  | .tuple slots => .struct (.tuple slots)

def FieldType.carrier : FieldType n m → Ty n m
  | .error => .struct .error
  | .shape s => s.carrier

def StructDecl.carrierDef (sd : StructDecl n m) : StructDef n m :=
  ⟨sd.name, sd.fields.map fun f => (f.1, f.2.carrier)⟩

/-- `payload_field_name`. -/
def FlatShape.payloadField : FlatShape n m → String
  | .one (.scalar .bool) => "payload_bool"
  | .one (.scalar .str) => "payload_str"
  | .one (.scalar _) => "payload_i32"
  | .one (.variant _) => "payload_variant"
  | .one (.struct _) => "payload_struct"
  | .tuple _ => "payload_tuple"

/-- The field for the payloads of one kind. Where no case has such a payload it is never read. -/
def VariantDecl.payloadType (v : VariantDecl n m) (field : String) : Ty n m :=
  match v.cases.findSome? fun c => c.filter fun s => s.payloadField == field with
  | some s => .optional s.carrier
  | none => .optional (.scalar .i32)

def VariantDecl.carrierDef (v : VariantDecl n m) : StructDef n m :=
  ⟨v.name,
    [("tag", .scalar .i32), ("payload_bool", .optional (.scalar .bool)),
      ("payload_i32", .optional (.scalar .i32)), ("payload_str", .optional (.scalar .str)),
      ("payload_tuple", v.payloadType "payload_tuple"),
      ("payload_variant", v.payloadType "payload_variant"),
      ("payload_struct", v.payloadType "payload_struct")]⟩

def tupleFields (slots : List (Slot n m)) : List (String × Ty n m) :=
  (Shape.tupleFieldNames slots.length).zip (slots.map Slot.carrier)

namespace TypeDecls

/-- Every declaration and every tuple it mentions has the carrier it should have, and every payload
a field of its type. -/
structure Faithful (D : TypeDecls n m) (st : Lowering n m) : Prop where
  structs : ∀ i, st.structDefs i = some (D.structs i).carrierDef
  variants : ∀ i, st.variantDefs i = some (D.variants i).carrierDef
  payloads : ∀ i shape, some shape ∈ (D.variants i).cases →
    (shape.payloadField, .optional shape.carrier) ∈ (D.variants i).carrierDef.fields
  tuples : ∀ slots, slots ∈ st.cached ↔ ∃ d, D.Mentions d slots
  fields : ∀ e ∈ st.tuples, e.structDef.fields = tupleFields e.slots

end TypeDecls

/-! ## What the lowering supports -/

def Scalar.Carried (k : Scalar) : Prop := k = .bool ∨ k = .i32 ∨ k = .str

def FlatShape.Carried : FlatShape n m → Prop
  | .one (.scalar k) => k.Carried
  | _ => True

/-- Payloads other than numbers, booleans and strings. -/
def FlatShape.Compound : FlatShape n m → Prop
  | .one (.scalar _) => False
  | _ => True

namespace TypeDecls

/-- Fields and payloads are of kinds that carriers have, the compound payloads of a variant are all
of one type, and the tuple types fit the table of tuples and, with a definition for every
declaration and for `Error`, the one of definitions. -/
structure Supported (D : TypeDecls n m) : Prop where
  carried : ∀ d, ∀ shape ∈ D.shapes d, shape.Carried
  alike : ∀ i, ∀ a ∈ D.shapes (.inr i), ∀ b ∈ D.shapes (.inr i), a.Compound → b.Compound → a = b
  room : ∃ all : List (List (Slot n m)), all.length ≤ kMaxTuples ∧
    1 + (n + m) + all.length ≤ D.structCap ∧ ∀ d slots, D.Mentions d slots → slots ∈ all

end TypeDecls

/-! ## Tuples met too early -/

def Slot.Built (st : Lowering n m) (s : Slot n m) : Prop := ∀ d, s.decl = some d → st.built d = true

instance (st : Lowering n m) (s : Slot n m) : Decidable (s.Built st) :=
  decidable_of_iff (s.decl.all st.built = true) (Option.all_eq_true ..)

def FieldType.waits (st : Lowering n m) : FieldType n m → Bool
  | .shape (.one s) => s.decl.any fun d => !st.built d
  | _ => false

/-- The tuples of the fields before the first that waits. -/
def requestedFields (st : Lowering n m) : List (String × FieldType n m) → List (List (Slot n m))
  | [] => []
  | (_, field) :: rest =>
    if field.waits st then []
    else
      match field with
      | .shape (.tuple slots) => slots :: requestedFields st rest
      | _ => requestedFields st rest

namespace TypeDecls

variable (D : TypeDecls n m)

/-- The tuples whose carriers an attempt asks for. -/
def requested (st : Lowering n m) : Decl n m → List (List (Slot n m))
  | .inl i => requestedFields st (D.structs i).fields
  | .inr i =>
    match (D.variants i).payloadInfo with
    | .error _ => []
    | .ok info =>
      let shape := D.resolvedPayloadShape info
      if waits info shape st then [] else if info.tuple.isSome then [shape.tuple] else []

/-- A tuple that gets its carrier in this attempt has all its slots built. -/
def SettledAt (st : Lowering n m) (d : Decl n m) : Prop :=
  ∀ slots ∈ D.requested st d, slots ∉ st.cached → ∀ s ∈ slots, s.Built st

instance (st : Lowering n m) (d : Decl n m) : Decidable (D.SettledAt st d) :=
  inferInstanceAs
    (Decidable (∀ slots ∈ D.requested st d, slots ∉ st.cached → ∀ s ∈ slots, s.Built st))

/-- So in every attempt of the lowering. -/
def Settled : Prop :=
  ∀ p ∈ D.jobs.attempts (declarations n m) (kRounds n m) .init, D.SettledAt p.2 p.1

instance : Decidable D.Settled :=
  inferInstanceAs (Decidable (∀ p ∈ D.jobs.attempts (declarations n m) (kRounds n m) .init,
    D.SettledAt p.2 p.1))

end TypeDecls

/-! ## The table of tuples -/

/-- The definitions are the same and the table of tuples has grown, by tuples with the types that
their slots have now. -/
structure Lowering.Grows (st st' : Lowering n m) : Prop where
  structDefs : st'.structDefs = st.structDefs
  variantDefs : st'.variantDefs = st.variantDefs
  tuples : st.tuples <+: st'.tuples
  fresh : ∀ e ∈ st'.tuples, e ∈ st.tuples ∨
    ∃ index types, e.slots.mapM st.slotType = .ok types ∧ e.structDef = tupleDef index types

namespace Lowering

variable {st st' st'' : Lowering n m} {slots : List (Slot n m)}

theorem Grows.refl (st : Lowering n m) : st.Grows st := ⟨rfl, rfl, prefix_rfl, fun _ => .inl⟩

theorem Grows.built (h : st.Grows st') : st'.built = st.built := by
  funext d
  cases d
  · simp only [Lowering.built, h.structDefs]
  · simp only [Lowering.built, h.variantDefs]

theorem Grows.slotType (h : st.Grows st') : st'.slotType = st.slotType := by
  funext s
  cases s <;> simp only [Lowering.slotType, h.built]

theorem Grows.trans (h : st.Grows st') (h' : st'.Grows st'') : st.Grows st'' where
  structDefs := h'.structDefs.trans h.structDefs
  variantDefs := h'.variantDefs.trans h.variantDefs
  tuples := h.tuples.trans h'.tuples
  fresh := by
    intro e he
    rcases h'.fresh e he with he | he
    · exact h.fresh e he
    · rw [h.slotType] at he
      exact .inr he

theorem Grows.mem_cached (h : st.Grows st') (hs : slots ∈ st.cached) : slots ∈ st'.cached :=
  (h.tuples.map TupleInfo.slots).subset hs

/-- A slot has its carrier just if it is built. -/
theorem slotType_eq_carrier {s : Slot n m} : st.slotType s = .ok s.carrier ↔ s.Built st := by
  cases s with
  | scalar k => simp [slotType, Slot.carrier, Slot.Built, Slot.decl]
  | struct i =>
    by_cases h : st.built (.inl i) <;> simp [slotType, Slot.carrier, Slot.Built, Slot.decl, h]
  | variant i =>
    by_cases h : st.built (.inr i) <;> simp [slotType, Slot.carrier, Slot.Built, Slot.decl, h]

theorem mapM_slotType {slots : List (Slot n m)} :
    slots.mapM st.slotType = .ok (slots.map Slot.carrier) ↔ ∀ s ∈ slots, s.Built st := by
  induction slots with
  | nil => simp [pure, Except.pure]
  | cons s slots ih =>
    rw [forall_mem_cons, ← ih, ← slotType_eq_carrier, mapM_cons]
    cases hs : st.slotType s with
    | error e => simp [bind, Except.bind]
    | ok ty =>
      cases hrest : slots.mapM st.slotType with
      | error e => simp [bind, Except.bind]
      | ok types => simp [bind, Except.bind, pure, Except.pure]

theorem length_of_mapM {types : List (Ty n m)} (h : slots.mapM st.slotType = .ok types) :
    types.length = slots.length := by
  induction slots generalizing types with
  | nil => cases h; rfl
  | cons s slots ih =>
    rw [mapM_cons] at h
    cases hs : st.slotType s with
    | error e => simp [hs, bind, Except.bind] at h
    | ok ty =>
      cases hrest : slots.mapM st.slotType with
      | error e => simp [hs, hrest, bind, Except.bind] at h
      | ok rest =>
        simp only [hs, hrest, bind, Except.bind, pure, Except.pure, Except.ok.injEq] at h
        rw [← h, length_cons, length_cons, ih hrest]

theorem createStruct_eq_ok {α : Type} {cap : Nat} {created r : α} :
    st.createStruct cap created = .ok r ↔ st.structCount < cap ∧ created = r := by
  unfold createStruct
  split
  next hfull => simp [Nat.not_lt.mpr hfull]
  next hroom => simp [Nat.lt_of_not_le hroom]

variable {cap : Nat}

/-- A tuple is found in the table, or it is added with the types its slots have now. -/
theorem getOrCreate_ok (h : st.getOrCreateTupleLowering cap slots = .ok st') :
    slots ∈ st.cached ∧ st' = st ∨
      slots ∉ st.cached ∧ ∃ types, slots.mapM st.slotType = .ok types ∧
        st' = { st with tuples := st.tuples ++ [⟨slots, tupleDef st.tuples.length types⟩] } := by
  unfold getOrCreateTupleLowering at h
  split at h
  next hmem => exact .inl ⟨hmem, by cases h; rfl⟩
  next hmem =>
    split at h
    next => cases h
    next =>
      split at h
      next => cases h
      next types htypes => exact .inr ⟨hmem, types, htypes, (createStruct_eq_ok.mp h).2.symm⟩

theorem getOrCreate_grows (h : st.getOrCreateTupleLowering cap slots = .ok st') : st.Grows st' := by
  obtain ⟨_, rfl⟩ | ⟨_, types, htypes, rfl⟩ := getOrCreate_ok h
  · exact .refl _
  · refine ⟨rfl, rfl, prefix_append _ _, fun e he => ?_⟩
    rcases mem_append.mp he with he | he
    · exact .inl he
    · cases mem_singleton.mp he
      exact .inr ⟨_, types, htypes, rfl⟩

/-- A tuple is kept once it has been asked for. -/
theorem mem_cached_of_getOrCreate (h : st.getOrCreateTupleLowering cap slots = .ok st') :
    slots ∈ st'.cached := by
  obtain ⟨hmem, rfl⟩ | ⟨_, types, _, rfl⟩ := getOrCreate_ok h
  · exact hmem
  · simp [cached]

theorem tupleDef_fields (index : Nat) (slots : List (Slot n m)) :
    (tupleDef index (slots.map Slot.carrier)).fields = tupleFields slots := by
  simp [tupleDef, tupleFields]

/-- The fields of a tuple's definition give its types back. -/
theorem types_of_tupleDef {index : Nat} {types : List (Ty n m)} (hlen : types.length = slots.length)
    (h : (tupleDef index types).fields = tupleFields slots) : types = slots.map Slot.carrier := by
  have hsnd := congrArg (List.map Prod.snd) h
  simp only [tupleDef, tupleFields, hlen] at hsnd
  rw [map_snd_zip, map_snd_zip] at hsnd
  · exact hsnd
  · simp
  · simp [hlen]

end Lowering

/-- The tuples of the table are tuples of the declarations, each once, with built slots and with the
carriers they should have. -/
structure TableInv (D : TypeDecls n m) (st : Lowering n m) : Prop where
  fields : ∀ e ∈ st.tuples, e.structDef.fields = tupleFields e.slots
  built : ∀ slots ∈ st.cached, ∀ s ∈ slots, s.Built st
  mentioned : ∀ slots ∈ st.cached, ∃ d, D.Mentions d slots
  nodup : st.cached.Nodup

section table

variable {D : TypeDecls n m} {st st' : Lowering n m} {slots : List (Slot n m)}

theorem Slot.Built.mono (hmono : ∀ d, st.built d = true → st'.built d = true) {s : Slot n m}
    (h : s.Built st) : s.Built st' := fun d hd => hmono d (h d hd)

/-- Only the tuples and what is built matter to the table. -/
theorem TableInv.congr (h : TableInv D st) (htuples : st'.tuples = st.tuples)
    (hmono : ∀ d, st.built d = true → st'.built d = true) : TableInv D st' := by
  have hcached : st'.cached = st.cached := by simp only [cached, htuples]
  refine ⟨by rw [htuples]; exact h.fields, ?_, by rw [hcached]; exact h.mentioned,
    by rw [hcached]; exact h.nodup⟩
  intro slots hslots s hs
  rw [hcached] at hslots
  exact (h.built slots hslots s hs).mono hmono

theorem length_built_le (st : Lowering n m) :
    ((declarations n m).filter st.built).length ≤ n + m := by
  simpa [declarations] using length_filter_le st.built (declarations n m)

theorem length_built_lt {d : Decl n m} (hd : st.built d = false) :
    ((declarations n m).filter st.built).length < n + m := by
  have hlt : ((declarations n m).filter st.built).length < (declarations n m).length :=
    length_filter_lt_length_iff_exists.mpr ⟨d, mem_declarations d, by simp [hd]⟩
  simpa [declarations] using hlt

/-- There is room for a tuple that is not in the table yet. -/
theorem TableInv.tuple_fits (h : TableInv D st) (hD : D.Supported)
    (hmentioned : ∃ d, D.Mentions d slots) (hnew : slots ∉ st.cached) :
    st.tuples.length < kMaxTuples ∧ st.structCount < D.structCap := by
  obtain ⟨all, hlen, hcap, hall⟩ := hD.room
  have hsub : slots :: st.cached ⊆ all := by
    intro t ht
    rcases mem_cons.mp ht with rfl | ht
    · obtain ⟨d, hd⟩ := hmentioned
      exact hall d t hd
    · obtain ⟨d, hd⟩ := h.mentioned t ht
      exact hall d t hd
  have hnodup : (slots :: st.cached).Nodup := nodup_cons.mpr ⟨hnew, h.nodup⟩
  have hle := (subperm_of_subset hnodup hsub).length_le
  have hbuilt := length_built_le st
  simp only [length_cons, cached, length_map] at hle
  unfold structCount
  omega

/-- There is room for the carrier of a declaration that has none yet. -/
theorem TableInv.decl_fits (h : TableInv D st) (hD : D.Supported) {d : Decl n m}
    (hd : st.built d = false) : st.structCount < D.structCap := by
  obtain ⟨all, _, hcap, hall⟩ := hD.room
  have hsub : st.cached ⊆ all := fun t ht => (h.mentioned t ht).elim fun d hd => hall d t hd
  have hle := (subperm_of_subset h.nodup hsub).length_le
  have hbuilt := length_built_lt hd
  simp only [cached, length_map] at hle
  unfold structCount
  omega

/-- A tuple whose slots are built gets the carrier it should have. -/
theorem TableInv.getOrCreate (h : TableInv D st) (hD : D.Supported)
    (hmentioned : ∃ d, D.Mentions d slots)
    (hsettled : slots ∉ st.cached → ∀ s ∈ slots, s.Built st) :
    ∃ st', st.getOrCreateTupleLowering D.structCap slots = .ok st' ∧ TableInv D st' ∧
      slots ∈ st'.cached := by
  by_cases hmem : slots ∈ st.cached
  · exact ⟨st, by simp [getOrCreateTupleLowering, hmem], h, hmem⟩
  · have hbuilt := hsettled hmem
    obtain ⟨hroom, hcap⟩ := h.tuple_fits hD hmentioned hmem
    have htypes := mapM_slotType.mpr hbuilt
    refine ⟨{ st with tuples := st.tuples ++
      [⟨slots, tupleDef st.tuples.length (slots.map Slot.carrier)⟩] }, ?_, ?_, ?_⟩
    · simp [getOrCreateTupleLowering, hmem, htypes, Nat.not_le.mpr hroom,
        createStruct_eq_ok, hcap]
    · refine ⟨?_, ?_, ?_, ?_⟩
      · intro e he
        rcases mem_append.mp he with he | he
        · exact h.fields e he
        · cases mem_singleton.mp he
          exact tupleDef_fields _ _
      · intro t ht
        simp only [cached, map_append, mem_append] at ht
        rcases ht with ht | ht
        · exact h.built t ht
        · cases mem_singleton.mp ht
          exact hbuilt
      · intro t ht
        simp only [cached, map_append, mem_append] at ht
        rcases ht with ht | ht
        · exact h.mentioned t ht
        · cases mem_singleton.mp ht
          exact hmentioned
      · simp only [cached, map_append, map_cons, map_nil]
        exact nodup_append.mpr ⟨h.nodup, nodup_singleton _, by
          intro a ha b hb hab
          cases mem_singleton.mp hb
          exact hmem (hab ▸ ha)⟩
    · simp [cached]

end table

/-! ## Structs -/

section fields

variable {D : TypeDecls n m} {st st' : Lowering n m}

/-- What a field brings along: a kind that carriers have, and tuples of the module. -/
def FieldType.Of (D : TypeDecls n m) (field : FieldType n m) : Prop :=
  ∀ shape, field.shape? = some shape →
    shape.Carried ∧ ∀ slots, shape = .tuple slots → ∃ d, D.Mentions d slots

theorem waits_congr (h : st.Grows st') (field : FieldType n m) :
    field.waits st' = field.waits st := by
  simp only [FieldType.waits, h.built]

theorem requestedFields_congr (h : st.Grows st') (fields : List (String × FieldType n m)) :
    requestedFields st' fields = requestedFields st fields := by
  induction fields with
  | nil => rfl
  | cons f fields ih =>
    simp only [requestedFields, waits_congr h, ih]

theorem built_congr (h : st.Grows st') {s : Slot n m} (hs : s.Built st) : s.Built st' :=
  hs.mono fun d hd => by rw [h.built]; exact hd

/-- One field: it waits, or it has the type it should have. -/
theorem fieldType_settled (hD : D.Supported) (hT : TableInv D st) {field : FieldType n m}
    (hfield : field.Of D)
    (hsettled : ∀ slots, field = .shape (.tuple slots) → slots ∉ st.cached →
      ∀ s ∈ slots, s.Built st) :
    ∃ st', st.fieldType D.structCap field =
        .ok (st', if field.waits st then none else some field.carrier) ∧
      st.Grows st' ∧ TableInv D st' ∧
      ∀ slots, field = .shape (.tuple slots) → slots ∈ st'.cached := by
  match field with
  | .error => exact ⟨st, rfl, .refl st, hT, by simp⟩
  | .shape (.one (.scalar k)) =>
    have hk : k.Carried := (hfield _ rfl).1
    refine ⟨st, ?_, .refl st, hT, by simp⟩
    rcases hk with rfl | rfl | rfl <;> rfl
  | .shape (.one (.variant i)) =>
    refine ⟨st, ?_, .refl st, hT, by simp⟩
    cases h : st.built (.inr i) <;>
      simp [fieldType, FieldType.waits, FieldType.carrier, FlatShape.carrier, Slot.carrier,
        Slot.decl, h]
  | .shape (.one (.struct i)) =>
    refine ⟨st, ?_, .refl st, hT, by simp⟩
    cases h : st.built (.inl i) <;>
      simp [fieldType, FieldType.waits, FieldType.carrier, FlatShape.carrier, Slot.carrier,
        Slot.decl, h]
  | .shape (.tuple slots) =>
    have hmentioned := (hfield _ rfl).2 slots rfl
    obtain ⟨st', hok, hT', hmem⟩ := hT.getOrCreate hD hmentioned (hsettled slots rfl)
    refine ⟨st', ?_, getOrCreate_grows hok, hT', ?_⟩
    · simp [fieldType, hok, FieldType.waits, FieldType.carrier, FlatShape.carrier]
    · intro t ht
      cases ht
      exact hmem

/-- The fields of a struct: one of them waits, or all have the types they should have. -/
theorem fieldDefs_settled (hD : D.Supported) (fields : List (String × FieldType n m))
    (hT : TableInv D st) (hfields : ∀ f ∈ fields, f.2.Of D)
    (hsettled : ∀ slots ∈ requestedFields st fields, slots ∉ st.cached → ∀ s ∈ slots, s.Built st) :
    ∃ st' r, st.fieldDefs D.structCap fields = .ok (st', r) ∧ st.Grows st' ∧ TableInv D st' ∧
      (r = none ∧ (∃ f ∈ fields, f.2.waits st = true) ∨
        r = some (fields.map fun f => (f.1, f.2.carrier)) ∧ (∀ f ∈ fields, f.2.waits st = false) ∧
          ∀ f ∈ fields, ∀ slots, f.2 = .shape (.tuple slots) → slots ∈ st'.cached) := by
  induction fields generalizing st with
  | nil => exact ⟨st, some [], rfl, .refl st, hT, .inr ⟨rfl, by simp, by simp⟩⟩
  | cons f fields ih =>
    obtain ⟨name, field⟩ := f
    rw [forall_mem_cons] at hfields
    have hfirst : ∀ slots, field = .shape (.tuple slots) → slots ∉ st.cached →
        ∀ s ∈ slots, s.Built st := by
      rintro slots rfl
      exact hsettled slots (by simp [requestedFields, FieldType.waits])
    obtain ⟨st₁, hok, hgrows, hT₁, hmem⟩ := fieldType_settled hD hT hfields.1 hfirst
    cases hwaits : field.waits st with
    | true =>
      refine ⟨st₁, none, by simp [fieldDefs, hok, hwaits], hgrows, hT₁, .inl ⟨rfl, ?_⟩⟩
      exact ⟨(name, field), mem_cons_self, hwaits⟩
    | false =>
      have hrest : ∀ slots ∈ requestedFields st₁ fields, slots ∉ st₁.cached →
          ∀ s ∈ slots, s.Built st₁ := by
        intro slots hslots hnew s hs
        rw [requestedFields_congr hgrows] at hslots
        have hmem' : slots ∈ requestedFields st ((name, field) :: fields) := by
          simp only [requestedFields, hwaits, Bool.false_eq_true, if_false]
          split
          · exact mem_cons_of_mem _ hslots
          · exact hslots
        exact built_congr hgrows (hsettled slots hmem' (fun h => hnew (hgrows.mem_cached h)) s hs)
      obtain ⟨st₂, r, hok₂, hgrows₂, hT₂, hr⟩ := ih hT₁ hfields.2 hrest
      refine ⟨st₂, r.map ((name, field.carrier) :: ·), ?_, hgrows.trans hgrows₂, hT₂, ?_⟩
      · simp [fieldDefs, hok, hwaits, hok₂]
      · simp only [waits_congr hgrows] at hr
        rcases hr with ⟨rfl, f, hf, hwait⟩ | ⟨rfl, hnone, hcached⟩
        · exact .inl ⟨rfl, f, mem_cons_of_mem _ hf, hwait⟩
        · refine .inr ⟨rfl, forall_mem_cons.mpr ⟨hwaits, hnone⟩, ?_⟩
          rw [forall_mem_cons]
          exact ⟨fun slots h => hgrows₂.mem_cached (hmem slots h), hcached⟩

end fields

/-! ## Variants -/

section payloads

variable {D : TypeDecls n m} {st : Lowering n m}

/-- What is noted of the payloads where all compound ones are of one type. -/
def infoOf : Option (FlatShape n m) → PayloadInfo n m
  | none => {}
  | some (.one (.scalar _)) => {}
  | some (.one (.variant i)) => { variant := some i, shape := some (.one (.variant i)) }
  | some (.one (.struct i)) => { struct := some i, shape := some (.one (.struct i)) }
  | some (.tuple slots) => { tuple := some slots, shape := some (.tuple slots) }

def payloadShapeOf : Option (FlatShape n m) → PayloadShape n m
  | none => {}
  | some s => s.payloadShape

/-- The shape in use is the one noted, whether or not it was found to have a carrier. -/
theorem resolvedPayloadShape_infoOf (D : TypeDecls n m) (c : Option (FlatShape n m)) :
    D.resolvedPayloadShape (infoOf c) = payloadShapeOf c := by
  match c with
  | none => rfl
  | some (.one (.scalar _)) => rfl
  | some (.one (.variant i)) => simp [TypeDecls.resolvedPayloadShape, infoOf, payloadShapeOf,
      FlatShape.payloadShape, PayloadInfo.fallbackPayloadShape]
  | some (.one (.struct i)) => simp [TypeDecls.resolvedPayloadShape, infoOf, payloadShapeOf,
      FlatShape.payloadShape, PayloadInfo.fallbackPayloadShape]
  | some (.tuple slots) => cases slots <;> simp [TypeDecls.resolvedPayloadShape, infoOf,
      payloadShapeOf, FlatShape.payloadShape, PayloadInfo.fallbackPayloadShape]

variable {s : FlatShape n m} {c : Option (FlatShape n m)} {v : VariantDecl n m}

theorem note_compound (hs : s.Compound) (hc : c = none ∨ c = some s) :
    (infoOf c).note (some s) = .ok (infoOf (some s)) := by
  match s with
  | .one (.scalar _) => cases hs
  | .one (.variant i) => rcases hc with rfl | rfl <;> simp [infoOf, PayloadInfo.note]
  | .one (.struct i) => rcases hc with rfl | rfl <;> simp [infoOf, PayloadInfo.note]
  | .tuple slots => rcases hc with rfl | rfl <;> simp [infoOf, PayloadInfo.note]

/-- The compound payload of a variant, if it has one. -/
def IsPayload (cases : List (Option (FlatShape n m))) (c : Option (FlatShape n m)) : Prop :=
  (∀ s, c = some s → s.Compound ∧ some s ∈ cases) ∧ ∀ s, some s ∈ cases → s.Compound → c = some s

theorem foldlM_note (cases : List (Option (FlatShape n m))) (c : Option (FlatShape n m))
    (hc : ∀ s, c = some s → s.Compound)
    (halike : ∀ a b, (c = some a ∨ some a ∈ cases) → (c = some b ∨ some b ∈ cases) →
      a.Compound → b.Compound → a = b) :
    ∃ c', cases.foldlM PayloadInfo.note (infoOf c) = .ok (infoOf c') ∧
      (∀ s, c' = some s → s.Compound ∧ (c = some s ∨ some s ∈ cases)) ∧
      ∀ s, (c = some s ∨ some s ∈ cases) → s.Compound → c' = some s := by
  induction cases generalizing c with
  | nil =>
    refine ⟨c, rfl, fun s hs => ⟨hc s hs, .inl hs⟩, ?_⟩
    rintro s (hs | hs) _
    · exact hs
    · cases hs
  | cons p cases ih =>
    -- What is noted after the first case: its payload where that is compound, and `c` otherwise.
    have hnote : ∃ c₁, (infoOf c).note p = .ok (infoOf c₁) ∧
        (∀ s, c₁ = some s → s.Compound ∧ (c = some s ∨ p = some s)) ∧
        (∀ s, (c = some s ∨ p = some s) → s.Compound → c₁ = some s) := by
      by_cases hp : ∃ s, p = some s ∧ s.Compound
      · obtain ⟨s, rfl, hs⟩ := hp
        have hsame : ∀ a, c = some a → a = s := fun a ha =>
          halike a s (.inl ha) (.inr mem_cons_self) (hc a ha) hs
        have hcs : c = none ∨ c = some s := by
          cases c with
          | none => exact .inl rfl
          | some a => exact .inr (by rw [hsame a rfl])
        refine ⟨some s, note_compound hs hcs, ?_, ?_⟩
        · intro t ht
          cases ht
          exact ⟨hs, .inr rfl⟩
        · rintro t (ht | ht) _
          · rw [hsame t ht]
          · exact ht
      · refine ⟨c, ?_, fun s hs => ⟨hc s hs, .inl hs⟩, ?_⟩
        · match p with
          | none => rfl
          | some (.one (.scalar k)) => rfl
          | some (.one (.variant i)) => exact absurd ⟨_, rfl, trivial⟩ hp
          | some (.one (.struct i)) => exact absurd ⟨_, rfl, trivial⟩ hp
          | some (.tuple slots) => exact absurd ⟨_, rfl, trivial⟩ hp
        · rintro s (hs | hs) hcompound
          · exact hs
          · exact absurd ⟨s, hs, hcompound⟩ hp
    obtain ⟨c₁, hok, hfrom, hto⟩ := hnote
    have hmem : ∀ a, c₁ = some a → c = some a ∨ some a ∈ p :: cases := by
      intro a ha
      refine (hfrom a ha).2.imp_right fun hp => ?_
      rw [hp]
      exact mem_cons_self
    have hall : ∀ a, (c₁ = some a ∨ some a ∈ cases) → c = some a ∨ some a ∈ p :: cases :=
      fun a ha => ha.elim (hmem a) fun h => .inr (mem_cons_of_mem _ h)
    obtain ⟨c', hok', hfrom', hto'⟩ := ih c₁ (fun s hs => (hfrom s hs).1)
      fun a b ha hb => halike a b (hall a ha) (hall b hb)
    refine ⟨c', by simp [foldlM_cons, hok, hok', bind, Except.bind], ?_, ?_⟩
    · intro s hs
      exact ⟨(hfrom' s hs).1, hall s (hfrom' s hs).2⟩
    · intro s hs hcompound
      apply hto' s _ hcompound
      rcases hs with hs | hs
      · exact .inl (hto s (.inl hs) hcompound)
      · rcases mem_cons.mp hs with hs | hs
        · exact .inl (hto s (.inr hs.symm) hcompound)
        · exact .inr hs

/-- Supported payloads can be noted. -/
theorem payloadInfo_supported (hD : D.Supported) (i : Fin m) :
    ∃ c, (D.variants i).payloadInfo = .ok (infoOf c) ∧ IsPayload (D.variants i).cases c := by
  have hmem : ∀ s, some s ∈ (D.variants i).cases → s ∈ D.shapes (.inr i) := by
    intro s hs
    simpa [TypeDecls.shapes] using hs
  obtain ⟨c, hok, hfrom, hto⟩ := foldlM_note (D.variants i).cases none (by simp) (by
    simp only [reduceCtorEq, false_or]
    intro a b ha hb
    exact hD.alike i a (hmem a ha) b (hmem b hb))
  simp only [reduceCtorEq, false_or] at hfrom hto
  exact ⟨c, hok, hfrom, hto⟩

theorem payloadType_of_mem (hs : some s ∈ v.cases)
    (honly : ∀ t, some t ∈ v.cases → t.payloadField = s.payloadField → t = s) :
    v.payloadType s.payloadField = .optional s.carrier := by
  unfold VariantDecl.payloadType
  cases hfind : v.cases.findSome? fun c => c.filter fun t => t.payloadField == s.payloadField with
  | none =>
    rw [List.findSome?_eq_none_iff] at hfind
    have := hfind (some s) hs
    simp at this
  | some t =>
    obtain ⟨c, hc, ht⟩ := exists_of_findSome?_eq_some hfind
    simp only [Option.filter_eq_some_iff, beq_iff_eq] at ht
    rw [honly t (ht.1 ▸ hc) ht.2]

theorem payloadType_of_none {field : String}
    (hnone : ∀ t, some t ∈ v.cases → t.payloadField ≠ field) :
    v.payloadType field = .optional (.scalar .i32) := by
  unfold VariantDecl.payloadType
  cases hfind : v.cases.findSome? fun c => c.filter fun t => t.payloadField == field with
  | none => rfl
  | some t =>
    obtain ⟨c, hc, ht⟩ := exists_of_findSome?_eq_some hfind
    simp only [Option.filter_eq_some_iff, beq_iff_eq] at ht
    exact absurd ht.2 (hnone t (ht.1 ▸ hc))

theorem compound_of_payloadField
    (h : s.payloadField = "payload_tuple" ∨ s.payloadField = "payload_variant" ∨
      s.payloadField = "payload_struct") : s.Compound := by
  match s with
  | .one (.scalar k) => cases k <;> simp [FlatShape.payloadField] at h
  | .one (.variant i) => trivial
  | .one (.struct i) => trivial
  | .tuple slots => trivial

/-- A field for compound payloads of a kind is for the one compound payload of the variant. -/
theorem payloadType_eq (hc : IsPayload v.cases c) {field : String}
    (hfield : field = "payload_tuple" ∨ field = "payload_variant" ∨ field = "payload_struct") :
    v.payloadType field =
      match c.filter fun s => s.payloadField == field with
      | some s => .optional s.carrier
      | none => .optional (.scalar .i32) := by
  have honly : ∀ t, some t ∈ v.cases → t.payloadField = field → c = some t := fun t ht hf =>
    hc.2 t ht (compound_of_payloadField (hf ▸ hfield))
  split
  next s hs =>
    simp only [Option.filter_eq_some_iff, beq_iff_eq] at hs
    obtain ⟨rfl, rfl⟩ := hs
    apply payloadType_of_mem (hc.1 s rfl).2
    intro t ht hf
    exact (Option.some.inj (honly t ht hf)).symm
  next hs =>
    apply payloadType_of_none
    intro t ht hf
    rw [honly t ht hf] at hs
    simp [hf] at hs

theorem carrierFields_eq (hc : IsPayload v.cases c) :
    TypeDecls.carrierFields (infoOf c) (payloadShapeOf c) = v.carrierDef.fields := by
  simp only [TypeDecls.carrierFields, VariantDecl.carrierDef, payloadType_eq hc, true_or, or_true]
  match c with
  | none => rfl
  | some (.one (.scalar k)) => exact absurd (hc.1 _ rfl).1 id
  | some (.one (.variant i)) => rfl
  | some (.one (.struct i)) => rfl
  | some (.tuple slots) => rfl

end payloads

end Rut.Compiler.Carriers
