import Rut.Compiler.CarrierSpec

/-!
# Carriers do not depend on the order of declarations

From the fields and payloads of one declaration to the rounds over all of them: `Sound` holds along
every run that meets its tuples late enough, and the declarations that such a run leaves over wait
for each other. What it builds is determined by the declarations alone, so that another order of
them gives the same carriers.
-/

namespace Rut.Compiler.Carriers

open List Lowering TypeDecls FlatShape

variable {n m : Nat}

/-! ## Attempts -/

theorem Lowering.built_defineStruct (st : Lowering n m) (i : Fin n) (sd : StructDef n m)
    (e : Decl n m) : (st.defineStruct i sd).built e = (st.built e || decide (e = .inl i)) := by
  rcases e with j | j
  · by_cases hj : j = i <;> simp [built, defineStruct, hj]
  · simp [built, defineStruct]

theorem Lowering.built_defineVariant (st : Lowering n m) (i : Fin m) (sd : StructDef n m)
    (e : Decl n m) : (st.defineVariant i sd).built e = (st.built e || decide (e = .inr i)) := by
  rcases e with j | j
  · simp [built, defineVariant]
  · by_cases hj : j = i <;> simp [built, defineVariant, hj]

/-- What is built is what it should be, and was built from what was there before. -/
structure Sound (D : TypeDecls n m) (st : Lowering n m) : Prop where
  table : TableInv D st
  structs : ∀ i sd, st.structDefs i = some sd → sd = (D.structs i).carrierDef
  variants : ∀ i sd, st.variantDefs i = some sd → sd = (D.variants i).carrierDef
  cached : ∀ d, st.built d = true → ∀ slots, D.Mentions d slots → slots ∈ st.cached
  grounded : ∀ d, st.built d = true → D.Grounded d

variable {d : Decl n m}

section attempts

variable {D : TypeDecls n m} {st st' : Lowering n m}

theorem Sound.init (D : TypeDecls n m) : Sound D .init := by
  have hbuilt : ∀ d, (Lowering.init : Lowering n m).built d = false := by
    rintro (i | i) <;> rfl
  refine ⟨⟨?_, ?_, ?_, ?_⟩, ?_, ?_, ?_, ?_⟩ <;> simp [Lowering.init, Lowering.cached] <;>
    simp [← Lowering.init.eq_1, hbuilt]

/-- An attempt that has to wait leaves new tuples at most. -/
theorem Sound.grow (h : Sound D st) (hgrows : st.Grows st') (hT : TableInv D st') :
    Sound D st' where
  table := hT
  structs := by rw [hgrows.structDefs]; exact h.structs
  variants := by rw [hgrows.variantDefs]; exact h.variants
  cached := by
    intro d hd slots hslots
    rw [hgrows.built] at hd
    exact hgrows.mem_cached (h.cached d hd slots hslots)
  grounded := by rw [hgrows.built]; exact h.grounded

/-- A declaration is built: nothing else changes, and it is made of what is built. -/
theorem Sound.finish (h : Sound D st)
    (hbuilt : ∀ e, st'.built e = (st.built e || decide (e = d))) (htuples : st'.tuples = st.tuples)
    (hstructs : ∀ i sd, st'.structDefs i = some sd → sd = (D.structs i).carrierDef)
    (hvariants : ∀ i sd, st'.variantDefs i = some sd → sd = (D.variants i).carrierDef)
    (hcontains : ∀ e, D.Contains d e → st.built e = true)
    (hcached : ∀ slots, D.Mentions d slots → slots ∈ st.cached) : Sound D st' := by
  have hsame : st'.cached = st.cached := by simp only [Lowering.cached, htuples]
  have hor : ∀ e, st'.built e = true → st.built e = true ∨ e = d := by
    intro e he
    simpa [hbuilt] using he
  refine ⟨h.table.congr htuples fun e he => by simp [hbuilt, he], hstructs, hvariants, ?_, ?_⟩
  · intro e he slots hslots
    rw [hsame]
    rcases hor e he with he | rfl
    · exact h.cached e he slots hslots
    · exact hcached slots hslots
  · intro e he
    rcases hor e he with he | rfl
    · exact h.grounded e he
    · exact Acc.intro e fun e' he' => h.grounded e' (hcontains e' he')

/-- What a field that waits is waiting for. -/
theorem contains_of_waits {i : Fin n} {f : String × FieldType n m} (hf : f ∈ (D.structs i).fields)
    (hwaits : f.2.waits st = true) : ∃ e, D.Contains (.inl i) e ∧ st.built e = false := by
  match hfield : f.2, hwaits with
  | .shape (.one s), hwaits =>
    simp only [FieldType.waits, Option.any_eq_true, Bool.not_eq_true'] at hwaits
    obtain ⟨e, hdecl, hopen⟩ := hwaits
    refine ⟨e, ⟨.one s, ?_, s, mem_singleton_self s, hdecl⟩, hopen⟩
    simp only [shapes, mem_filterMap]
    exact ⟨f, hf, by rw [hfield]; rfl⟩

variable {i : Fin m} {shape : FlatShape n m} {c : Option (FlatShape n m)}

theorem mem_shapes_struct {i : Fin n} :
    shape ∈ D.shapes (.inl i) ↔ ∃ f ∈ (D.structs i).fields, f.2 = .shape shape := by
  simp only [shapes, mem_filterMap]
  refine exists_congr fun f => and_congr_right fun _ => ?_
  cases f.2 <;> simp [FieldType.shape?]

/-- A struct none of whose fields waits is made of what is built. -/
theorem built_of_not_waits {i : Fin n} (hT : TableInv D st)
    (hnone : ∀ f ∈ (D.structs i).fields, f.2.waits st = false)
    (hcached : ∀ slots, D.Mentions (.inl i) slots → slots ∈ st.cached) (e : Decl n m)
    (he : D.Contains (.inl i) e) : st.built e = true := by
  obtain ⟨shape, hshape, slot, hslot, hdecl⟩ := he
  cases shape with
  | tuple slots => exact hT.built slots (hcached slots hshape) slot hslot e hdecl
  | one s =>
    cases mem_singleton.mp hslot
    obtain ⟨f, hf, hfield⟩ := mem_shapes_struct.mp hshape
    have hwait := hnone f hf
    simpa [hfield, FieldType.waits, hdecl] using hwait

/-- An attempt at a struct. -/
theorem buildUserStruct_settled (hD : D.Supported) (h : Sound D st) {i : Fin n}
    (hopen : st.built (.inl i) = false) (hsettled : D.SettledAt st (.inl i)) :
    ∃ r, D.buildUserStruct i st = .ok r ∧ Sound D r.1 ∧
      (r.2 = false → ∃ e, D.Contains (.inl i) e ∧ st.built e = false) := by
  have hfields : ∀ f ∈ (D.structs i).fields, f.2.Of D := by
    intro f hf shape hshape
    have hmem : shape ∈ D.shapes (.inl i) := mem_filterMap.mpr ⟨f, hf, hshape⟩
    refine ⟨hD.carried _ shape hmem, ?_⟩
    rintro slots rfl
    exact ⟨_, hmem⟩
  obtain ⟨st', r, hok, hgrows, hT, hr⟩ := fieldDefs_settled hD _ h.table hfields hsettled
  have hsound := h.grow hgrows hT
  rcases hr with ⟨rfl, f, hf, hwaits⟩ | ⟨rfl, hnone, hcached⟩
  · exact ⟨(st', false), by simp only [buildUserStruct, hok], hsound,
      fun _ => contains_of_waits hf hwaits⟩
  · have hroom := hT.decl_fits hD (hgrows.built ▸ hopen)
    refine ⟨(st'.defineStruct i (D.structs i).carrierDef, true), ?_, ?_, by simp⟩
    · simp only [buildUserStruct, hok]
      exact createStruct_eq_ok.mpr ⟨hroom, rfl⟩
    have hmentions : ∀ slots, D.Mentions (.inl i) slots → slots ∈ st'.cached := by
      intro slots hslots
      obtain ⟨f, hf, hfield⟩ := mem_shapes_struct.mp hslots
      exact hcached f hf slots hfield
    have hnone' : ∀ f ∈ (D.structs i).fields, f.2.waits st' = false := by
      intro f hf
      rw [waits_congr hgrows]
      exact hnone f hf
    refine hsound.finish (built_defineStruct st' i _) rfl ?_ hsound.variants
      (built_of_not_waits hT hnone' hmentions) hmentions
    intro j sd hsd
    by_cases hj : j = i
    · subst hj
      simpa [defineStruct] using hsd.symm
    · simp only [defineStruct, Function.update_apply, hj, if_false] at hsd
      exact hsound.structs j sd hsd

theorem mem_shapes_variant : shape ∈ D.shapes (.inr i) ↔ some shape ∈ (D.variants i).cases := by
  simp [shapes]

/-- A variant waits for its payload. -/
theorem contains_of_waits_payload (hc : IsPayload (D.variants i).cases c)
    (hwaits : waits (infoOf c) (payloadShapeOf c) st = true) :
    ∃ e, D.Contains (.inr i) e ∧ st.built e = false := by
  match c with
  | none => simp [waits, infoOf] at hwaits
  | some (.one (.scalar k)) => simp [waits, infoOf] at hwaits
  | some (.tuple slots) => simp [waits, infoOf] at hwaits
  | some (.one (.variant j)) =>
    have hmem := mem_shapes_variant.mpr (hc.1 _ rfl).2
    refine ⟨.inr j, ⟨_, hmem, _, mem_singleton_self _, rfl⟩, ?_⟩
    simpa [waits, infoOf, payloadShapeOf, payloadShape] using hwaits
  | some (.one (.struct j)) =>
    have hmem := mem_shapes_variant.mpr (hc.1 _ rfl).2
    refine ⟨.inl j, ⟨_, hmem, _, mem_singleton_self _, rfl⟩, ?_⟩
    simpa [waits, infoOf, payloadShapeOf, payloadShape] using hwaits

theorem compound_of_decl {slot : Slot n m} {e : Decl n m} (hslot : slot ∈ shape.slots)
    (hdecl : slot.decl = some e) : shape.Compound := by
  match shape with
  | .one (.scalar k) =>
    cases mem_singleton.mp hslot
    cases hdecl
  | .one (.variant j) => trivial
  | .one (.struct j) => trivial
  | .tuple slots => trivial

/-- A variant that does not wait is made of what is built. -/
theorem built_of_not_waits_payload (hT : TableInv D st) (hc : IsPayload (D.variants i).cases c)
    (hwaits : waits (infoOf c) (payloadShapeOf c) st = false)
    (hcached : ∀ slots, c = some (.tuple slots) → slots ∈ st.cached) (e : Decl n m)
    (he : D.Contains (.inr i) e) : st.built e = true := by
  obtain ⟨shape, hshape, slot, hslot, hdecl⟩ := he
  have hcompound := compound_of_decl hslot hdecl
  obtain rfl := hc.2 shape (mem_shapes_variant.mp hshape) hcompound
  match shape with
  | .one (.scalar k) => cases hcompound
  | .tuple slots => exact hT.built slots (hcached slots rfl) slot hslot e hdecl
  | .one (.variant j) =>
    cases mem_singleton.mp hslot
    cases hdecl
    simpa [waits, infoOf, payloadShapeOf, payloadShape] using hwaits
  | .one (.struct j) =>
    cases mem_singleton.mp hslot
    cases hdecl
    simpa [waits, infoOf, payloadShapeOf, payloadShape] using hwaits

theorem infoOf_tuple (c : Option (FlatShape n m)) :
    (infoOf c).tuple.isSome = true ↔ ∃ slots, c = some (.tuple slots) := by
  match c with
  | none => simp [infoOf]
  | some (.one (.scalar k)) => simp [infoOf]
  | some (.one (.variant j)) => simp [infoOf]
  | some (.one (.struct j)) => simp [infoOf]
  | some (.tuple slots) => simp [infoOf]

/-- The tuple of a variant's payload, if it has one, is looked up or created. -/
theorem payloadTuple_settled (hD : D.Supported) (hT : TableInv D st)
    (hinfo : (D.variants i).payloadInfo = .ok (infoOf c)) (hc : IsPayload (D.variants i).cases c)
    (hwaits : waits (infoOf c) (payloadShapeOf c) st = false)
    (hsettled : D.SettledAt st (.inr i)) :
    ∃ st', (if (infoOf c).tuple.isSome then
        st.getOrCreateTupleLowering D.structCap (payloadShapeOf c).tuple else .ok st) = .ok st' ∧
      st.Grows st' ∧ TableInv D st' ∧
      ∀ slots, c = some (.tuple slots) → slots ∈ st'.cached := by
  by_cases htuple : (infoOf c).tuple.isSome = true
  · obtain ⟨slots, rfl⟩ := (infoOf_tuple c).mp htuple
    have hmentioned : D.Mentions (.inr i) slots := mem_shapes_variant.mpr (hc.1 _ rfl).2
    have hnew : slots ∉ st.cached → ∀ s ∈ slots, s.Built st := by
      apply hsettled slots
      simp only [requested, hinfo, resolvedPayloadShape_infoOf, hwaits, htuple]
      exact mem_singleton_self _
    obtain ⟨st', hok, hT', hmem⟩ := hT.getOrCreate hD ⟨_, hmentioned⟩ hnew
    refine ⟨st', by rw [if_pos htuple]; exact hok, getOrCreate_grows hok, hT', ?_⟩
    intro t ht
    cases ht
    exact hmem
  · refine ⟨st, by simp only [htuple]; rfl, .refl st, hT, ?_⟩
    intro slots hslots
    exact absurd ((infoOf_tuple c).mpr ⟨slots, hslots⟩) htuple

/-- An attempt at a variant. -/
theorem buildVariantCarrier_settled (hD : D.Supported) (h : Sound D st)
    (hopen : st.built (.inr i) = false) (hsettled : D.SettledAt st (.inr i)) :
    ∃ r, D.buildVariantCarrier i st = .ok r ∧ Sound D r.1 ∧
      (r.2 = false → ∃ e, D.Contains (.inr i) e ∧ st.built e = false) := by
  obtain ⟨c, hinfo, hc⟩ := payloadInfo_supported hD i
  cases hwaits : waits (infoOf c) (payloadShapeOf c) st with
  | true =>
    refine ⟨(st, false), ?_, h, fun _ => contains_of_waits_payload hc hwaits⟩
    simp only [buildVariantCarrier, hinfo, resolvedPayloadShape_infoOf, hwaits, if_true]
  | false =>
    obtain ⟨st', hok, hgrows, hT, hcached⟩ :=
      payloadTuple_settled hD h.table hinfo hc hwaits hsettled
    have hsound := h.grow hgrows hT
    refine ⟨(st'.defineVariant i (D.variants i).carrierDef, true), ?_, ?_, by simp⟩
    · simp only [buildVariantCarrier, hinfo, resolvedPayloadShape_infoOf, hwaits, hok,
        carrierFields_eq hc]
      exact createStruct_eq_ok.mpr ⟨hT.decl_fits hD (hgrows.built ▸ hopen), rfl⟩
    have hwaits' : waits (infoOf c) (payloadShapeOf c) st' = false := by
      simpa only [waits, hgrows.built] using hwaits
    have hmentions : ∀ slots, D.Mentions (.inr i) slots → slots ∈ st'.cached := fun slots hslots =>
      hcached slots (hc.2 _ (mem_shapes_variant.mp hslots) trivial)
    refine hsound.finish (built_defineVariant st' i _) rfl hsound.structs ?_
      (built_of_not_waits_payload hT hc hwaits' hcached) hmentions
    intro j sd hsd
    by_cases hj : j = i
    · subst hj
      simpa [defineVariant] using hsd.symm
    · simp only [defineVariant, Function.update_apply, hj, if_false] at hsd
      exact hsound.variants j sd hsd

/-- An attempt that meets its tuples late enough builds its declaration as it should be, or waits
for one that it contains. -/
theorem attempt_settled (hD : D.Supported) (h : Sound D st)
    (hopen : st.built d = false) (hsettled : D.SettledAt st d) :
    ∃ r, D.jobs.attempt d st = .ok r ∧ Sound D r.1 ∧
      (r.2 = false → ∃ e, D.Contains d e ∧ st.built e = false) :=
  match d with
  | .inl _ => buildUserStruct_settled hD h hopen hsettled
  | .inr _ => buildVariantCarrier_settled hD h hopen hsettled

end attempts

/-! ## Whole runs -/

section runs

variable {D : TypeDecls n m} {st st' : Lowering n m} {cap : Nat}

/-- What any attempt at a field does, met early or not. -/
theorem fieldType_ok {field : FieldType n m} {r : Option (Ty n m)}
    (h : st.fieldType cap field = .ok (st', r)) :
    st.Grows st' ∧ (r = none → field.waits st = true) ∧
      ∀ slots, field = .shape (.tuple slots) → slots ∈ st'.cached := by
  match field with
  | .error =>
    cases h
    exact ⟨.refl _, by simp, by simp⟩
  | .shape (.one (.scalar k)) =>
    cases k <;> cases h <;> exact ⟨.refl _, by simp, by simp⟩
  | .shape (.one (.variant i)) =>
    cases h
    refine ⟨.refl _, ?_, by simp⟩
    cases hb : st.built (.inr i) <;> simp [FieldType.waits, Slot.decl, hb]
  | .shape (.one (.struct i)) =>
    cases h
    refine ⟨.refl _, ?_, by simp⟩
    cases hb : st.built (.inl i) <;> simp [FieldType.waits, Slot.decl, hb]
  | .shape (.tuple slots) =>
    simp only [fieldType] at h
    split at h
    next => cases h
    next st₁ hok =>
      cases h
      refine ⟨getOrCreate_grows hok, by simp, ?_⟩
      intro t ht
      cases ht
      exact mem_cached_of_getOrCreate hok

theorem fieldDefs_ok (fields : List (String × FieldType n m))
    {r : Option (List (String × Ty n m))} (h : st.fieldDefs cap fields = .ok (st', r)) :
    st.Grows st' ∧ ∀ slots ∈ requestedFields st fields, slots ∈ st'.cached := by
  induction fields generalizing st st' r with
  | nil =>
    cases h
    exact ⟨.refl _, by simp [requestedFields]⟩
  | cons f fields ih =>
    obtain ⟨name, field⟩ := f
    simp only [fieldDefs] at h
    split at h
    next => cases h
    next st₁ hok =>
      cases h
      obtain ⟨hgrows, hwaits, _⟩ := fieldType_ok hok
      exact ⟨hgrows, by simp [requestedFields, hwaits rfl]⟩
    next st₁ ty hok =>
      split at h
      next => cases h
      next st₂ defs hrest =>
        cases h
        obtain ⟨hgrows, _, hmem⟩ := fieldType_ok hok
        obtain ⟨hgrows', hmem'⟩ := ih hrest
        refine ⟨hgrows.trans hgrows', fun slots hslots => ?_⟩
        rw [requestedFields_congr hgrows] at hmem'
        simp only [requestedFields] at hslots
        split at hslots
        next => cases hslots
        next =>
          split at hslots
          next t =>
            rcases mem_cons.mp hslots with rfl | hslots
            · exact hgrows'.mem_cached (hmem _ rfl)
            · exact hmem' slots hslots
          next => exact hmem' slots hslots

/-- An attempt lets the table grow by the tuples it asks for, and builds its declaration or none. -/
theorem attempt_ok {b : Bool} (h : D.jobs.attempt d st = .ok (st', b)) :
    ∃ st₁, st.Grows st₁ ∧ (∀ slots ∈ D.requested st d, slots ∈ st₁.cached) ∧
      st'.tuples = st₁.tuples ∧ ∀ e, st'.built e = (st₁.built e || (b && decide (e = d))) := by
  cases d with
  | inl i =>
    simp only [jobs, buildUserStruct] at h
    split at h
    next => cases h
    next st₁ hok =>
      cases h
      obtain ⟨hgrows, hmem⟩ := fieldDefs_ok _ hok
      exact ⟨_, hgrows, hmem, rfl, by simp⟩
    next st₁ fields hok =>
      cases (createStruct_eq_ok.mp h).2
      obtain ⟨hgrows, hmem⟩ := fieldDefs_ok _ hok
      exact ⟨st₁, hgrows, hmem, rfl, by simpa using built_defineStruct st₁ i _⟩
  | inr i =>
    simp only [jobs, buildVariantCarrier] at h
    split at h
    next => cases h
    next info hinfo =>
      simp only [requested, hinfo]
      split at h
      next hwaits =>
        cases h
        exact ⟨_, .refl _, by simp [hwaits], rfl, by simp⟩
      next hwaits =>
        split at h
        next => cases h
        next st₁ hok =>
          cases (createStruct_eq_ok.mp h).2
          have hgrows : st.Grows st₁ ∧ (info.tuple.isSome = true →
              (D.resolvedPayloadShape info).tuple ∈ st₁.cached) := by
            split at hok
            next => exact ⟨getOrCreate_grows hok,
              fun _ => mem_cached_of_getOrCreate hok⟩
            next hnone =>
              cases hok
              exact ⟨.refl _, fun h => absurd h hnone⟩
          refine ⟨st₁, hgrows.1, ?_, rfl, by simpa using built_defineVariant st₁ i _⟩
          intro slots hslots
          rw [if_neg hwaits] at hslots
          split at hslots
          next htuple =>
            cases mem_singleton.mp hslots
            exact hgrows.2 htuple
          next => cases hslots

theorem jobs_marks (D : TypeDecls n m) : D.jobs.Marks := by
  intro d st st' b h e
  obtain ⟨st₁, hgrows, _, _, hbuilt⟩ := attempt_ok h
  show st'.built e = _
  rw [hbuilt, hgrows.built]
  rfl

/-- There are rounds enough. -/
theorem left_lt_kRounds (D : TypeDecls n m) (st : Lowering n m) :
    D.jobs.left (declarations n m) st < kRounds n m :=
  Nat.lt_succ_of_le (Lib.Jobs.left_le _ _ _)

/-- The rounds of a settled run end, with sound carriers, and what is not built then waits. -/
theorem rounds_settled (hD : D.Supported) (hsettled : D.Settled) :
    ∃ st, D.jobs.rounds (declarations n m) (kRounds n m) .init = .ok st ∧ Sound D st ∧
      ∀ d, st.built d = false → ∃ e, D.Contains d e ∧ st.built e = false := by
  obtain ⟨hall, st, hok, hsound⟩ := Lib.Jobs.rounds_invariant (J := D.jobs) (P := Sound D)
    (declarations n m) (kRounds n m) .init (fun p hp hopen hinv => by
      obtain ⟨r, hr, hsound, _⟩ := attempt_settled hD hinv hopen (hsettled p hp)
      exact ⟨r, hr, hsound⟩) (.init D)
  refine ⟨st, hok, hsound, fun d hd => ?_⟩
  have hstuck := (jobs_marks D).rounds_stuck (left_lt_kRounds D .init) hok
  obtain ⟨st₁, st₂, hp, hattempt, hsame⟩ := hstuck d (mem_declarations d) hd
  obtain ⟨r, hr, _, hwaits⟩ := attempt_settled hD (hall _ hp).2 (hall _ hp).1 (hsettled _ hp)
  cases hattempt.symm.trans hr
  obtain ⟨e, hcontains, hopen⟩ := hwaits rfl
  exact ⟨e, hcontains, by rw [← hopen]; exact (congrFun hsame e).symm⟩

theorem payloadInfos_ok (hD : D.Supported) :
    ∃ infos, (List.finRange m).mapM (fun i => (D.variants i).payloadInfo) = .ok infos := by
  generalize List.finRange m = is
  induction is with
  | nil => exact ⟨[], rfl⟩
  | cons i is ih =>
    obtain ⟨infos, hinfos⟩ := ih
    obtain ⟨c, hc, _⟩ := payloadInfo_supported hD i
    refine ⟨infoOf c :: infos, ?_⟩
    simp [mapM_cons, hc, hinfos, bind, Except.bind, pure, Except.pure]

theorem payload_mem_carrierDef (hD : D.Supported) {i : Fin m} {shape : FlatShape n m}
    (hshape : some shape ∈ (D.variants i).cases) :
    (shape.payloadField, .optional shape.carrier) ∈ (D.variants i).carrierDef.fields := by
  have hmem := mem_shapes_variant.mpr hshape
  have honly : ∀ t, some t ∈ (D.variants i).cases → t.payloadField = shape.payloadField →
      shape.Compound → t.Compound → t = shape := fun t ht _ hs ht' =>
    hD.alike i t (mem_shapes_variant.mpr ht) shape hmem ht' hs
  match shape with
  | .one (.scalar k) =>
    have hk : k.Carried := hD.carried _ _ hmem
    rcases hk with rfl | rfl | rfl <;>
      simp [VariantDecl.carrierDef, payloadField, carrier, Slot.carrier]
  | .one (.variant j) =>
    have hty := payloadType_of_mem hshape fun t ht hf =>
      honly t ht hf trivial (compound_of_payloadField (.inr (.inl hf)))
    simp only [payloadField] at hty
    simp [VariantDecl.carrierDef, payloadField, hty]
  | .one (.struct j) =>
    have hty := payloadType_of_mem hshape fun t ht hf =>
      honly t ht hf trivial (compound_of_payloadField (.inr (.inr hf)))
    simp only [payloadField] at hty
    simp [VariantDecl.carrierDef, payloadField, hty]
  | .tuple slots =>
    have hty := payloadType_of_mem hshape fun t ht hf =>
      honly t ht hf trivial (compound_of_payloadField (.inl hf))
    simp only [payloadField] at hty
    simp [VariantDecl.carrierDef, payloadField, hty]

/-- With everything built, the outcome is faithful. -/
theorem Sound.faithful (h : Sound D st) (hD : D.Supported) (hall : ∀ d, st.built d = true) :
    D.Faithful st where
  structs i := by
    obtain ⟨sd, hsd⟩ := Option.isSome_iff_exists.mp (hall (.inl i))
    rw [hsd, h.structs i sd hsd]
  variants i := by
    obtain ⟨sd, hsd⟩ := Option.isSome_iff_exists.mp (hall (.inr i))
    rw [hsd, h.variants i sd hsd]
  payloads _ _ hshape := payload_mem_carrierDef hD hshape
  tuples slots := ⟨h.table.mentioned slots, fun ⟨d, hd⟩ => h.cached d (hall d) slots hd⟩
  fields := h.table.fields

/-- A settled run on declarations that do not contain themselves gives faithful carriers. -/
theorem lowerTypes_acyclic (hD : D.Supported) (hsettled : D.Settled) (hacyclic : D.Acyclic) :
    ∃ st, D.lowerTypes = .ok st ∧ D.Faithful st := by
  obtain ⟨st, hok, hsound, hwaits⟩ := rounds_settled hD hsettled
  -- A declaration left over contains another one left over, which can not go on for ever.
  have hall : ∀ d, st.built d = true := by
    intro d
    induction d using (grounded_of_acyclic hacyclic).induction with
    | _ d ih =>
      by_contra hopen
      obtain ⟨e, hcontains, he⟩ := hwaits d (Bool.eq_false_iff.mpr hopen)
      rw [ih e hcontains] at he
      cases he
  obtain ⟨infos, hinfos⟩ := payloadInfos_ok hD
  refine ⟨st, ?_, hsound.faithful hD hall⟩
  simp only [lowerTypes, hinfos, hok]
  exact if_pos (all_eq_true.mpr fun d _ => hall d)

/-- A settled run on declarations of which one contains itself ends with an error. -/
theorem lowerTypes_cyclic (hD : D.Supported) (hsettled : D.Settled) (hcyclic : ¬ D.Acyclic) :
    D.lowerTypes = .error .unsupportedSyntax := by
  obtain ⟨st, hok, hsound, _⟩ := rounds_settled hD hsettled
  obtain ⟨infos, hinfos⟩ := payloadInfos_ok hD
  simp only [lowerTypes, hinfos, hok]
  apply if_neg
  intro hall
  rw [all_eq_true] at hall
  exact hcyclic (acyclic_of_grounded fun d =>
    hsound.grounded d (hall d (mem_declarations d)))

/-- A run with faithful carriers met every tuple late enough: one met too early stays as it is. -/
theorem settled_of_faithful (hok : D.lowerTypes = .ok st) (h : D.Faithful st) : D.Settled := by
  have hrounds : D.jobs.rounds (declarations n m) (kRounds n m) .init = .ok st := by
    unfold lowerTypes at hok
    split at hok
    next => cases hok
    next =>
      split at hok
      next => cases hok
      next st' hst' =>
        split at hok
        · cases hok
          exact hst'
        · cases hok
  have hstays := (Lib.Jobs.rounds_extends
    (R := fun st st' : Lowering n m => st.tuples <+: st'.tuples) (fun _ => prefix_rfl)
    (fun _ _ _ => List.IsPrefix.trans) (fun d st st' b h => by
      obtain ⟨st₁, hgrows, _, htuples, _⟩ := attempt_ok h
      rw [htuples]
      exact hgrows.tuples) hrounds).2
  intro p hp slots hslots hnew
  obtain ⟨⟨st', b⟩, hattempt, hext⟩ := hstays p hp
  obtain ⟨st₁, hgrows, hmem, htuples, _⟩ := attempt_ok hattempt
  obtain ⟨e, he, rfl⟩ := mem_map.mp (hmem slots hslots)
  rcases hgrows.fresh e he with hold | ⟨index, types, htypes, hdef⟩
  · exact absurd (mem_map_of_mem hold) hnew
  · have hlast : e ∈ st.tuples := hext.subset (htuples ▸ he)
    have hfields := h.fields e hlast
    rw [hdef] at hfields
    rw [types_of_tupleDef (length_of_mapM htypes) hfields] at htypes
    exact mapM_slotType.mp htypes

end runs

/-! ## Declarations in another order -/

section rename

variable (f : Fin n → Fin n) (g : Fin m → Fin m)

def Slot.rename : Slot n m → Slot n m
  | .scalar k => .scalar k
  | .struct i => .struct (f i)
  | .variant i => .variant (g i)

def FlatShape.rename : FlatShape n m → FlatShape n m
  | .one s => .one (s.rename f g)
  | .tuple slots => .tuple (slots.map (Slot.rename f g))

def FieldType.rename : FieldType n m → FieldType n m
  | .error => .error
  | .shape s => .shape (s.rename f g)

def StructDecl.rename (sd : StructDecl n m) : StructDecl n m :=
  ⟨sd.name, sd.fields.map fun field => (field.1, field.2.rename f g)⟩

def VariantDecl.rename (v : VariantDecl n m) : VariantDecl n m :=
  ⟨v.name, v.cases.map (Option.map (FlatShape.rename f g))⟩

def StructRef.rename : StructRef n m → StructRef n m
  | .error => .error
  | .user i => .user (f i)
  | .variant i => .variant (g i)
  | .tuple slots => .tuple (slots.map (Slot.rename f g))

def Ty.rename : Ty n m → Ty n m
  | .scalar k => .scalar k
  | .optional inner => .optional inner.rename
  | .struct d => .struct (d.rename f g)

def StructDef.renameFields (fields : List (String × Ty n m)) : List (String × Ty n m) :=
  fields.map fun field => (field.1, field.2.rename f g)

def StructDef.rename (sd : StructDef n m) : StructDef n m :=
  ⟨sd.name, StructDef.renameFields f g sd.fields⟩

variable {f g}

theorem carrier_slot_rename (s : Slot n m) : (s.rename f g).carrier = s.carrier.rename f g := by
  cases s <;> rfl

theorem carrier_shape_rename (s : FlatShape n m) :
    (s.rename f g).carrier = s.carrier.rename f g := by
  cases s with
  | one s => exact carrier_slot_rename s
  | tuple slots => rfl

theorem carrier_field_rename (field : FieldType n m) :
    (field.rename f g).carrier = field.carrier.rename f g := by
  cases field with
  | error => rfl
  | shape s => exact carrier_shape_rename s

theorem carrierDef_struct_rename (sd : StructDecl n m) :
    (sd.rename f g).carrierDef = sd.carrierDef.rename f g := by
  simp [StructDecl.carrierDef, StructDecl.rename, StructDef.rename, StructDef.renameFields,
    carrier_field_rename]

theorem payloadField_rename (s : FlatShape n m) : (s.rename f g).payloadField = s.payloadField := by
  match s with
  | .one (.scalar k) => rfl
  | .one (.variant i) => rfl
  | .one (.struct i) => rfl
  | .tuple slots => rfl

theorem payloadType_rename (v : VariantDecl n m) (field : String) :
    (v.rename f g).payloadType field = (v.payloadType field).rename f g := by
  have hfind : ((v.rename f g).cases.findSome? fun c => c.filter fun s => s.payloadField == field) =
      (v.cases.findSome? fun c => c.filter fun s => s.payloadField == field).map
        (FlatShape.rename f g) := by
    simp only [VariantDecl.rename, List.findSome?_map]
    induction v.cases with
    | nil => rfl
    | cons c cases ih =>
      simp only [List.findSome?_cons, Function.comp_apply, ih]
      cases c with
      | none => rfl
      | some s =>
        by_cases hs : s.payloadField = field <;>
          simp [Option.filter, payloadField_rename, hs]
  unfold VariantDecl.payloadType
  rw [hfind]
  cases v.cases.findSome? fun c => c.filter fun s => s.payloadField == field with
  | none => rfl
  | some s => simp [Ty.rename, carrier_shape_rename]

theorem carrierDef_variant_rename (v : VariantDecl n m) :
    (v.rename f g).carrierDef = v.carrierDef.rename f g := by
  simp only [VariantDecl.carrierDef, payloadType_rename]
  rfl

theorem tupleFields_rename (slots : List (Slot n m)) :
    tupleFields (slots.map (Slot.rename f g)) = StructDef.renameFields f g (tupleFields slots) := by
  have hcarriers : (slots.map (Slot.rename f g)).map Slot.carrier =
      (slots.map Slot.carrier).map (Ty.rename f g) := by
    simp [carrier_slot_rename]
  simp only [tupleFields, StructDef.renameFields, hcarriers, length_map]
  exact zip_map_right

theorem decl_rename (s : Slot n m) : (s.rename f g).decl = s.decl.map (Sum.map f g) := by
  cases s <;> rfl

theorem carried_rename (s : FlatShape n m) : (s.rename f g).Carried ↔ s.Carried := by
  match s with
  | .one (.scalar k) => rfl
  | .one (.variant i) => rfl
  | .one (.struct i) => rfl
  | .tuple slots => rfl

theorem compound_rename (s : FlatShape n m) : (s.rename f g).Compound ↔ s.Compound := by
  match s with
  | .one (.scalar k) => rfl
  | .one (.variant i) => rfl
  | .one (.struct i) => rfl
  | .tuple slots => rfl

theorem rename_slot_injective (hf : f.Injective) (hg : g.Injective) :
    Function.Injective (Slot.rename f g) := by
  rintro (a | a | a) (b | b | b) hab <;> simp only [Slot.rename, reduceCtorEq] at hab
  · exact hab
  · cases hf (Slot.struct.inj hab)
    rfl
  · cases hg (Slot.variant.inj hab)
    rfl

theorem rename_shape_injective (hf : f.Injective) (hg : g.Injective) :
    Function.Injective (rename f g) := by
  rintro (a | a) (b | b) hab <;> simp only [rename, reduceCtorEq] at hab
  · cases rename_slot_injective hf hg (one.inj hab)
    rfl
  · cases (map_injective_iff.mpr (rename_slot_injective hf hg)) (tuple.inj hab)
    rfl

end rename

section reorder

variable (σ : Equiv.Perm (Fin n)) (τ : Equiv.Perm (Fin m))

/-- The same declarations, the one at `i` now at `σ i` or `τ i`. -/
def TypeDecls.reorder (D : TypeDecls n m) : TypeDecls n m where
  structs i := (D.structs (σ.symm i)).rename σ τ
  variants i := (D.variants (τ.symm i)).rename σ τ
  openStructs := D.openStructs
  openVariants := D.openVariants

/-- The same carriers, up to the places of declarations and the numbers of tuples. -/
structure Lowering.Same (st st' : Lowering n m) : Prop where
  structs : ∀ i, st'.structDefs (σ i) = (st.structDefs i).map (StructDef.rename σ τ)
  variants : ∀ i, st'.variantDefs (τ i) = (st.variantDefs i).map (StructDef.rename σ τ)
  tuples : ∀ slots, slots.map (Slot.rename σ τ) ∈ st'.cached ↔ slots ∈ st.cached
  fields : ∀ e ∈ st.tuples, ∀ e' ∈ st'.tuples, e'.slots = e.slots.map (Slot.rename σ τ) →
    e'.structDef.fields = StructDef.renameFields σ τ e.structDef.fields

def SameOutcome : Except FrontendError (Lowering n m) → Except FrontendError (Lowering n m) → Prop
  | .ok st, .ok st' => st.Same σ τ st'
  | .error e, .error e' => e = e'
  | _, _ => False

variable {σ τ} {D : TypeDecls n m}

theorem shapes_reorder (d : Decl n m) :
    (D.reorder σ τ).shapes (Sum.map σ τ d) = (D.shapes d).map (FlatShape.rename σ τ) := by
  cases d with
  | inl i =>
    simp only [shapes, reorder, StructDecl.rename, Sum.map_inl,
      Equiv.symm_apply_apply, filterMap_map, map_filterMap]
    apply filterMap_congr
    intro field _
    simp only [Function.comp_apply]
    cases field.2 <;> rfl
  | inr i =>
    simp only [shapes, reorder, VariantDecl.rename, Sum.map_inr,
      Equiv.symm_apply_apply, filterMap_map, map_filterMap]
    apply filterMap_congr
    intro c _
    cases c <;> rfl

theorem exists_decl (d : Decl n m) : ∃ e, Sum.map σ τ e = d := by
  cases d with
  | inl i => exact ⟨.inl (σ.symm i), by simp⟩
  | inr i => exact ⟨.inr (τ.symm i), by simp⟩

theorem mentions_reorder {slots : List (Slot n m)} :
    (D.reorder σ τ).Mentions (Sum.map σ τ d) (slots.map (Slot.rename σ τ)) ↔
      D.Mentions d slots := by
  unfold TypeDecls.Mentions
  rw [shapes_reorder]
  exact mem_map_of_injective (rename_shape_injective σ.injective τ.injective)
    (a := .tuple slots)

theorem contains_reorder {e : Decl n m} :
    (D.reorder σ τ).Contains (Sum.map σ τ d) (Sum.map σ τ e) ↔ D.Contains d e := by
  unfold TypeDecls.Contains
  rw [shapes_reorder]
  constructor
  · rintro ⟨_, hshape, slot, hslot, hdecl⟩
    obtain ⟨shape, hmem, rfl⟩ := mem_map.mp hshape
    have hslots : (shape.rename σ τ).slots = shape.slots.map (Slot.rename σ τ) := by
      cases shape <;> rfl
    rw [hslots] at hslot
    obtain ⟨slot, hmem', rfl⟩ := mem_map.mp hslot
    rw [decl_rename, ← Option.map_some] at hdecl
    have hinj : Function.Injective (Sum.map σ τ) := σ.injective.sumMap τ.injective
    exact ⟨shape, hmem, slot, hmem', Option.map_injective hinj hdecl⟩
  · rintro ⟨shape, hshape, slot, hslot, hdecl⟩
    refine ⟨_, mem_map_of_mem hshape, slot.rename σ τ, ?_, by rw [decl_rename, hdecl]; rfl⟩
    cases shape with
    | one s => exact mem_singleton.mpr (by rw [mem_singleton.mp hslot])
    | tuple slots => exact mem_map_of_mem hslot

theorem acyclic_reorder : (D.reorder σ τ).Acyclic ↔ D.Acyclic := by
  constructor
  · intro h d hd
    exact h _ (hd.lift (Sum.map σ τ) fun _ _ => contains_reorder.mpr)
  · intro h d hd
    -- Back through the inverse, which takes what is contained to what was contained.
    have hback : ∀ d, Sum.map σ τ (Sum.map σ.symm τ.symm d) = d := by
      rintro (i | i) <;> simp
    refine h _ (hd.lift (Sum.map σ.symm τ.symm) fun a b hab => ?_)
    rw [← hback a, ← hback b] at hab
    exact contains_reorder.mp hab

/-- The order does not matter to what is supported. -/
theorem supported_reorder (hD : D.Supported) : (D.reorder σ τ).Supported where
  carried d := by
    obtain ⟨d, rfl⟩ := exists_decl (σ := σ) (τ := τ) d
    rw [shapes_reorder]
    intro shape hshape
    obtain ⟨shape, hmem, rfl⟩ := mem_map.mp hshape
    exact (carried_rename shape).mpr (hD.carried d shape hmem)
  alike i := by
    have hi : (Sum.inr i : Decl n m) = Sum.map σ τ (.inr (τ.symm i)) := by simp
    rw [hi, shapes_reorder]
    intro a ha b hb hca hcb
    obtain ⟨a, hma, rfl⟩ := mem_map.mp ha
    obtain ⟨b, hmb, rfl⟩ := mem_map.mp hb
    rw [hD.alike _ a hma b hmb ((compound_rename a).mp hca) ((compound_rename b).mp hcb)]
  room := by
    obtain ⟨all, hlen, hcap, hall⟩ := hD.room
    refine ⟨all.map (List.map (Slot.rename σ τ)), by simpa using hlen, ?_, ?_⟩
    · rwa [length_map]
    intro d slots hslots
    obtain ⟨d, rfl⟩ := exists_decl (σ := σ) (τ := τ) d
    unfold TypeDecls.Mentions at hslots
    rw [shapes_reorder] at hslots
    obtain ⟨shape, hshape, hrename⟩ := mem_map.mp hslots
    cases shape with
    | one s => cases hrename
    | tuple slots =>
      cases hrename
      exact mem_map_of_mem (hall d slots hshape)

/-- Faithful carriers are the same carriers. -/
theorem same_of_faithful {st st' : Lowering n m} (h : D.Faithful st)
    (h' : (D.reorder σ τ).Faithful st') : st.Same σ τ st' where
  structs i := by
    rw [h'.structs, h.structs, Option.map_some, ← carrierDef_struct_rename]
    simp [reorder]
  variants i := by
    rw [h'.variants, h.variants, Option.map_some, ← carrierDef_variant_rename]
    simp [reorder]
  tuples slots := by
    rw [h'.tuples, h.tuples]
    constructor
    · rintro ⟨d, hd⟩
      obtain ⟨d, rfl⟩ := exists_decl (σ := σ) (τ := τ) d
      exact ⟨d, mentions_reorder.mp hd⟩
    · rintro ⟨d, hd⟩
      exact ⟨_, mentions_reorder.mpr hd⟩
  fields e he e' he' hslots := by
    rw [h'.fields e' he', h.fields e he, hslots, tupleFields_rename]

theorem sameOutcome_of_settled (hD : D.Supported) (h : D.Settled) (h' : (D.reorder σ τ).Settled) :
    SameOutcome σ τ D.lowerTypes (D.reorder σ τ).lowerTypes := by
  have hD' := supported_reorder (σ := σ) (τ := τ) hD
  by_cases hacyclic : D.Acyclic
  · obtain ⟨st, hok, hst⟩ := lowerTypes_acyclic hD h hacyclic
    obtain ⟨st', hok', hst'⟩ := lowerTypes_acyclic hD' h' (acyclic_reorder.mpr hacyclic)
    rw [hok, hok']
    exact same_of_faithful hst hst'
  · rw [lowerTypes_cyclic hD h hacyclic,
      lowerTypes_cyclic hD' h' fun hr => hacyclic (acyclic_reorder.mp hr)]
    rfl

end reorder

/-- `struct Item { value: i32 }` and `struct Wrap { pair: (Item, i32) }`, in this order. -/
def itemFirst : TypeDecls 2 0 where
  structs i := if i = 0 then ⟨"Item", [("value", .shape (.one (.scalar .i32)))]⟩
    else ⟨"Wrap", [("pair", .shape (.tuple [.struct 0, .scalar .i32]))]⟩
  variants := Fin.elim0

/-- `struct Wrap { pair: (State, i32) }` and `variant State { ok, err }`. -/
def wrapState : TypeDecls 1 1 where
  structs _ := ⟨"Wrap", [("pair", .shape (.tuple [.variant 0, .scalar .i32]))]⟩
  variants _ := ⟨"State", [none, none]⟩

/-- `variant Chain { more((Chain, i32)), last }`. -/
def chain : TypeDecls 0 1 where
  structs := Fin.elim0
  variants _ := ⟨"Chain", [some (.tuple [.variant 0, .scalar .i32]), none]⟩

end Rut.Compiler.Carriers
