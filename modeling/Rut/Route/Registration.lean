import Rut.Route.Basic

/-!
# Registrations and terminal tables

Both dispatchers store, at some key, a table with one route per method slot; the
key is a byte string for the radix trie and a list of segments for the segment
trie. What a table holds after a sequence of successful `insert` calls does not
depend on which of the two it is:

    Holds sem es   —   sem u is, slot by slot, the first registration for u

and one more call keeps it so (`Holds.step`).
-/

namespace Rut

/-- The arguments of one call of `insert`. -/
structure InsertCall where
  path : Str
  methodChar : UInt8
  routeIdx : UInt16
deriving DecidableEq, Repr

/-- One registration: what a successful call leaves behind. -/
structure Registration (κ : Type) where
  key : κ
  slot : MethodSlot
  routeIdx : UInt16
deriving DecidableEq, Repr

/-- One route per method slot. -/
abbrev RouteTable := Vector UInt16 kMethodSlots

def noRoutes : RouteTable := Vector.replicate _ kInvalidRoute

/-- The table with `routeIdx` registered in `slot`, unless the slot is taken. -/
def register (v : RouteTable) (slot : MethodSlot) (routeIdx : UInt16) : RouteTable :=
  if getElem v slot slot.isLt = kInvalidRoute then v.set slot routeIdx slot.isLt else v

/-- The first route in a slot stays. -/
theorem getElem_register (v : RouteTable) (slot s : MethodSlot) (routeIdx : UInt16) :
    getElem (register v slot routeIdx) s s.isLt =
      if slot = s ∧ getElem v s s.isLt = kInvalidRoute then routeIdx else getElem v s s.isLt := by
  unfold register
  by_cases hs : slot = s
  · subst hs
    by_cases hv : v[slot] = kInvalidRoute
    · rw [if_pos hv, if_pos ⟨rfl, hv⟩]
      exact Vector.getElem_set_self ..
    · rw [if_neg hv, if_neg (fun h => hv h.2)]
  · have hne : (slot : Nat) ≠ s := fun h => hs (Fin.ext h)
    simp only [hs, false_and, if_false]
    split
    · exact Vector.getElem_set_ne _ _ hne
    · rfl

variable {κ : Type} [DecidableEq κ] {es : List (Registration κ)} {u : κ} {s : MethodSlot}

/-- The first route registered for exactly this key and slot. -/
def firstRegistered (es : List (Registration κ)) (u : κ) (s : MethodSlot) : UInt16 :=
  match es.find? (fun e => e.key = u ∧ e.slot = s) with
  | some e => e.routeIdx
  | none => kInvalidRoute

/-- A later registration counts where there is none before. -/
theorem firstRegistered_append (hes : ∀ e ∈ es, e.routeIdx ≠ kInvalidRoute)
    (e : Registration κ) (u : κ) (s : MethodSlot) :
    firstRegistered (es ++ [e]) u s =
      if e.key = u ∧ e.slot = s ∧ firstRegistered es u s = kInvalidRoute then e.routeIdx
      else firstRegistered es u s := by
  unfold firstRegistered
  rw [List.find?_append]
  cases h : es.find? (fun e => e.key = u ∧ e.slot = s) with
  | some e' => simp [hes e' (List.mem_of_find?_eq_some h)]
  | none =>
    by_cases he : e.key = u ∧ e.slot = s
    · simp [he]
    · simp only [List.find?_cons, he, decide_false, List.find?_nil, Option.or_none]
      rw [if_neg (fun h => he ⟨h.1, h.2.1⟩)]

theorem firstRegistered_ne_invalid (hes : ∀ e ∈ es, e.routeIdx ≠ kInvalidRoute) :
    firstRegistered es u s ≠ kInvalidRoute ↔ ∃ e ∈ es, e.key = u ∧ e.slot = s := by
  unfold firstRegistered
  cases hf : es.find? (fun e => e.key = u ∧ e.slot = s) with
  | some e =>
    have hmem := List.mem_of_find?_eq_some hf
    exact iff_of_true (hes e hmem) ⟨e, hmem, by simpa using List.find?_some hf⟩
  | none =>
    refine iff_of_false (by simp) ?_
    rintro ⟨e, he, heu⟩
    exact absurd heu (by simpa using List.find?_eq_none.mp hf e he)

/-- The tables hold the registrations, the first of each key and slot. -/
structure Holds (sem : κ → RouteTable) (es : List (Registration κ)) : Prop where
  valid : ∀ e ∈ es, e.routeIdx ≠ kInvalidRoute
  table : ∀ u (s : MethodSlot), getElem (sem u) s s.isLt = firstRegistered es u s

theorem holds_nil {sem : κ → RouteTable} (h : ∀ u, sem u = noRoutes) : Holds sem [] where
  valid := by simp
  table u s := by simp [h, noRoutes, firstRegistered]

theorem Holds.step {sem sem' : κ → RouteTable} {slot : MethodSlot} {routeIdx : UInt16}
    (h : Holds sem es) (hself : sem' u = register (sem u) slot routeIdx)
    (hother : ∀ v, v ≠ u → sem' v = sem v) (hidx : routeIdx ≠ kInvalidRoute) :
    Holds sem' (es ++ [⟨u, slot, routeIdx⟩]) where
  valid := by
    intro e he
    rcases List.mem_append.mp he with he | he
    · exact h.valid e he
    · rw [List.mem_singleton.mp he]
      exact hidx
  table v s := by
    rw [firstRegistered_append h.valid]
    by_cases hv : v = u
    · subst hv
      simp only [hself, getElem_register, h.table, true_and]
    · rw [hother v hv, h.table, if_neg (fun hc => hv hc.1.symm)]

/-! ## What a table offers -/

/-- The route a table offers to a request in `slot`: its own slot before "any". -/
def pick (v : RouteTable) (slot : MethodSlot) : UInt16 :=
  if slot ≠ 0 ∧ getElem v slot slot.isLt ≠ kInvalidRoute then getElem v slot slot.isLt
  else getElem v (0 : Nat) kMethodSlots_pos

theorem pick_noRoutes (slot : MethodSlot) : pick noRoutes slot = kInvalidRoute := by
  simp [pick, noRoutes]

/-- A table offers something exactly when there is a registration for the slot or for "any". -/
theorem Holds.pick_ne_invalid {sem : κ → RouteTable} (h : Holds sem es) (u : κ)
    (slot : MethodSlot) :
    pick (sem u) slot ≠ kInvalidRoute ↔
      ∃ e ∈ es, e.key = u ∧ (e.slot = slot ∨ e.slot = 0) := by
  have h0 := firstRegistered_ne_invalid (u := u) (s := 0) h.valid
  have hs := firstRegistered_ne_invalid (u := u) (s := slot) h.valid
  have hpick : pick (sem u) slot ≠ kInvalidRoute ↔
      firstRegistered es u slot ≠ kInvalidRoute ∨ firstRegistered es u 0 ≠ kInvalidRoute := by
    have hv0 : (sem u)[0] = firstRegistered es u 0 := h.table u 0
    rw [pick, h.table, hv0]
    by_cases hslot : slot = 0
    · simp [hslot]
    · split <;> simp_all
  rw [hpick, hs, h0]
  constructor
  · rintro (⟨e, he, hu, hsl⟩ | ⟨e, he, hu, hsl⟩)
    · exact ⟨e, he, hu, .inl hsl⟩
    · exact ⟨e, he, hu, .inr hsl⟩
  · rintro ⟨e, he, hu, hsl | hsl⟩
    · exact .inl ⟨e, he, hu, hsl⟩
    · exact .inr ⟨e, he, hu, hsl⟩

end Rut
