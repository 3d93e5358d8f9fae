import Rut.Route.Art.Insert

/-!
# The radix trie returns the longest registered prefix

Two halves meet here. `insertAll_run` carries a property through any sequence of `insert` calls and
is used to tie the terminal tables to the list of registrations; `matchCanonicalKey_eq` says that a
lookup returns the last offer along the prefixes of the path. Together they give
`matchCanonicalKey_eq_longestPrefix`: the trie agrees with a scan of the registrations.
-/

namespace Rut

open List

/-! ## The brute-force dispatcher -/

/-- A registration at a canonical path. -/
abbrev ArtEntry := Registration Str

/-- Among the registered paths that are byte prefixes of `p` and have an entry for slot `m` or for
"any", take the longest; there prefer slot `m`; of equals the first registered. -/
def longestPrefix (es : List ArtEntry) (p : Str) (m : MethodSlot) : UInt16 :=
  let hits := es.filter (fun e => e.key.isPrefixOf p && (e.slot = m || e.slot = 0))
  match (hits.map (·.key.length)).max? with
  | none => kInvalidRoute
  | some len =>
    let longest := hits.filter (fun e => e.key.length = len)
    match longest.find? (fun e => e.slot = m), longest.find? (fun e => e.slot = 0) with
    | some e, _ => e.routeIdx
    | none, some e => e.routeIdx
    | none, none => kInvalidRoute

namespace ArtTrie

open Lib Lib.RadixGraph

/-! ## Runs of insertions -/

/-- One call, with the registrations so far. `none` would be a call that does not return. -/
def insertStep (s : ArtTrie × List ArtEntry) (c : InsertCall) :
    Option (ArtTrie × List ArtEntry) :=
  match s.1.insert c.path c.methodChar c.routeIdx, routeMethodSlot c.methodChar with
  | none, _ => none
  | some (t, true), some slot =>
    some (t, s.2 ++ [⟨finalizePathCanonical c.path, slot, c.routeIdx⟩])
  | some (t, _), _ => some (t, s.2)

/-- A sequence of calls on a cleared trie: the trie and the successful registrations in order. -/
def insertAll (calls : List InsertCall) : Option (ArtTrie × List ArtEntry) :=
  calls.foldlM insertStep (clear, [])

variable {t t' : ArtTrie} {es : List ArtEntry}

/-- Every call returns, and what successful calls preserve holds at the end. -/
theorem insertAll_run (calls : List InsertCall) (P : ArtTrie → List ArtEntry → Prop) (h0 : P clear [])
    (hstep : ∀ t t' es c slot, c ∈ calls → P t es →
      Inserted t t' (finalizePathCanonical c.path) slot c.routeIdx →
      P t' (es ++ [⟨finalizePathCanonical c.path, slot, c.routeIdx⟩])) :
    ∃ t es, insertAll calls = some (t, es) ∧ Inv t ∧ P t es := by
  have main : ∀ (l : List InsertCall) (t : ArtTrie) (es : List ArtEntry), (∀ c ∈ l, c ∈ calls) →
      Inv t → P t es → ∃ t' es', l.foldlM insertStep (t, es) = some (t', es') ∧ Inv t' ∧ P t' es' := by
    intro l
    induction l with
    | nil => exact fun t es _ hI hP => ⟨t, es, rfl, hI, hP⟩
    | cons c l ih =>
      intro t es hl hI hP
      have hl' : ∀ c ∈ l, c ∈ calls := fun c hc => hl c (mem_cons_of_mem _ hc)
      obtain hf | ⟨t', slot, hok, hslot, hins⟩ :=
        insert_spec hI c.path c.methodChar c.routeIdx
      · have hstepEq : insertStep (t, es) c = some (t, es) := by
          simp only [insertStep, hf]
        rw [foldlM_cons, hstepEq]
        exact ih t es hl' hI hP
      · have hstepEq : insertStep (t, es) c =
            some (t', es ++ [⟨finalizePathCanonical c.path, slot, c.routeIdx⟩]) := by
          simp only [insertStep, hok, hslot]
        rw [foldlM_cons, hstepEq]
        exact ih t' _ hl' hins.inv
          (hstep t t' es c slot (hl c (mem_cons_self ..)) hP hins)
  exact main calls clear [] (fun _ => id) clear_inv h0

/-! ## The lookup -/

/-- The last valid value among `f 0, …, f n`. -/
def lastOffer (f : Nat → UInt16) : Nat → UInt16
  | 0 => f 0
  | n + 1 => if f (n + 1) ≠ kInvalidRoute then f (n + 1) else lastOffer f n

theorem lastOffer_of_invalid {f : Nat → UInt16} {i n : Nat} (hin : i ≤ n)
    (h : ∀ j, i < j → j ≤ n → f j = kInvalidRoute) : lastOffer f n = lastOffer f i := by
  induction n with
  | zero => rw [Nat.le_zero.mp hin]
  | succ n ih =>
    rcases Nat.lt_or_ge n i with hni | hin'
    · rw [show i = n + 1 by omega]
    · rw [lastOffer, if_neg (by simp [h (n + 1) (by omega) le_rfl])]
      exact ih hin' (fun j hij hjn => h j hij (by omega))

theorem lastOffer_of_valid {f : Nat → UInt16} {i : Nat} (h : f i ≠ kInvalidRoute) :
    lastOffer f i = f i := by
  cases i with
  | zero => rfl
  | succ i => rw [lastOffer, if_pos h]

/-- The offer of the table at the first `j` bytes of the path. -/
noncomputable def offer (t : ArtTrie) (slot : MethodSlot) (p : Str) (j : Nat) : UInt16 :=
  pick (t.sem (p.take j)) slot

variable {slot : MethodSlot} {p : Str} {r cur : ArtChildRef} {i j : Nat}

theorem offer_of_at (hI : Inv t) (h : At t.graph r (p.take j)) :
    t.offer slot p j = pickTerminal (t.header r) slot := by
  rw [offer, sem, lookD_of_at hI.shape _ h]
  rfl

theorem offer_of_not_at (h : ∀ r, ¬ At t.graph r (p.take j)) :
    t.offer slot p j = kInvalidRoute := by
  rw [offer, sem, lookD_of_not_at _ h]
  exact pick_noRoutes slot

/-- Between a node on the path and the end of the next edge there is no node, so no offer. -/
theorem offer_inside (hI : Inv t) (hcur : At t.graph cur (p.take i)) (hij : i < j)
    (hj : j ≤ p.length)
    (h : ∀ b c, p[i]? = some b → t.findChild cur b = some c →
      (t.header c).edge <+: p.drop i → j < i + (t.header c).edge.length) :
    t.offer slot p j = kInvalidRoute := by
  refine offer_of_not_at fun r hr => ?_
  have hlen : (p.take j).length = j := by rw [length_take]; omega
  obtain ⟨b, c, hb, hc, hpre, hle⟩ :=
    next_child hI.shape hcur hr (List.take_prefix j p) (by omega)
  have := h b c hb hc hpre
  have hle' : i + (t.header c).edge.length ≤ (p.take j).length := hle
  omega

/-- The descent of the lookup from a node at the first `i` bytes of the path. -/
theorem generalLoop_spec (hI : Inv t) : ∀ {fuel i : Nat} {cur : ArtChildRef},
    At t.graph cur (p.take i) → i ≤ p.length → p.length - i ≤ fuel →
    generalLoop t slot fuel cur (lastOffer (t.offer slot p) i) (p.drop i) =
      some (lastOffer (t.offer slot p) p.length) := by
  intro fuel
  induction fuel with
  | zero =>
    intro i cur _ hi hfuel
    have hi : i = p.length := by omega
    subst hi
    rw [drop_length]
    rfl
  | succ fuel ih =>
    intro i cur hcur hi hfuel
    cases hrest : p.drop i with
    | nil =>
      have : i = p.length := by
        have := drop_eq_nil_iff.mp hrest
        omega
      rw [this]
      rfl
    | cons b rest =>
      have hb : p[i]? = some b := by
        rw [← List.head?_drop, hrest]
        rfl
      -- the loop ends here: nothing further along the path has an offer
      have stop : (∀ c, t.findChild cur b = some c → ¬ (t.header c).edge <+: p.drop i) →
          lastOffer (t.offer slot p) i = lastOffer (t.offer slot p) p.length := by
        intro hno
        refine (lastOffer_of_invalid hi fun j hij hj => ?_).symm
        refine offer_inside hI hcur hij hj fun b' c hb' hc hpre => ?_
        rw [hb] at hb'
        cases hb'
        exact absurd hpre (hno c hc)
      rw [generalLoop]
      cases hc : t.findChild cur b with
      | none =>
        dsimp only
        rw [stop (by simp [hc])]
      | some child =>
        dsimp only
        split
        · next hpre =>
          rw [List.isPrefixOf_iff_prefix, ← hrest] at hpre
          have hat : At t.graph child (p.take (i + (t.header child).edge.length)) :=
            hcur.advance hc hpre
          obtain ⟨l, hl⟩ : ∃ l, (t.header child).edge = b :: l := hI.shape.key hcur hc
          have hlen := hpre.length_le
          rw [length_drop] at hlen
          have hpos : 0 < (t.header child).edge.length := by simp [hl]
          have hbest : (if pickTerminal (t.header child) slot ≠ kInvalidRoute then
                pickTerminal (t.header child) slot
              else lastOffer (t.offer slot p) i) =
              lastOffer (t.offer slot p) (i + (t.header child).edge.length) := by
            rw [← offer_of_at hI hat]
            split
            · next hv => exact (lastOffer_of_valid hv).symm
            · next hv =>
              refine (lastOffer_of_invalid (by omega) fun j hij hj => ?_).symm
              rcases Nat.lt_or_eq_of_le hj with hj | rfl
              · refine offer_inside hI hcur hij (by omega) fun b' c hb' hc' _ => ?_
                rw [hb] at hb'
                cases hb'
                rw [hc] at hc'
                cases hc'
                exact hj
              · exact not_not.mp hv
          rw [hbest, ← hrest, drop_drop]
          exact ih hat (by omega) (by omega)
        · next hpre =>
          rw [List.isPrefixOf_iff_prefix, ← hrest] at hpre
          rw [stop (fun c hc' => by rw [hc] at hc'; cases hc'; exact hpre)]

/-- While the flag is set every reachable node is a `Node4`, so reading the pool directly is
resolving the reference. -/
theorem uniform_node {w : Str} (hI : Inv t) (hflag : t.isUniformN4 = true)
    (h : At t.graph r w) :
    (t.n4Pool.getD r.idx {}).hdr = t.header r ∧
      ∀ b, (t.n4Pool.getD r.idx {}).find b = t.findChild r b := by
  obtain ⟨n, hn, -⟩ := hI.live h
  have hty : r.type = .n4 := hI.uniform hflag r (by simp [hn])
  simp only [header, findChild, hn]
  unfold node at hn
  rw [hty] at hn
  obtain ⟨m, hm, rfl⟩ := Option.map_eq_some_iff.mp hn
  rw [getD_eq_getElem?_getD, hm]
  exact ⟨rfl, fun _ => rfl⟩

/-- The fast path is the general path. -/
theorem uniformLoop_eq (hI : Inv t) (hflag : t.isUniformN4 = true) : ∀ {fuel : Nat}
    {cur : ArtChildRef} {w rest : Str} {best : UInt16}, At t.graph cur w →
    uniformLoop t slot fuel cur.idx best rest = generalLoop t slot fuel cur best rest := by
  intro fuel
  induction fuel with
  | zero => intro cur w rest best _; cases rest <;> rfl
  | succ fuel ih =>
    intro cur w rest best hcur
    cases rest with
    | nil => rfl
    | cons b rest =>
      rw [uniformLoop, generalLoop, (uniform_node hI hflag hcur).2]
      cases hc : t.findChild cur b with
      | none => rfl
      | some child =>
        have hat := hcur.step hc
        dsimp only
        rw [(uniform_node hI hflag hat).1, ih hat]

/-- A lookup is the general descent from the root, by either path through the code. -/
theorem matchCanonicalKey_eq_generalLoop (hI : Inv t) (p : Str) {key : UInt8}
    (hkey : routeMethodSlotFromKey key = some slot) :
    t.matchCanonicalKey p key =
      generalLoop t slot p.length t.rootRef (pickTerminal (t.header t.rootRef) slot) p := by
  have hroot : At t.graph t.rootRef [] := At.root
  unfold matchCanonicalKey
  rw [hkey]
  dsimp only
  split
  · next hflag => rw [uniformLoop_eq hI hflag hroot, (uniform_node hI hflag hroot).1]
  · rfl

/-- A lookup returns the last offer along the prefixes of the path. -/
theorem matchCanonicalKey_eq (hI : Inv t) (p : Str) {key : UInt8}
    (hkey : routeMethodSlotFromKey key = some slot) :
    t.matchCanonicalKey p key = some (lastOffer (t.offer slot p) p.length) := by
  have hroot : At t.graph t.rootRef (p.take 0) := At.root
  have hbest : pickTerminal (t.header t.rootRef) slot = lastOffer (t.offer slot p) 0 :=
    (offer_of_at hI hroot).symm
  rw [matchCanonicalKey_eq_generalLoop hI p hkey, hbest]
  exact generalLoop_spec hI hroot (Nat.zero_le _) (Nat.sub_le _ _)

/-! ## Agreement with the scan -/

/-- The part of the scan's hits that has length `L` and slot `s` is what is registered for the
first `L` bytes and `s`. -/
theorem find_hits {m s : MethodSlot} {L : Nat} (hs : s = m ∨ s = 0) (hL : L ≤ p.length) :
    ((es.filter (fun e => e.key.isPrefixOf p && (e.slot = m || e.slot = 0))).filter
        (fun e => e.key.length = L)).find? (fun e => e.slot = s) =
      es.find? (fun e => e.key = p.take L ∧ e.slot = s) := by
  rw [List.find?_filter, List.find?_filter]
  congr 1
  funext e
  have hpath : (e.key <+: p ∧ e.key.length = L) ↔ e.key = p.take L := by
    constructor
    · rintro ⟨hpre, hlen⟩
      rw [← hlen]
      exact (prefix_iff_eq_take.mp hpre)
    · intro he
      exact ⟨he ▸ List.take_prefix L p, by rw [he, length_take]; omega⟩
  rw [Bool.eq_iff_iff]
  simp only [Bool.and_eq_true, Bool.or_eq_true, decide_eq_true_eq, List.isPrefixOf_iff_prefix,
    ← hpath]
  constructor
  · rintro ⟨⟨hpre, -⟩, hlen, hsl⟩
    exact ⟨⟨hpre, hlen⟩, hsl⟩
  · rintro ⟨⟨hpre, hlen⟩, hsl⟩
    exact ⟨⟨hpre, by rw [hsl]; exact hs⟩, hlen, hsl⟩

/-- The last offer along the path is what the scan returns. -/
theorem lastOffer_eq_longestPrefix (h : Holds t.sem es) (p : Str) (slot : MethodSlot) :
    lastOffer (t.offer slot p) p.length = longestPrefix es p slot := by
  have hhit : ∀ {j}, j ≤ p.length → t.offer slot p j ≠ kInvalidRoute →
      j ∈ (es.filter (fun e => e.key.isPrefixOf p && (e.slot = slot || e.slot = 0))).map
        (·.key.length) := by
    intro j hj hne
    obtain ⟨e, he, hpath, hslot⟩ := (h.pick_ne_invalid _ _).mp hne
    refine mem_map.mpr ⟨e, mem_filter.mpr ⟨he, ?_⟩, ?_⟩
    · simp only [Bool.and_eq_true, Bool.or_eq_true, decide_eq_true_eq, List.isPrefixOf_iff_prefix]
      exact ⟨hpath ▸ List.take_prefix j p, hslot⟩
    · rw [hpath, length_take]
      omega
  unfold longestPrefix
  dsimp only
  split
  · next hmax =>
    rw [List.max?_eq_none_iff, map_eq_nil_iff] at hmax
    have hnone : ∀ j, j ≤ p.length → t.offer slot p j = kInvalidRoute := by
      intro j hj
      by_contra hne
      have := hhit hj hne
      rw [hmax] at this
      simp at this
    rw [lastOffer_of_invalid (Nat.zero_le _) (fun j _ hj => hnone j hj)]
    exact hnone 0 (Nat.zero_le _)
  · next L hmax =>
    obtain ⟨hmem, hle⟩ := List.max?_eq_some_iff.mp hmax
    obtain ⟨e, he, hlen⟩ := mem_map.mp hmem
    obtain ⟨he, hserves⟩ := mem_filter.mp he
    simp only [Bool.and_eq_true, Bool.or_eq_true, decide_eq_true_eq,
      List.isPrefixOf_iff_prefix] at hserves
    have hL : L ≤ p.length := hlen ▸ hserves.1.length_le
    have hpath : e.key = p.take L := hlen ▸ prefix_iff_eq_take.mp hserves.1
    have hvalid : t.offer slot p L ≠ kInvalidRoute :=
      (h.pick_ne_invalid _ _).mpr ⟨e, he, hpath, hserves.2⟩
    have hlast : lastOffer (t.offer slot p) p.length = t.offer slot p L := by
      rw [lastOffer_of_invalid hL, lastOffer_of_valid hvalid]
      intro j hLj hj
      by_contra hne
      have := hle j (hhit hj hne)
      omega
    have hv0 : (t.sem (p.take L))[0] = firstRegistered es (p.take L) 0 := h.table _ 0
    rw [hlast, find_hits (.inl rfl) hL, find_hits (.inr rfl) hL, offer, pick, h.table, hv0]
    unfold firstRegistered
    cases hm : es.find? (fun e => e.key = p.take L ∧ e.slot = slot) with
    | some e' =>
      have := h.valid e' (mem_of_find?_eq_some hm)
      by_cases hslot : slot = 0
      · subst hslot
        simp only [ne_eq, not_true_eq_false, false_and, if_false, hm]
      · simp [hslot, this]
    | none =>
      simp only [ne_eq, not_true_eq_false, and_false, if_false]
      cases es.find? (fun e => e.key = p.take L ∧ e.slot = 0) <;> rfl

/-- For every sequence of `insert` calls with valid route indices, every path and every method
key, the lookup returns what the scan of the successful registrations returns. -/
theorem matchCanonicalKey_eq_longestPrefix (calls : List InsertCall)
    (hidx : ∀ c ∈ calls, c.routeIdx ≠ kInvalidRoute) :
    ∃ t es, insertAll calls = some (t, es) ∧
      ∀ (p : Str) (m : MethodSlot),
        t.matchCanonicalKey p (UInt8.ofNat m) = some (longestPrefix es p m) := by
  obtain ⟨t, es, hrun, hI, hreg⟩ := insertAll_run calls (fun t es => Holds t.sem es)
    (holds_nil clear_sem)
    (fun t t' es c slot hc h hins => h.step hins.sem_self hins.sem_other (hidx c hc))
  refine ⟨t, es, hrun, fun p m => ?_⟩
  have hkey : routeMethodSlotFromKey (UInt8.ofNat m) = some m := by
    revert m
    decide
  rw [matchCanonicalKey_eq hI p hkey, lastOffer_eq_longestPrefix hreg]

/-- Two routes that share a prefix, registered in the order that forces a split, one of them for
`GET` only. -/
def sampleCalls : List InsertCall :=
  [⟨ascii "/apple", 'G'.toUInt8, 7⟩, ⟨ascii "/ap/", 0, 3⟩, ⟨ascii "/ap", 0, 4⟩]

theorem matchCanonicalKey_eq_longestPrefix_sampleCalls :
    (∀ c ∈ sampleCalls, c.routeIdx ≠ kInvalidRoute) ∧
      ∃ t es, insertAll sampleCalls = some (t, es) ∧
        ∀ (p : Str) (m : MethodSlot),
          t.matchCanonicalKey p (UInt8.ofNat m) = some (longestPrefix es p m) :=
  ⟨by decide, matchCanonicalKey_eq_longestPrefix sampleCalls (by decide)⟩

example : (insertAll sampleCalls).bind (fun s => s.1.matchCanonicalKey (ascii "apple/x") 1) =
    some 7 := by decide

example : (insertAll sampleCalls).bind (fun s => s.1.matchCanonicalKey (ascii "apple/x") 2) =
    some 3 := by decide

end ArtTrie
end Rut
