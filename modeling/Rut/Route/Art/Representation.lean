import Rut.Route.Art.Memory

/-!
# What the pools hold between two calls

`Represents` says it of the memory itself, in the words of `route_art.h`: references that are followed
stay inside the pools and make a tree below `root_ref_`, children are filed under the first byte of
their edge, the tables inside a node agree with each other, counts are exact, and the flag of the fast
path tells the truth. It is no more and no less than what the trie that is loaded needs
(`represents_iff`), so every insertion keeps it, one that is rolled back included.
-/

namespace Rut

open Lib Lib.RadixGraph

/-! ## Inside a node -/

/-- Every slot of `children` is some byte's, and only one's. -/
theorem ArtNode48.exists_childIndex {n : ArtNode48} (hwf : (ArtNode.n48 n).WF) {i : Nat}
    (hi : i < n.children.length) : ∃ b, n.childIndex b = i + 1 := by
  obtain ⟨hn, hcount, -⟩ := hwf
  let keys := allBytes.filter fun b => (n.find b).isSome
  -- The positions of the keys are distinct and there are as many of them as slots.
  have hpos : ∀ b ∈ keys, n.childIndex b ≠ 0 := by
    intro b hb h0
    have hsome := (List.mem_filter.mp hb).2
    rw [(find_eq_none hn).mpr h0] at hsome
    cases hsome
  have hnodup : (keys.map n.childIndex).Nodup :=
    (ArtNode.nodup_allBytes.filter _).map_on fun b hb b' _ => hn.inj b b' (hpos b hb)
  have hsub : keys.map n.childIndex ⊆ List.range' 1 n.children.length := by
    intro k hk
    obtain ⟨b, hb, rfl⟩ := List.mem_map.mp hk
    have := hn.bound b
    have := hpos b hb
    rw [List.mem_range'_1]
    omega
  have hperm := (List.subperm_of_subset hnodup hsub).perm_of_length_le (by
    rw [List.length_range', List.length_map]
    exact hcount.le)
  have hmem : i + 1 ∈ keys.map n.childIndex := by
    rw [hperm.mem_iff, List.mem_range'_1]
    omega
  obtain ⟨b, -, hb⟩ := List.mem_map.mp hmem
  exact ⟨b, hb⟩

namespace ArtMem

variable {bytes : Bytes} {m : ArtMem} {r c : ArtChildRef} {b : UInt8}

/-! ## Between the nodes -/

/-- `c` is a child of `r`. -/
def Child (m : ArtMem) (r c : ArtChildRef) : Prop := ∃ b, m.findChild r b = some c

/-- The nodes that can be reached from `root_ref_`. -/
def Reachable (m : ArtMem) : ArtChildRef → Prop := Relation.ReflTransGen m.Child m.rootRef

/-- The representation invariant. -/
structure Represents (bytes : Bytes) (m : ArtMem) : Prop where
  in_range : ∀ r, m.Reachable r → ∃ s, m.node r = some s
  root : ∀ r, m.Reachable r → ¬ m.Child r m.rootRef
  parent : ∀ r r' b b' c, m.Reachable r → m.Reachable r' → m.findChild r b = some c →
    m.findChild r' b' = some c → r = r' ∧ b = b'
  acyclic : ∀ r, m.Reachable r → ¬ Relation.TransGen m.Child r r
  edge : ∀ r b c, m.Reachable r → m.findChild r b = some c →
    ∃ rest, (m.edge c).read bytes = b :: rest
  /-- keys are distinct, positions in a `Node48` are in range and distinct, counts are exact -/
  node : ∀ r s, m.Reachable r → m.node r = some s → s.node.WF
  slots : ∀ r n e, m.Reachable r → m.node r = some ⟨.n48 n, e⟩ →
    ∀ i < n.children.length, ∃ b, n.childIndex b = i + 1
  uniform : m.isUniformN4 → ∀ r s, m.node r = some s → r.type = .n4

theorem child_load (bytes : Bytes) (m : ArtMem) (r : ArtChildRef) :
    (m.load bytes).graph.child r = m.findChild r :=
  funext fun b => findChild_load bytes m r b

theorem edge_load (bytes : Bytes) (m : ArtMem) (r : ArtChildRef) :
    (m.load bytes).graph.edge r = (m.edge r).read bytes :=
  congrArg ArtNodeHeader.edge (header_load bytes m r)

theorem wf_resolve (bytes : Bytes) (s : Stored ArtNode) : (s.resolve bytes).WF ↔ s.node.WF :=
  ArtNode.wf_setHdr ..

theorem Reachable.child (h : m.Reachable r) (hc : m.findChild r b = some c) : m.Reachable c :=
  Relation.ReflTransGen.tail h ⟨b, hc⟩

/-- The nodes the descent can come to, with the words it has then read. -/
theorem reachable_iff : m.Reachable r ↔ ∃ w, At (m.load bytes).graph r w := by
  constructor
  · intro h
    induction h with
    | refl => exact ⟨[], At.root⟩
    | tail _ hc ih =>
      obtain ⟨w, hw⟩ := ih
      obtain ⟨b, hb⟩ := hc
      exact ⟨_, hw.step (child_load bytes m _ ▸ hb)⟩
  · rintro ⟨w, hw⟩
    induction hw with
    | root => exact .refl
    | step _ hc ih => exact ih.child (child_load bytes m _ ▸ hc)

/-- What lies below a node has a longer word. -/
theorem exists_longer_word (hI : (m.load bytes).Inv) (h : Relation.TransGen m.Child r c) {w : Str}
    (hr : At (m.load bytes).graph r w) :
    ∃ w', At (m.load bytes).graph c w' ∧ w.length < w'.length := by
  -- one step appends the edge, which is not empty
  have hstep : ∀ {r c : ArtChildRef} {w : Str}, At (m.load bytes).graph r w → m.Child r c →
      ∃ w', At (m.load bytes).graph c w' ∧ w.length < w'.length := by
    rintro r c w hr ⟨b, hb⟩
    rw [← child_load bytes] at hb
    obtain ⟨rest, hedge⟩ := hI.shape.key hr hb
    exact ⟨_, hr.step hb, by simp [hedge]⟩
  induction h with
  | single hc => exact hstep hr hc
  | tail _ hc ih =>
    obtain ⟨w', hw', hlt⟩ := ih
    obtain ⟨w'', hw'', hlt'⟩ := hstep hw' hc
    exact ⟨w'', hw'', hlt.trans hlt'⟩

theorem represents_of_inv (hI : (m.load bytes).Inv) : Represents bytes m := by
  have hnode : ∀ {r}, m.Reachable r → ∃ s, m.node r = some s ∧ s.node.WF := by
    intro r hr
    obtain ⟨w, hw⟩ := reachable_iff.mp hr
    obtain ⟨n, hn, hwf⟩ := hI.live hw
    rw [node_load] at hn
    obtain ⟨s, hs, rfl⟩ := Option.map_eq_some_iff.mp hn
    exact ⟨s, hs, (wf_resolve bytes s).mp hwf⟩
  have hwf : ∀ r s, m.Reachable r → m.node r = some s → s.node.WF := by
    intro r s hr hs
    obtain ⟨s', hs', hwf⟩ := hnode hr
    rw [hs] at hs'
    exact Option.some.inj hs' ▸ hwf
  constructor
  · intro r hr
    obtain ⟨s, hs, -⟩ := hnode hr
    exact ⟨s, hs⟩
  · rintro r hr ⟨b, hb⟩
    obtain ⟨w, hw⟩ := reachable_iff.mp hr
    exact hw.child_ne_root hI.shape (child_load bytes m r ▸ hb) rfl
  · intro r r' b b' c hr hr' hb hb'
    obtain ⟨w, hw⟩ := reachable_iff.mp hr
    obtain ⟨w', hw'⟩ := reachable_iff.mp hr'
    exact hw.slot_unique hI.shape (child_load bytes m r ▸ hb) hw' (child_load bytes m r' ▸ hb')
  · intro r hr hcycle
    obtain ⟨w, hw⟩ := reachable_iff.mp hr
    obtain ⟨w', hw', hlt⟩ := exists_longer_word hI hcycle hw
    exact absurd hlt (hI.shape.word_unique hw hw' ▸ Nat.lt_irrefl _)
  · intro r b c hr hb
    obtain ⟨w, hw⟩ := reachable_iff.mp hr
    rw [← edge_load bytes]
    exact hI.shape.key hw (child_load bytes m r ▸ hb)
  · exact hwf
  · intro r n e hr hs i hi
    exact ArtNode48.exists_childIndex (hwf r _ hr hs) hi
  · intro hflag r s hs
    exact hI.uniform hflag r (by simp [node_load, hs])

/-- With one parent for each node and none for the root, a node is reached in one way. -/
theorem Represents.word_unique (h : Represents bytes m) {w w' : Str}
    (hw : At (m.load bytes).graph r w) (hw' : At (m.load bytes).graph r w') : w = w' := by
  have hroot : ∀ {r b w}, At (m.load bytes).graph r w →
      (m.load bytes).graph.child r b ≠ some m.rootRef := by
    intro r b w hr hb
    rw [child_load] at hb
    exact h.root r (reachable_iff.mpr ⟨w, hr⟩) ⟨b, hb⟩
  induction hw generalizing w' with
  | root =>
    generalize hv : (m.load bytes).graph.root = v at hw'
    cases hw' with
    | root => rfl
    | step hr hb => exact absurd (hv ▸ hb) (hroot hr)
  | @step r w b c hr hb ih =>
    generalize hv : c = v at hw'
    cases hw' with
    | root => exact absurd (hv ▸ hb) (hroot hr)
    | step hr' hb' =>
      subst hv
      rw [child_load] at hb hb'
      obtain ⟨rfl, -⟩ := h.parent _ _ _ _ _ (reachable_iff.mpr ⟨_, hr⟩)
        (reachable_iff.mpr ⟨_, hr'⟩) hb hb'
      rw [ih hr']

theorem represents_iff : Represents bytes m ↔ (m.load bytes).Inv := by
  refine ⟨fun h => ⟨⟨?_, h.word_unique⟩, ?_, ?_⟩, represents_of_inv⟩
  · intro r w b c hr hb
    rw [child_load] at hb
    rw [edge_load]
    exact h.edge r b c (reachable_iff.mpr ⟨w, hr⟩) hb
  · intro r w hr
    have hreach : m.Reachable r := reachable_iff.mpr ⟨w, hr⟩
    obtain ⟨s, hs⟩ := h.in_range r hreach
    exact ⟨_, by rw [node_load, hs]; rfl, (wf_resolve bytes s).mpr (h.node r s hreach hs)⟩
  · intro hflag r hr
    rw [node_load, ne_eq, Option.map_eq_none_iff, ← ne_eq, Option.ne_none_iff_exists'] at hr
    obtain ⟨s, hs⟩ := hr
    exact h.uniform hflag r s hs

/-- `clear` establishes the representation invariant and every insertion keeps it, whether it
succeeds or is rolled back; and where it holds with the flag of the fast path set, the fast path gives
what the general path gives, for every path and method. -/
theorem represents_insert (bytes : Bytes) :
    (∀ array : ArtMem, Represents bytes array.clear) ∧
    ∀ m, Represents bytes m →
      (∀ c : Call, ∃ m' ok, m.insert bytes c.path c.methodChar c.routeIdx = some (m', ok) ∧
        Represents bytes m') ∧
      (m.isUniformN4 → ∀ slot path, ((m.load bytes).uniformLoop slot path.length m.rootRef.idx
          (ArtTrie.pickTerminal ((m.load bytes).n4Pool.getD m.rootRef.idx {}).hdr slot) path) =
        (m.load bytes).generalLoop slot path.length m.rootRef
          (ArtTrie.pickTerminal ((m.load bytes).header m.rootRef) slot) path) := by
  refine ⟨fun array => ?_, fun m hm => ⟨fun c => ?_, fun hflag slot path => ?_⟩⟩
  · rw [represents_iff, load_clear]
    exact ArtTrie.clear_inv
  · obtain ⟨m', ok, hm', hI', -⟩ := insert_returns (represents_iff.mp hm) c
    exact ⟨m', ok, hm', represents_iff.mpr hI'⟩
  · have hI := represents_iff.mp hm
    have hroot : At (m.load bytes).graph m.rootRef [] := At.root
    rw [ArtTrie.uniformLoop_eq hI hflag hroot, (ArtTrie.uniform_node hI hflag hroot).1]

def blank : ArtMem where
  n4Pool := ⟨fun _ => ⟨{}, {}⟩, 0⟩
  n16Pool := ⟨fun _ => ⟨{}, {}⟩, 0⟩
  n48Pool := ⟨fun _ => ⟨{}, {}⟩, 0⟩
  n256Pool := ⟨fun _ => ⟨{}, {}⟩, 0⟩
  rootRef := ⟨.n4, 0⟩
  isUniformN4 := true

/-- The bytes of `/ab/ac`. -/
def abac : Bytes := fun i => [47, 97, 98, 47, 97, 99].getD i 0

/-- The second path splits the edge of the first. -/
theorem represents_insert_split :
    ∃ m₁ m₂, blank.clear.insert abac ⟨0, 3⟩ 71 5 = some (m₁, true) ∧ Represents abac m₁ ∧
      m₁.insert abac ⟨3, 3⟩ 71 6 = some (m₂, true) ∧ Represents abac m₂ ∧
      m₁.n4Pool.used = 2 ∧ m₂.n4Pool.used = 4 := by
  have hclear := (represents_insert abac).1 blank
  obtain ⟨m₁, ok₁, h₁, hm₁⟩ := ((represents_insert abac).2 _ hclear).1 ⟨⟨0, 3⟩, 71, 5⟩
  obtain ⟨m₂, ok₂, h₂, hm₂⟩ := ((represents_insert abac).2 _ hm₁).1 ⟨⟨3, 3⟩, 71, 6⟩
  cases h₁
  cases h₂
  exact ⟨_, _, rfl, hm₁, rfl, hm₂, rfl, rfl⟩

end ArtMem

end Rut
