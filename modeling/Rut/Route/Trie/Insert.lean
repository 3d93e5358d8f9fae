import Rut.Lib.RadixGraph
import Rut.Route.Registration
import Rut.Route.Trie.Basic

/-!
# Insertion into the segment trie

The pool is a `RadixGraph` over segments: every edge is one segment long, so adding a node is the
library's `AddLeaf` and nothing is ever split or moved. Besides the shape the lookup needs to know
in which order the children of a node were created, because ties are broken by it. `Ordered` says
so in terms of the registrations: the children of a node stand in the order of the first
registration that passes through them.
-/

namespace Rut

open List

/-! ## Segments -/

def segments (path : Str) : List Str := (path.splitOn slash).filter (· ≠ [])

theorem segments_of_not_mem {seg : Str} (h : slash ∉ seg) :
    segments seg = if seg = [] then [] else [seg] := by
  have hsplit : seg.splitOn slash = [seg] := by
    have hne : [seg] ≠ [] := by simp
    simpa using splitOn_intercalate slash (by simpa using h) hne
  rw [segments, hsplit]
  split <;> simp_all

theorem segments_append_slash {seg rest : Str} (h : slash ∉ seg) :
    segments (seg ++ slash :: rest) = (if seg = [] then [] else [seg]) ++ segments rest := by
  have hsplit : (seg ++ slash :: rest).splitOn slash = seg :: rest.splitOn slash := by
    apply splitOnP_append_cons_of_forall_mem
    · intro x hx
      simpa using fun he : x = slash => h (he ▸ hx)
    · simp
  split <;> simp_all [segments]

/-- The tokenizer loop with `seg` read and `out` pushed: it goes on to push the segments of what is
left, as far as they fit. -/
theorem tokenizeLoop_eq : ∀ (rest seg : Str) (out : List Str), slash ∉ seg →
    out.length ≤ kMaxPathSegments →
    tokenizeLoop rest seg out =
      ((out ++ segments (seg ++ rest)).take kMaxPathSegments,
        min (out ++ segments (seg ++ rest)).length (kMaxPathSegments + 1))
  | [], seg, out, hseg, hout => by
    rw [tokenizeLoop, append_nil, segments_of_not_mem hseg]
    by_cases hnil : seg = []
    · simp only [hnil, if_true, append_nil]
      rw [take_of_length_le hout, Nat.min_eq_left (by omega)]
    · simp only [hnil, if_false]
      split
      · rw [take_of_length_le (by simpa using ‹_›), Nat.min_eq_left (by simpa using hout)]
        simp
      · have hlen : out.length = kMaxPathSegments := by omega
        rw [take_append_of_le_length hlen.ge, ← hlen, take_length]
        simp
  | b :: rest, seg, out, hseg, hout => by
    rw [tokenizeLoop]
    by_cases hb : b = slash
    · subst hb
      rw [if_pos rfl, segments_append_slash hseg]
      by_cases hnil : seg = []
      · simp only [hnil, if_true, nil_append]
        exact tokenizeLoop_eq rest [] out (by simp) hout
      · simp only [hnil, if_false]
        split
        · rw [tokenizeLoop_eq rest [] (out ++ [seg]) (by simp) (by simpa using ‹_›)]
          simp
        · have hlen : out.length = kMaxPathSegments := by omega
          rw [take_append_of_le_length hlen.ge, ← hlen, take_length]
          simp
    · rw [if_neg hb, tokenizeLoop_eq rest (seg ++ [b]) out _ hout]
      · simp
      · simpa using ⟨hseg, Ne.symm hb⟩

/-- The tokenizer finds the segments, as many as there is room for. -/
theorem tokenizeSegments_eq (path : Str) :
    tokenizeSegments path =
      ((segments path).take kMaxPathSegments,
        min (segments path).length (kMaxPathSegments + 1)) := by
  rw [tokenizeSegments, tokenizeLoop_eq path [] [] (by simp) (by simp)]
  rfl

theorem ne_nil_of_mem_segments {path s : Str} (h : s ∈ segments path) : s ≠ [] := by
  simpa using (mem_filter.mp h).2

/-- A registration at a list of segments. -/
abbrev TrieEntry := Registration (List Str)

namespace RouteTrie

open Lib Lib.RadixGraph

/-! ## The pool as a graph -/

/-- Every edge carries the one segment that leads into the node. -/
def graph (t : RouteTrie) : RadixGraph Nat Str RouteTable where
  root := 0
  edge i := [(t.node i).segment]
  child := t.findChild
  term i := (t.node i).routeIdxByMethod

structure Inv (t : RouteTrie) : Prop where
  shape : Shape t.graph
  live : ∀ {i w}, At t.graph i w → i < t.nodes.length
  children : ∀ {i w}, At t.graph i w → ∀ c ∈ (t.node i).children,
    c < t.nodes.length ∧ (t.node c).segment ≠ [] ∧ t.findChild i (t.node c).segment = some c
  size : t.nodes.length ≤ kMaxNodes

/-- The table at a list of segments. -/
noncomputable def sem (t : RouteTrie) (u : List Str) : RouteTable :=
  t.graph.lookD noRoutes u

variable {t t' : RouteTrie} {i cur c : Nat} {s : Str} {w u : List Str}

theorem mem_of_findChild (h : t.findChild i s = some c) :
    c ∈ (t.node i).children ∧ (t.node c).segment = s ∧ s ≠ [] := by
  unfold findChild at h
  split at h
  · cases h
  · next hs => exact ⟨mem_of_find?_eq_some h, by simpa using List.find?_some h, hs⟩

theorem clear_at (h : At clear.graph i w) : i = 0 ∧ w = [] := by
  induction h with
  | root => exact ⟨rfl, rfl⟩
  | step _ hc ih =>
    rw [ih.1] at hc
    exact absurd (mem_of_findChild hc).1 (by simp [node, clear])

/-- An empty trie is well formed. -/
theorem clear_inv : Inv clear where
  shape := {
    key := fun h hc => by
      rw [(clear_at h).1] at hc
      exact absurd (mem_of_findChild hc).1 (by simp [node, clear])
    word_unique := fun h h' => (clear_at h).2.trans (clear_at h').2.symm }
  live h := by rw [(clear_at h).1]; decide
  children h c hc := by
    rw [(clear_at h).1] at hc
    simp [node, clear] at hc
  size := by decide

/-- An empty trie has no routes. -/
theorem clear_sem (u : List Str) : clear.sem u = noRoutes := by
  by_cases hu : ∃ i, At clear.graph i u
  · obtain ⟨i, hi⟩ := hu
    rw [sem, lookD_of_at clear_inv.shape _ hi, (clear_at hi).1]
    rfl
  · exact lookD_of_not_at _ (not_exists.mp hu)

/-! ## Adding a node -/

theorem node_setNode_self {n : TrieNode} (h : i < t.nodes.length) : (t.setNode i n).node i = n := by
  simp [node, setNode, getD_eq_getElem?_getD, h]

theorem node_setNode_ne {n : TrieNode} {j : Nat} (h : j ≠ i) :
    (t.setNode i n).node j = t.node j := by
  simp [node, setNode, getD_eq_getElem?_getD, List.getElem?_set_ne (Ne.symm h)]

section appendChild

theorem length_appendChild : (t.appendChild cur s).nodes.length = t.nodes.length + 1 := by
  simp [appendChild, setNode]

theorem node_concat_lt {n : TrieNode} (h : i < t.nodes.length) :
    RouteTrie.node ⟨t.nodes ++ [n]⟩ i = t.node i := by
  simp [node, getD_eq_getElem?_getD, List.getElem?_append_left h]

theorem node_appendChild_cur (h : cur < t.nodes.length) :
    (t.appendChild cur s).node cur =
      { t.node cur with children := (t.node cur).children ++ [t.nodes.length] } := by
  rw [appendChild, node_setNode_self (by simp; omega), node_concat_lt h]

theorem node_appendChild_new (h : cur < t.nodes.length) :
    (t.appendChild cur s).node t.nodes.length = { segment := s } := by
  rw [appendChild, node_setNode_ne (by omega)]
  simp [node]

theorem node_appendChild_ne (h : i < t.nodes.length) (hi : i ≠ cur) :
    (t.appendChild cur s).node i = t.node i := by
  rw [appendChild, node_setNode_ne hi, node_concat_lt h]

/-- Nodes keep the segment they were created with. -/
theorem segment_appendChild (hcur : cur < t.nodes.length) (h : i < t.nodes.length) :
    ((t.appendChild cur s).node i).segment = (t.node i).segment := by
  by_cases hi : i = cur
  · rw [hi, node_appendChild_cur hcur]
  · rw [node_appendChild_ne h hi]

theorem find?_congr_mem {α : Type} {p q : α → Bool} {l : List α} (h : ∀ a ∈ l, p a = q a) :
    l.find? p = l.find? q := by
  induction l with
  | nil => rfl
  | cons a l ih =>
    rw [List.find?_cons, List.find?_cons, h a (mem_cons_self ..),
      ih (fun b hb => h b (mem_cons_of_mem _ hb))]

theorem findChild_appendChild_ne (hcur : cur < t.nodes.length) (hi : i < t.nodes.length)
    (hne : i ≠ cur) (hlive : ∀ c ∈ (t.node i).children, c < t.nodes.length) (x : Str) :
    (t.appendChild cur s).findChild i x = t.findChild i x := by
  unfold findChild
  rw [node_appendChild_ne hi hne]
  split
  · rfl
  · apply find?_congr_mem
    intro c hc
    rw [segment_appendChild hcur (hlive c hc)]

/-- The new child is found under its segment. -/
theorem findChild_appendChild_cur (hcur : cur < t.nodes.length)
    (hlive : ∀ c ∈ (t.node cur).children, c < t.nodes.length) (hs : s ≠ [])
    (hnone : t.findChild cur s = none) (x : Str) :
    (t.appendChild cur s).findChild cur x =
      if x = s then some t.nodes.length else t.findChild cur x := by
  have hold : (t.node cur).children.find?
        (fun c => ((t.appendChild cur s).node c).segment = x) =
      (t.node cur).children.find? (fun c => (t.node c).segment = x) := by
    apply find?_congr_mem
    intro c hc
    rw [segment_appendChild hcur (hlive c hc)]
  unfold findChild at hnone ⊢
  rw [if_neg hs] at hnone
  rw [node_appendChild_cur hcur, List.find?_append, hold, List.find?_singleton,
    node_appendChild_new hcur]
  by_cases hx : x = s
  · subst hx
    simp [hs, hnone]
  · by_cases hxn : x = []
    · simp [hxn, Ne.symm hs]
    · simp [hx, hxn, Ne.symm hx]

variable (hI : Inv t) (hcur : At t.graph cur w) (hs : s ≠ []) (hnone : t.findChild cur s = none)

include hI hcur hs hnone in
/-- A node appended below `cur` is a leaf of the graph; nothing moves. -/
theorem appendChild_addLeaf :
    AddLeaf t.graph (t.appendChild cur s).graph cur cur t.nodes.length w s [] := by
  have hlt : cur < t.nodes.length := hI.live hcur
  have hlive : ∀ {i u}, At t.graph i u → ∀ c ∈ (t.node i).children, c < t.nodes.length :=
    fun hi c hc => (hI.children hi c hc).1
  have hid : ∀ c, reloc cur cur c = c := by
    intro c
    unfold reloc
    split <;> simp_all
  have hchild := findChild_appendChild_cur hlt (hlive hcur) hs hnone
  exact {
    at_cur := hcur
    no_child := hnone
    leaf_fresh := fun u hu => absurd (hI.live hu) (lt_irrefl _)
    cur_fresh := .inl rfl
    leaf_ne := by omega
    root := (hid 0).symm
    edge_cur := by
      show [((t.appendChild cur s).node cur).segment] = [(t.node cur).segment]
      rw [segment_appendChild hlt hlt]
    term_cur := by
      show ((t.appendChild cur s).node cur).routeIdxByMethod = _
      rw [node_appendChild_cur hlt]
      rfl
    child_same := fun x hx => (hchild x).trans (if_neg hx)
    child_new := (hchild s).trans (if_pos rfl)
    edge_leaf := by
      show [((t.appendChild cur s).node t.nodes.length).segment] = [s]
      rw [node_appendChild_new hlt]
    child_leaf := fun x => by
      show (t.appendChild cur s).findChild t.nodes.length x = none
      rw [findChild, node_appendChild_new hlt]
      simp
    edge_other := fun hr _ => by
      show [((t.appendChild cur s).node _).segment] = [(t.node _).segment]
      rw [segment_appendChild hlt (hI.live hr)]
    term_other := fun hr hne => by
      show ((t.appendChild cur s).node _).routeIdxByMethod = _
      rw [node_appendChild_ne (hI.live hr) hne]
      rfl
    child_other := fun hr hne x => by
      show (t.appendChild cur s).findChild _ x = (t.findChild _ x).map _
      rw [findChild_appendChild_ne hlt (hI.live hr) hne (hlive hr)]
      cases t.findChild _ x <;> simp [hid] }

include hI hcur hs hnone in
/-- Adding a node keeps the invariant. -/
theorem appendChild_inv (hroom : t.nodes.length < kMaxNodes) : Inv (t.appendChild cur s) := by
  have hadd := appendChild_addLeaf hI hcur hs hnone
  have hlt : cur < t.nodes.length := hI.live hcur
  have hlive : ∀ {i u}, At t.graph i u → ∀ c ∈ (t.node i).children, c < t.nodes.length :=
    fun hi c hc => (hI.children hi c hc).1
  refine ⟨hadd.shape hI.shape, fun {i u} hi => ?_, fun {i u} hi c hc => ?_, ?_⟩
  · rw [length_appendChild]
    rcases (hadd.at_iff hI.shape).mp hi with ⟨rfl, -⟩ | ⟨rfl, -⟩ | ⟨-, hi⟩
    · omega
    · omega
    · have := hI.live hi
      omega
  · rw [length_appendChild]
    rcases (hadd.at_iff hI.shape).mp hi with ⟨rfl, -⟩ | ⟨rfl, -⟩ | ⟨hne, hi⟩
    · -- the children of `cur` are the old ones and the new node
      rw [node_appendChild_cur hlt] at hc
      rcases mem_append.mp hc with hc | hc
      · obtain ⟨hclt, hcne, hfind⟩ := hI.children hcur c hc
        refine ⟨by omega, by rwa [segment_appendChild hlt hclt], ?_⟩
        rw [segment_appendChild hlt hclt, findChild_appendChild_cur hlt (hlive hcur) hs hnone,
          if_neg, hfind]
        intro he
        rw [he, hnone] at hfind
        cases hfind
      · rw [mem_singleton.mp hc, node_appendChild_new hlt]
        refine ⟨by omega, hs, ?_⟩
        rw [findChild_appendChild_cur hlt (hlive hcur) hs hnone, if_pos rfl]
    · rw [node_appendChild_new hlt] at hc
      cases hc
    · have hilt := hI.live hi
      rw [node_appendChild_ne hilt hne] at hc
      obtain ⟨hclt, hcne, hfind⟩ := hI.children hi c hc
      refine ⟨by omega, by rwa [segment_appendChild hlt hclt], ?_⟩
      rw [segment_appendChild hlt hclt, findChild_appendChild_ne hlt hilt hne (hlive hi), hfind]
  · rw [length_appendChild]
    exact hroom

end appendChild

/-! ## Creation order

`ks` is the list of keys registered so far, oldest first. -/

/-- Position of the first key that passes through `u`. -/
def rank (ks : List (List Str)) (u : List Str) : Nat := ks.findIdx (fun k => u.isPrefixOf k)

variable {ks : List (List Str)} {key : List Str}

theorem rank_lt (h : ∃ k ∈ ks, u <+: k) : rank ks u < ks.length := by
  obtain ⟨k, hk, hu⟩ := h
  exact findIdx_lt_length_of_exists ⟨k, hk, by simpa using hu⟩

/-- Later keys do not change a rank. -/
theorem rank_append_of_mem (h : ∃ k ∈ ks, u <+: k) : rank (ks ++ [key]) u = rank ks u := by
  have hlt := rank_lt h
  unfold rank at hlt ⊢
  rw [findIdx_append, if_pos hlt]

/-- A new word gets the next rank. -/
theorem rank_append_of_not_mem (h : ¬ ∃ k ∈ ks, u <+: k) (hu : u <+: key) :
    rank (ks ++ [key]) u = ks.length := by
  have hlen : ks.findIdx (fun k => u.isPrefixOf k) = ks.length := by
    rw [findIdx_eq_length]
    intro k hk
    by_contra hne
    exact h ⟨k, hk, by simpa using hne⟩
  have hself : u.isPrefixOf key = true := by simpa using hu
  rw [rank, findIdx_append, hlen, if_neg (lt_irrefl _)]
  simp [findIdx_cons, hself]

/-- The children of the node at `w` stand in the order of their ranks. -/
def OrderedAt (t : RouteTrie) (ks : List (List Str)) (i : Nat) (w : List Str) : Prop :=
  (t.node i).children.Pairwise (fun c c' =>
    rank ks (w ++ [(t.node c).segment]) < rank ks (w ++ [(t.node c').segment]))

/-- The nodes are the prefixes of the registered keys, with children in creation order. -/
structure History (t : RouteTrie) (ks : List (List Str)) : Prop where
  complete : ∀ k ∈ ks, ∀ u, u <+: k → ∃ i, At t.graph i u
  words : ∀ {i u}, At t.graph i u → u = [] ∨ ∃ k ∈ ks, u <+: k
  ordered : ∀ {i w}, At t.graph i w → OrderedAt t ks i w

/-- The state in the middle of inserting `key`: some prefixes of it are there already. -/
structure Growing (t : RouteTrie) (ks : List (List Str)) (key : List Str) : Prop where
  complete : ∀ k ∈ ks, ∀ u, u <+: k → ∃ i, At t.graph i u
  words : ∀ {i u}, At t.graph i u → u = [] ∨ (∃ k ∈ ks, u <+: k) ∨ u <+: key
  ordered : ∀ {i w}, At t.graph i w → OrderedAt t (ks ++ [key]) i w

theorem Inv.at_child (hI : Inv t) (hi : At t.graph i w) (hc : c ∈ (t.node i).children) :
    At t.graph c (w ++ [(t.node c).segment]) :=
  hi.step (hI.children hi c hc).2.2

theorem History.growing (hI : Inv t) (h : History t ks) (key : List Str) : Growing t ks key where
  complete := h.complete
  words hi := (h.words hi).imp id .inl
  ordered {i w} hi := by
    apply (h.ordered hi).imp_of_mem
    intro c c' hc hc' hlt
    have hmem : ∀ c ∈ (t.node i).children, ∃ k ∈ ks, w ++ [(t.node c).segment] <+: k :=
      fun c hc => (h.words (hI.at_child hi hc)).resolve_left (by simp)
    rwa [rank_append_of_mem (hmem c hc), rank_append_of_mem (hmem c' hc')]

/-- A prefix of a word with a node has a node: edges are one segment long. -/
theorem at_of_prefix (h : At t.graph i u) {v : List Str} (hv : v <+: u) :
    ∃ j, At t.graph j v := by
  induction h with
  | root => exact ⟨0, (prefix_nil.mp hv) ▸ At.root⟩
  | step hr hc ih =>
    rcases prefix_concat_iff.mp hv with rfl | hv
    · exact ⟨_, hr.step hc⟩
    · exact ih hv

theorem Growing.history (h : Growing t ks key) (hkey : At t.graph i key) :
    History t (ks ++ [key]) where
  complete k hk u hu := by
    rcases mem_append.mp hk with hk | hk
    · exact h.complete k hk u hu
    · rw [mem_singleton.mp hk] at hu
      exact at_of_prefix hkey hu
  words hi := by
    rcases h.words hi with hu | ⟨k, hk, hu⟩ | hu
    · exact .inl hu
    · exact .inr ⟨k, mem_append_left _ hk, hu⟩
    · exact .inr ⟨key, by simp, hu⟩
  ordered := h.ordered

/-- Appending the next node of `key`: it comes after all its siblings, which earlier keys have
created. -/
theorem Growing.appendChild {rest : List Str} (hI : Inv t) (hcur : At t.graph cur w) (hs : s ≠ [])
    (hnone : t.findChild cur s = none) (h : Growing t ks (w ++ s :: rest)) :
    Growing (t.appendChild cur s) ks (w ++ s :: rest) := by
  have hadd := appendChild_addLeaf hI hcur hs hnone
  have hlt := hI.live hcur
  have hkeep : ∀ {i u}, At t.graph i u → At (t.appendChild cur s).graph i u := by
    intro i u hi
    rw [hadd.at_iff hI.shape]
    by_cases hic : i = cur
    · subst hic
      exact .inl ⟨rfl, hI.shape.word_unique hi hcur⟩
    · exact .inr (.inr ⟨hic, hi⟩)
  have hword : w ++ [s] <+: w ++ s :: rest := ⟨rest, by simp⟩
  refine ⟨fun k hk u hu => ?_, fun {i u} hi => ?_, fun {i v} hi => ?_⟩
  · obtain ⟨i, hi⟩ := h.complete k hk u hu
    exact ⟨i, hkeep hi⟩
  · rcases (hadd.at_iff hI.shape).mp hi with ⟨-, rfl⟩ | ⟨-, rfl⟩ | ⟨-, hi⟩
    · exact h.words hcur
    · exact .inr (.inr hword)
    · exact h.words hi
  · -- siblings keep their segments, so their ranks are what they were
    have hold : ∀ {i v}, At t.graph i v → (t.node i).children.Pairwise (fun c c' =>
        rank (ks ++ [w ++ s :: rest]) (v ++ [((t.appendChild cur s).node c).segment]) <
          rank (ks ++ [w ++ s :: rest]) (v ++ [((t.appendChild cur s).node c').segment])) := by
      intro i v hi
      apply (h.ordered hi).imp_of_mem
      intro c c' hc hc' hlt'
      rwa [segment_appendChild hlt (hI.children hi c hc).1,
        segment_appendChild hlt (hI.children hi c' hc').1]
    unfold OrderedAt
    rcases (hadd.at_iff hI.shape).mp hi with ⟨rfl, rfl⟩ | ⟨rfl, -⟩ | ⟨hne, hi⟩
    · rw [node_appendChild_cur hlt, pairwise_append]
      refine ⟨hold hcur, pairwise_singleton .., fun c hc c' hc' => ?_⟩
      rw [mem_singleton.mp hc', node_appendChild_new hlt,
        segment_appendChild hlt (hI.children hcur c hc).1]
      have hcword := hI.at_child hcur hc
      have hnew : ¬ ∃ k ∈ ks, v ++ [s] <+: k := by
        rintro ⟨k, hk, hpre⟩
        obtain ⟨j, hj⟩ := h.complete k hk _ hpre
        exact hadd.vacant hI.shape j hj
      have hknown : ∃ k ∈ ks, v ++ [(t.node c).segment] <+: k := by
        rcases h.words hcword with hnil | hmem | hpre
        · simp at hnil
        · exact hmem
        · exfalso
          have hseg : (t.node c).segment = s := by
            simpa using (prefix_append_right_inj v).mp hpre
          have hfind := (hI.children hcur c hc).2.2
          rw [hseg, hnone] at hfind
          cases hfind
      rw [rank_append_of_mem hknown, rank_append_of_not_mem hnew hword]
      exact rank_lt hknown
    · rw [node_appendChild_new hlt]
      exact List.Pairwise.nil
    · rw [node_appendChild_ne (hI.live hi) hne]
      exact hold hi

/-! ## The loop -/

/-- What the loop over the segments of `key` leaves behind. -/
structure Placed (t t' : RouteTrie) (ks : List (List Str)) (key : List Str) (i : Nat) : Prop where
  inv : Inv t'
  growing : Growing t' ks key
  at_end : At t'.graph i key
  sem_eq : ∀ u, t'.sem u = t.sem u

/-- The descent ends at the key, or for want of room. -/
theorem insertLoop_spec : ∀ (segs : List Str) {t : RouteTrie} {cur : Nat} {w : List Str}, Inv t →
    At t.graph cur w → (∀ s ∈ segs, s ≠ []) → Growing t ks (w ++ segs) →
    t.insertLoop cur segs = none ∨
      ∃ t' i, t.insertLoop cur segs = some (t', i) ∧ Placed t t' ks (w ++ segs) i
  | [], t, cur, w, hI, hcur, _, hgr => by
    rw [append_nil] at hgr ⊢
    exact .inr ⟨t, cur, rfl, hI, hgr, hcur, fun _ => rfl⟩
  | s :: segs, t, cur, w, hI, hcur, hne, hgr => by
    have hs : s ≠ [] := hne s (mem_cons_self ..)
    have hne' : ∀ s ∈ segs, s ≠ [] := fun s' hs' => hne s' (mem_cons_of_mem _ hs')
    have hword : w ++ s :: segs = w ++ [s] ++ segs := by simp
    rw [insertLoop]
    cases hc : t.findChild cur s with
    | some child =>
      have hseg : (t.node child).segment = s := (mem_of_findChild hc).2.1
      have hat : At t.graph child (w ++ [s]) := hseg ▸ hcur.step hc
      rw [hword] at hgr ⊢
      exact insertLoop_spec segs hI hat hne' hgr
    | none =>
      dsimp only
      split
      · exact .inl rfl
      · next hroom =>
        have hlen : t.nodes.length < kMaxNodes := not_le.mp fun h => hroom (.inl h)
        have hadd := appendChild_addLeaf hI hcur hs hc
        have hI' := appendChild_inv hI hcur hs hc hlen
        have hgr' := hgr.appendChild hI hcur hs hc
        have hterm : (t.appendChild cur s).graph.term t.nodes.length = noRoutes := by
          show ((t.appendChild cur s).node t.nodes.length).routeIdxByMethod = noRoutes
          rw [node_appendChild_new (hI.live hcur)]
          rfl
        have hat : At (t.appendChild cur s).graph t.nodes.length (w ++ [s]) :=
          hadd.at_leaf hI.shape
        rw [hword] at hgr' ⊢
        apply (insertLoop_spec segs hI' hat hne' hgr').imp id
        rintro ⟨t', i, hok, hpl⟩
        refine ⟨t', i, hok, hpl.inv, hpl.growing, hpl.at_end, fun u => ?_⟩
        rw [hpl.sem_eq]
        exact hadd.lookD_eq hI.shape hterm u

/-! ## Terminals -/

theorem setTerminal_children (j : Nat) (slot : MethodSlot) (routeIdx : UInt16) :
    ((t.setTerminal i slot routeIdx).node j).children = (t.node j).children ∧
      ((t.setTerminal i slot routeIdx).node j).segment = (t.node j).segment := by
  unfold setTerminal
  dsimp only
  split
  · by_cases hj : j = i
    · subst hj
      by_cases hlt : j < t.nodes.length
      · rw [node_setNode_self hlt]
        exact ⟨rfl, rfl⟩
      · rw [setNode, set_eq_of_length_le (not_lt.mp hlt)]
        exact ⟨rfl, rfl⟩
    · rw [node_setNode_ne hj]
      exact ⟨rfl, rfl⟩
  · exact ⟨rfl, rfl⟩

theorem setTerminal_findChild (j : Nat) (slot : MethodSlot) (routeIdx : UInt16) (x : Str) :
    (t.setTerminal i slot routeIdx).findChild j x = t.findChild j x := by
  simp only [findChild, (setTerminal_children ..).1, (setTerminal_children ..).2]

theorem length_setTerminal (slot : MethodSlot) (routeIdx : UInt16) :
    (t.setTerminal i slot routeIdx).nodes.length = t.nodes.length := by
  unfold setTerminal
  dsimp only
  split
  · simp [setNode]
  · rfl

theorem table_setTerminal (hi : i < t.nodes.length) (j : Nat) (slot : MethodSlot)
    (routeIdx : UInt16) :
    ((t.setTerminal i slot routeIdx).node j).routeIdxByMethod =
      if j = i then register (t.node i).routeIdxByMethod slot routeIdx
      else (t.node j).routeIdxByMethod := by
  unfold setTerminal register
  dsimp only
  split
  · by_cases hj : j = i
    · rw [hj, node_setNode_self hi, if_pos rfl]
    · rw [node_setNode_ne hj, if_neg hj]
  · split
    · next hj => rw [hj]
    · rfl

/-- Setting a terminal changes one table. -/
theorem setTerminal_setTerm (hi : i < t.nodes.length) (slot : MethodSlot) (routeIdx : UInt16) :
    SetTerm t.graph (t.setTerminal i slot routeIdx).graph i where
  root := rfl
  edge := fun {j _} _ => by
    show [((t.setTerminal i slot routeIdx).node j).segment] = [(t.node j).segment]
    rw [(setTerminal_children ..).2]
  child := fun {j _} _ x => setTerminal_findChild j slot routeIdx x
  term_other := fun {j _} _ hj => by
    show ((t.setTerminal i slot routeIdx).node j).routeIdxByMethod = _
    rw [table_setTerminal hi, if_neg hj]
    rfl

/-- What a successful `insert` has done: the route is registered at its segments, no other table
has changed, and the history is one key longer. -/
structure Inserted (t t' : RouteTrie) (ks : List (List Str)) (key : List Str) (slot : MethodSlot)
    (routeIdx : UInt16) : Prop where
  inv : Inv t'
  history : History t' (ks ++ [key])
  sem_self : t'.sem key = register (t.sem key) slot routeIdx
  sem_other : ∀ u, u ≠ key → t'.sem u = t.sem u

theorem Placed.inserted (h : Placed t t' ks key i) (slot : MethodSlot) (routeIdx : UInt16) :
    Inserted t (t'.setTerminal i slot routeIdx) ks key slot routeIdx := by
  have hlt := h.inv.live h.at_end
  have hset := setTerminal_setTerm hlt slot routeIdx
  have hshape := hset.shape h.inv.shape
  have hhist := h.growing.history h.at_end
  refine ⟨⟨hshape, fun hj => ?_, fun {j w} hj c hc => ?_, ?_⟩, ⟨fun k hk u hu => ?_, fun hj => ?_,
    fun {j w} hj => ?_⟩, ?_, fun u hu => ?_⟩
  · rw [length_setTerminal]
    exact h.inv.live (hset.at_iff.mp hj)
  · rw [(setTerminal_children ..).1] at hc
    rw [length_setTerminal, setTerminal_findChild, (setTerminal_children ..).2]
    exact h.inv.children (hset.at_iff.mp hj) c hc
  · rw [length_setTerminal]
    exact h.inv.size
  · obtain ⟨j, hj⟩ := hhist.complete k hk u hu
    exact ⟨j, hset.at_iff.mpr hj⟩
  · exact hhist.words (hset.at_iff.mp hj)
  · have := hhist.ordered (hset.at_iff.mp hj)
    simpa only [OrderedAt, (setTerminal_children ..).1, (setTerminal_children ..).2] using this
  · rw [← h.sem_eq, sem, sem, lookD_of_at hshape _ (hset.at_iff.mpr h.at_end),
      lookD_of_at h.inv.shape _ h.at_end]
    exact (table_setTerminal hlt i slot routeIdx).trans (if_pos rfl)
  · rw [← h.sem_eq, sem, sem, lookD, hset.look_eq h.inv.shape h.at_end hu]
    rfl

/-- `insert` either leaves the trie alone and reports failure or registers the route. -/
theorem insert_spec (hI : Inv t) (hH : History t ks) (path : Str) (methodChar : UInt8)
    (routeIdx : UInt16) :
    t.insert path methodChar routeIdx = (t, false) ∨
      ∃ t' slot, t.insert path methodChar routeIdx = (t', true) ∧
        routeMethodSlot methodChar = some slot ∧ (segments path).length ≤ kMaxPathSegments ∧
        Inserted t t' ks (segments path) slot routeIdx := by
  unfold insert
  cases hslot : routeMethodSlot methodChar with
  | none => exact .inl rfl
  | some slot =>
    rw [tokenizeSegments_eq]
    dsimp only
    split
    · exact .inl rfl
    · next hn =>
      have hlen : (segments path).length ≤ kMaxPathSegments := by omega
      rw [take_of_length_le hlen]
      obtain hf | ⟨t', i, hok, hpl⟩ := insertLoop_spec (segments path) hI
        (At.root (g := t.graph)) (fun s hs => ne_nil_of_mem_segments hs)
        (hH.growing hI (segments path))
      · have hf' : t.insertLoop 0 (segments path) = none := hf
        exact .inl (by rw [hf'])
      · have hok' : t.insertLoop 0 (segments path) = some (t', i) := hok
        exact .inr ⟨_, slot, by rw [hok'], rfl, hlen, hpl.inserted slot routeIdx⟩

/-! ## Runs of insertions -/

def insertStep (s : RouteTrie × List TrieEntry) (c : InsertCall) : RouteTrie × List TrieEntry :=
  match s.1.insert c.path c.methodChar c.routeIdx, routeMethodSlot c.methodChar with
  | (t, true), some slot => (t, s.2 ++ [⟨segments c.path, slot, c.routeIdx⟩])
  | (t, _), _ => (t, s.2)

/-- A sequence of calls on a cleared trie: the trie and the successful registrations in order. -/
def insertAll (calls : List InsertCall) : RouteTrie × List TrieEntry :=
  calls.foldl insertStep (clear, [])

/-- The state after any sequence of calls with valid route indices. -/
structure Reached (t : RouteTrie) (es : List TrieEntry) : Prop where
  inv : Inv t
  history : History t (es.map (·.key))
  holds : Holds t.sem es
  short : ∀ e ∈ es, e.key.length ≤ kMaxPathSegments

theorem clear_reached : Reached clear [] where
  inv := clear_inv
  history := ⟨by simp, fun h => .inl (clear_at h).2, fun h => by
    rw [(clear_at h).1]
    exact List.Pairwise.nil⟩
  holds := holds_nil clear_sem
  short := by simp

theorem Reached.inserted {es : List TrieEntry} {slot : MethodSlot} {routeIdx : UInt16}
    (h : Reached t es) (hlen : key.length ≤ kMaxPathSegments)
    (hins : Inserted t t' (es.map (·.key)) key slot routeIdx) (hidx : routeIdx ≠ kInvalidRoute) :
    Reached t' (es ++ [⟨key, slot, routeIdx⟩]) where
  inv := hins.inv
  history := by simpa using hins.history
  holds := h.holds.step hins.sem_self hins.sem_other hidx
  short e he := by
    rcases mem_append.mp he with he | he
    · exact h.short e he
    · rw [mem_singleton.mp he]
      exact hlen

theorem insertStep_reached {es : List TrieEntry} (h : Reached t es) (c : InsertCall)
    (hidx : c.routeIdx ≠ kInvalidRoute) :
    Reached (insertStep (t, es) c).1 (insertStep (t, es) c).2 := by
  obtain hf | ⟨t', slot, hok, hslot, hlen, hins⟩ :=
    insert_spec h.inv h.history c.path c.methodChar c.routeIdx
  · have heq : insertStep (t, es) c = (t, es) := by
      simp only [insertStep, hf]
    rw [heq]
    exact h
  · have heq : insertStep (t, es) c = (t', es ++ [⟨segments c.path, slot, c.routeIdx⟩]) := by
      simp only [insertStep, hok, hslot]
    rw [heq]
    exact h.inserted hlen hins hidx

/-- Whatever is inserted into an empty trie. -/
theorem insertAll_reached (calls : List InsertCall)
    (hidx : ∀ c ∈ calls, c.routeIdx ≠ kInvalidRoute) :
    Reached (insertAll calls).1 (insertAll calls).2 := by
  have main : ∀ (l : List InsertCall) (s : RouteTrie × List TrieEntry),
      (∀ c ∈ l, c.routeIdx ≠ kInvalidRoute) → Reached s.1 s.2 →
      Reached (l.foldl insertStep s).1 (l.foldl insertStep s).2 := by
    intro l
    induction l with
    | nil => exact fun s _ h => h
    | cons c l ih =>
      intro s hl h
      exact ih _ (fun c' hc' => hl c' (mem_cons_of_mem _ hc'))
        (insertStep_reached h c (hl c (mem_cons_self ..)))
  exact main calls _ hidx clear_reached

end RouteTrie
end Rut
