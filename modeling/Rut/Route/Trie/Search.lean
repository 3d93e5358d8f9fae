import Rut.Lib.Binary
import Rut.Route.Trie.Insert

/-!
# The depth-first search

Everything a frame carries is a function of the list of segments that leads to its node. So the
search is a traversal of words: `walk` lists the nodes that match a prefix of the request in the
order in which the loop visits them, and

    searchLoop_eq : searchLoop … = fold of `consider` over the walk

The walk visits a node at most once, which bounds it by the size of the pool; the stack is never
longer than what is left to visit, so no push is ever lost.
-/

namespace Rut

open List

/-- The pattern `u` matches the beginning of the request: a segment that starts with `':'` matches
any one segment, every other segment itself. -/
def matchesPrefix : List Str → List Str → Bool
  | [], _ => true
  | _ :: _, [] => false
  | s :: u, r :: req => (isParamSegment s || s = r) && matchesPrefix u req

/-- The parameters of a pattern with the request segments they match. -/
def captures : List Str → List Str → List RouteParam
  | s :: u, r :: req =>
    if isParamSegment s then ⟨s.drop 1, r⟩ :: captures u req else captures u req
  | _, _ => []

/-- Which segments of a pattern are static. -/
def staticFlags (u : List Str) : List Bool := u.map (fun s => !isParamSegment s)

theorem captures_concat : ∀ {u req : List Str} {s r : Str}, req[u.length]? = some r →
    captures (u ++ [s]) req =
      captures u req ++ if isParamSegment s then [⟨s.drop 1, r⟩] else []
  | [], r' :: req, s, r, h => by
    obtain rfl : r' = r := by simpa using h
    simp [captures]
  | s' :: u, r' :: req, s, r, h => by
    have h' : req[u.length]? = some r := by simpa using h
    have ih := captures_concat (s := s) h'
    simp only [cons_append, captures, ih]
    split <;> simp

theorem matchesPrefix_length : ∀ {u req : List Str}, matchesPrefix u req = true →
    u.length ≤ req.length
  | [], _, _ => by simp
  | s :: u, r :: req, h => by
    simp only [matchesPrefix, Bool.and_eq_true] at h
    simpa using matchesPrefix_length h.2

/-! ## The specificity mask -/

/-- The mask a frame has collected after a word with these flags. -/
def maskOf (flags : List Bool) : Nat :=
  flags.zipIdx.foldl
    (fun m bk => if bk.1 && bk.2 + 1 < 64 then m ||| 1 <<< (63 - (bk.2 + 1)) else m) 0

theorem maskOf_concat (fl : List Bool) (b : Bool) :
    maskOf (fl ++ [b]) =
      if b && fl.length + 1 < 64 then maskOf fl ||| 1 <<< (63 - (fl.length + 1))
      else maskOf fl := by
  simp [maskOf, zipIdx_append]

/-- Up to 63 segments the mask is the flags read as a binary number, shifted to the top. -/
theorem maskOf_eq (fl : List Bool) (hlen : fl.length ≤ 63) :
    maskOf fl = 2 ^ (63 - fl.length) * Lib.binVal fl := by
  induction fl using List.reverseRecOn with
  | nil => rfl
  | append_singleton fl b ih =>
    rw [length_append, length_singleton] at hlen ⊢
    have hpow : 2 ^ (63 - fl.length) = 2 * 2 ^ (63 - (fl.length + 1)) := by
      rw [show 63 - fl.length = 63 - (fl.length + 1) + 1 by omega, pow_succ]
      ring
    have hpos : 0 < 2 ^ (63 - (fl.length + 1)) := Nat.two_pow_pos _
    rw [maskOf_concat, ih (by omega), Lib.binVal_concat]
    cases b with
    | false =>
      simp only [Bool.false_and, Bool.false_eq_true, if_false, Bool.toNat_false, hpow]
      ring
    | true =>
      have hlt : fl.length + 1 < 64 := by omega
      simp only [Bool.true_and, hlt, decide_true, if_true, Bool.toNat_true,
        Nat.one_shiftLeft]
      rw [← Nat.two_pow_add_eq_or_of_lt (by omega), hpow]
      ring

/-- Of two patterns of one length with equally many static segments, the one with the greater
mask is static further to the left, and equal masks mean equal flags. The 64th segment has no bit
of its own: once the others agree, the number of static segments decides it. -/
theorem maskOf_order {fl fl' : List Bool} (hlen : fl.length = fl'.length) (hmax : fl.length ≤ 64)
    (hcount : fl.count true = fl'.count true) :
    (maskOf fl < maskOf fl' → fl < fl') ∧ (maskOf fl = maskOf fl' → fl = fl') := by
  rcases Nat.lt_or_eq_of_le hmax with hlt | h64
  · obtain ⟨h₁, h₂⟩ := Lib.binVal_order hlen
    rw [maskOf_eq fl (by omega), maskOf_eq fl' (by omega), ← hlen]
    have hpos : 0 < 2 ^ (63 - fl.length) := Nat.two_pow_pos _
    exact ⟨fun h => h₁ (Nat.lt_of_mul_lt_mul_left h),
      fun h => h₂ (Nat.eq_of_mul_eq_mul_left hpos h)⟩
  · obtain ⟨f, b, rfl⟩ : ∃ f b, fl = f ++ [b] := by
      rcases eq_nil_or_concat fl with rfl | ⟨f, b, rfl⟩
      · simp at h64
      · exact ⟨f, b, by simp⟩
    obtain ⟨f', b', rfl⟩ : ∃ f b, fl' = f ++ [b] := by
      rcases eq_nil_or_concat fl' with rfl | ⟨f, b, rfl⟩
      · simp at hlen
      · exact ⟨f, b, by simp⟩
    simp only [length_append, length_singleton] at h64 hlen
    obtain ⟨h₁, h₂⟩ := Lib.binVal_order (show f.length = f'.length by omega)
    have hmask : ∀ (g : List Bool) (c : Bool), g.length = 63 → maskOf (g ++ [c]) = Lib.binVal g := by
      intro g c hg
      rw [maskOf_concat, hg, maskOf_eq g (by omega), hg]
      simp
    rw [hmask f b (by omega), hmask f' b' (by omega)]
    refine ⟨fun h => ?_, fun h => ?_⟩
    · exact Lib.append_lt_append (by omega) (h₁ h) _ _
    · obtain rfl := h₂ h
      have : b = b' := by
        cases b <;> cases b' <;> simp_all
      rw [this]

namespace RouteTrie

open Lib Lib.RadixGraph

/-! ## The walk -/

/-- A node with the word that leads to it. -/
abbrev Visit := Nat × List Str

/-- The children of node `i` that match the request segment `r`, in the order in which they are
visited: the literal child, then the parameters as they were created. -/
def nextChildren (t : RouteTrie) (i : Nat) (r : Str) : List Nat :=
  (match t.findChild i r with
    | some c => if isParamSegment (t.node c).segment then [] else [c]
    | none => []) ++
  (t.node i).children.filter (fun c => isParamSegment (t.node c).segment)

/-- The nodes below `i` that match a prefix of the request, in preorder. -/
def walk (t : RouteTrie) : List Str → Nat → List Str → List Visit
  | [], i, w => [(i, w)]
  | r :: req, i, w =>
    (i, w) :: (t.nextChildren i r).flatMap (fun c => walk t req c (w ++ [(t.node c).segment]))

def frameOf (req : List Str) (x : Visit) : Frame where
  node := x.1
  segI := x.2.length
  depth := x.2.length
  staticSegments := (staticFlags x.2).count true
  staticMask := maskOf (staticFlags x.2)
  params := (captures x.2 req).take kMaxRouteParams

variable {t : RouteTrie} {req : List Str} {i c : Nat} {w : List Str} {seg s : Str}

theorem paramFrame_frameOf (hseg : req[w.length]? = some seg) (hs : isParamSegment s = true) :
    paramFrame (frameOf req (i, w)) c s seg = frameOf req (c, w ++ [s]) := by
  have hflags : staticFlags (w ++ [s]) = staticFlags w ++ [false] := by simp [staticFlags, hs]
  have hparams : (if ((captures w req).take kMaxRouteParams).length < kMaxRouteParams then
        (captures w req).take kMaxRouteParams ++ [⟨s.drop 1, seg⟩]
      else (captures w req).take kMaxRouteParams) =
      (captures (w ++ [s]) req).take kMaxRouteParams := by
    rw [captures_concat hseg, if_pos hs, length_take]
    by_cases hroom : (captures w req).length < kMaxRouteParams
    · rw [if_pos (by omega), take_of_length_le hroom.le, take_of_length_le (by simpa)]
    · rw [if_neg (by omega), take_append_of_le_length (by omega)]
  simp only [paramFrame, frameOf, hflags, maskOf_concat, Bool.false_and, Bool.false_eq_true,
    if_false, length_append, length_singleton, count_append, Frame.mk.injEq]
  exact ⟨trivial, trivial, trivial, rfl, trivial, hparams⟩

theorem literalFrame_frameOf (hseg : req[w.length]? = some seg) (hs : isParamSegment s = false) :
    literalFrame (frameOf req (i, w)) c = frameOf req (c, w ++ [s]) := by
  have hflags : staticFlags (w ++ [s]) = staticFlags w ++ [true] := by simp [staticFlags, hs]
  have hlen : (staticFlags w).length = w.length := by simp [staticFlags]
  have hparams : captures (w ++ [s]) req = captures w req := by
    rw [captures_concat hseg, if_neg (by simp [hs]), append_nil]
  simp only [literalFrame, frameOf, hflags, hparams, maskOf_concat, hlen, Bool.true_and,
    decide_eq_true_eq, length_append, length_singleton, count_append]
  rfl

/-! ## Pushing never fails while there is room -/

theorem foldl_pushFrame (p : Nat → Bool) (f : Nat → Frame) : ∀ (l : List Nat) (stack : List Frame),
    (l.filter p).length + stack.length ≤ kMaxNodes →
    l.foldl (fun st c => if p c then pushFrame st (f c) else st) stack =
      ((l.filter p).map f).reverse ++ stack
  | [], stack, _ => by simp
  | c :: l, stack, h => by
    by_cases hc : p c = true
    · rw [filter_cons_of_pos hc] at h ⊢
      rw [length_cons] at h
      have hpush : pushFrame stack (f c) = f c :: stack := if_pos (by omega)
      rw [foldl_cons, if_pos hc, hpush, foldl_pushFrame p f l _ (by simp; omega)]
      simp
    · rw [filter_cons_of_neg hc] at h ⊢
      rw [foldl_cons, if_neg hc]
      exact foldl_pushFrame p f l stack h

/-- With room for all of them, the frames of the matching children end up on the stack in the
order of the walk. -/
theorem pushChildren_eq (hseg : req[w.length]? = some seg) (stack : List Frame)
    (hroom : (t.nextChildren i seg).length + stack.length ≤ kMaxNodes) :
    t.pushChildren (frameOf req (i, w)) seg stack =
      (t.nextChildren i seg).map (fun c => frameOf req (c, w ++ [(t.node c).segment])) ++ stack := by
  have hparams : ((t.node i).children.filter (fun c => isParamSegment (t.node c).segment)).map
        (fun c => paramFrame (frameOf req (i, w)) c (t.node c).segment seg) =
      ((t.node i).children.filter (fun c => isParamSegment (t.node c).segment)).map
        (fun c => frameOf req (c, w ++ [(t.node c).segment])) := by
    apply map_congr_left
    intro c hc
    exact paramFrame_frameOf hseg (mem_filter.mp hc).2
  unfold nextChildren at hroom ⊢
  rw [length_append] at hroom
  have hfold := foldl_pushFrame (fun c => isParamSegment (t.node c).segment)
    (fun c => paramFrame (frameOf req (i, w)) c (t.node c).segment seg)
    (t.node i).children.reverse stack (by simp only [filter_reverse, length_reverse]; omega)
  rw [filter_reverse, map_reverse, reverse_reverse, hparams] at hfold
  unfold pushChildren
  rw [show (frameOf req (i, w)).node = i from rfl, hfold]
  cases hlit : t.findChild i seg with
  | none => simp
  | some c =>
    dsimp only
    rw [hlit] at hroom
    split
    · simp
    · next hp =>
      simp only [hp, if_false, length_singleton, Bool.false_eq_true] at hroom
      rw [pushFrame, if_pos (by simp; omega), literalFrame_frameOf hseg (Bool.eq_false_iff.mpr hp)]
      simp

/-! ## The loop follows the walk -/

/-- One visit: offer the node's terminal. -/
def considerAt (t : RouteTrie) (slot : MethodSlot) (req : List Str) (best : Candidate)
    (x : Visit) : Candidate :=
  consider best (pickTerminal (t.node x.1) slot) (frameOf req x)

/-- What is left to visit with these nodes on the stack. -/
def pending (t : RouteTrie) (req : List Str) (stack : List Visit) : List Visit :=
  stack.flatMap (fun x => t.walk (req.drop x.2.length) x.1 x.2)

theorem length_le_pending (t : RouteTrie) (req : List Str) (stack : List Visit) :
    stack.length ≤ (t.pending req stack).length := by
  have hwalk : ∀ (req : List Str) (i : Nat) (w : List Str), 0 < (t.walk req i w).length := by
    intro req i w
    cases req <;> simp [walk]
  induction stack with
  | nil => simp
  | cons x stack ih =>
    have := hwalk (req.drop x.2.length) x.1 x.2
    simp only [pending, flatMap_cons, length_append, length_cons] at ih ⊢
    omega

/-- Replacing a node by its matching children on the stack removes just that node from what is left
to visit. -/
theorem pending_children (stack : List Visit) (hseg : req[w.length]? = some seg) :
    t.pending req ((i, w) :: stack) = (i, w) ::
      t.pending req ((t.nextChildren i seg).map (fun c => (c, w ++ [(t.node c).segment])) ++ stack) := by
  obtain ⟨hlt, hget⟩ := List.getElem?_eq_some_iff.mp hseg
  have hdrop : req.drop w.length = seg :: req.drop (w.length + 1) := by
    rw [drop_eq_getElem_cons hlt, hget]
  simp [pending, flatMap_append, flatMap_map, hdrop, walk]

/-- With enough fuel and a stack that can hold what is left to visit, the loop is a fold over the
walk. -/
theorem searchLoop_eq (slot : MethodSlot) : ∀ (fuel : Nat) (stack : List Visit)
    (best : Candidate), (t.pending req stack).length ≤ fuel →
    (t.pending req stack).length ≤ kMaxNodes →
    searchLoop t slot req fuel (stack.map (frameOf req)) best =
      some ((t.pending req stack).foldl (t.considerAt slot req) best)
  | fuel, [], best, _, _ => by cases fuel <;> rfl
  | 0, x :: stack, best, hfuel, _ => by
    have := length_le_pending t req (x :: stack)
    rw [length_cons] at this
    omega
  | fuel + 1, (i, w) :: stack, best, hfuel, hcap => by
    have hpend : t.pending req ((i, w) :: stack) =
        t.walk (req.drop w.length) i w ++ t.pending req stack := rfl
    rw [map_cons, searchLoop]
    rw [show (frameOf req (i, w)).segI = w.length from rfl]
    cases hseg : req[w.length]? with
    | none =>
      have hdrop : req.drop w.length = [] := by simpa using hseg
      rw [hpend, hdrop] at hfuel hcap ⊢
      simp only [walk, singleton_append, length_cons] at hfuel hcap ⊢
      exact searchLoop_eq slot fuel stack _ (by omega) (by omega)
    | some seg =>
      rw [pending_children stack hseg] at hfuel hcap ⊢
      rw [length_cons] at hfuel hcap
      have hroom := length_le_pending t req ((t.nextChildren i seg).map
            (fun c => (c, w ++ [(t.node c).segment])) ++ stack)
      rw [length_append, length_map] at hroom
      dsimp only
      rw [pushChildren_eq hseg _ (by rw [length_map]; omega), foldl_cons]
      have ih := searchLoop_eq slot fuel ((t.nextChildren i seg).map
        (fun c => (c, w ++ [(t.node c).segment])) ++ stack)
        (t.considerAt slot req best (i, w)) (by omega) (by omega)
      rw [map_append, map_map] at ih
      exact ih

/-! ## What is visited, and in which order -/

variable {r : Str} {ks : List (List Str)}

theorem mem_nextChildren (hI : Inv t) (hi : At t.graph i w) :
    c ∈ t.nextChildren i r ↔ c ∈ (t.node i).children ∧
      (isParamSegment (t.node c).segment = true ∨ (t.node c).segment = r) := by
  unfold nextChildren
  rw [mem_append, mem_filter]
  constructor
  · rintro (hc | hc)
    · cases hlit : t.findChild i r with
      | none => simp [hlit] at hc
      | some c' =>
        rw [hlit] at hc
        dsimp only at hc
        split at hc
        · simp at hc
        · obtain rfl := mem_singleton.mp hc
          obtain ⟨hmem, hseg, -⟩ := mem_of_findChild hlit
          exact ⟨hmem, .inr hseg⟩
    · exact ⟨hc.1, .inl hc.2⟩
  · rintro ⟨hmem, hmatch⟩
    by_cases hp : isParamSegment (t.node c).segment = true
    · exact .inr ⟨hmem, hp⟩
    · have hseg := hmatch.resolve_left hp
      have hfind := (hI.children hi c hmem).2.2
      rw [hseg] at hfind
      left
      simp [hfind, hp]

/-- The walk visits exactly the nodes whose words match a prefix of the request. -/
theorem mem_walk (hI : Inv t) : ∀ {req : List Str} {i j : Nat} {w v : List Str},
    At t.graph i w →
    ((j, v) ∈ t.walk req i w ↔ At t.graph j v ∧ ∃ x, v = w ++ x ∧ matchesPrefix x req = true)
  | [], i, j, w, v, hi => by
    rw [walk, mem_singleton, Prod.mk.injEq]
    constructor
    · rintro ⟨rfl, rfl⟩
      exact ⟨hi, [], by simp, rfl⟩
    · rintro ⟨hj, x, rfl, hx⟩
      cases x with
      | nil =>
        rw [append_nil] at hj ⊢
        exact ⟨hj.unique hI.shape hi, rfl⟩
      | cons s x => cases hx
  | r :: req, i, j, w, v, hi => by
    rw [walk, mem_cons, mem_flatMap, Prod.mk.injEq]
    constructor
    · rintro (⟨rfl, rfl⟩ | ⟨c, hc, hmem⟩)
      · exact ⟨hi, [], by simp, rfl⟩
      · obtain ⟨hchild, hmatch⟩ := (mem_nextChildren hI hi).mp hc
        obtain ⟨hj, x, rfl, hx⟩ := (mem_walk hI (hI.at_child hi hchild)).mp hmem
        refine ⟨hj, (t.node c).segment :: x, by simp, ?_⟩
        simpa [matchesPrefix, hx] using hmatch
    · rintro ⟨hj, x, rfl, hx⟩
      cases x with
      | nil =>
        rw [append_nil] at hj ⊢
        exact .inl ⟨hj.unique hI.shape hi, rfl⟩
      | cons s x =>
        right
        simp only [matchesPrefix, Bool.and_eq_true, Bool.or_eq_true, decide_eq_true_eq] at hx
        obtain ⟨s', c, hpre, hc, -⟩ :=
          hj.through hI.shape hi (prefix_append ..) (by simp)
        have hs : s' = s := by simpa using (prefix_append_right_inj w).mp hpre
        obtain ⟨hmem, hseg, -⟩ := mem_of_findChild hc
        rw [hs] at hseg
        refine ⟨c, (mem_nextChildren hI hi).mpr ⟨hmem, by rw [hseg]; exact hx.1⟩, ?_⟩
        exact (mem_walk hI (hI.at_child hi hmem)).mpr ⟨hj, x, by simp [hseg], hx.2⟩

/-- The creation ranks along a word, starting below `w`. -/
def ranksFrom (ks : List (List Str)) : List Str → List Str → List Nat
  | _, [] => []
  | w, s :: x => rank ks (w ++ [s]) :: ranksFrom ks (w ++ [s]) x

theorem ranksFrom_append : ∀ (w x y : List Str),
    ranksFrom ks w (x ++ y) = ranksFrom ks w x ++ ranksFrom ks (w ++ x) y
  | w, [], y => by simp [ranksFrom]
  | w, s :: x, y => by
    have ih := ranksFrom_append (w ++ [s]) x y
    simp only [cons_append, ranksFrom, ih, append_assoc, nil_append]

/-- Of two siblings that the search visits, the first is of another nature or was created first. -/
theorem nextChildren_pairwise (hH : History t ks) (hi : At t.graph i w) :
    (t.nextChildren i r).Pairwise (fun c c' =>
      (t.node c).segment ≠ (t.node c').segment ∧
      (isParamSegment (t.node c).segment = isParamSegment (t.node c').segment →
        rank ks (w ++ [(t.node c).segment]) < rank ks (w ++ [(t.node c').segment]))) := by
  have hparams : ((t.node i).children.filter
      (fun c => isParamSegment (t.node c).segment)).Pairwise (fun c c' =>
      (t.node c).segment ≠ (t.node c').segment ∧
      (isParamSegment (t.node c).segment = isParamSegment (t.node c').segment →
        rank ks (w ++ [(t.node c).segment]) < rank ks (w ++ [(t.node c').segment]))) := by
    apply ((hH.ordered hi).sublist filter_sublist).imp
    intro c c' hlt
    refine ⟨fun he => ?_, fun _ => hlt⟩
    rw [he] at hlt
    exact lt_irrefl _ hlt
  unfold nextChildren
  cases hlit : t.findChild i r with
  | none => simpa using hparams
  | some c =>
    dsimp only
    split
    · simpa using hparams
    · next hp =>
      rw [singleton_append, pairwise_cons]
      refine ⟨fun c' hc' => ?_, hparams⟩
      have hp' := (mem_filter.mp hc').2
      have hne : isParamSegment (t.node c).segment ≠ isParamSegment (t.node c').segment := by
        rw [hp']
        exact hp
      exact ⟨fun he => hne (by rw [he]), fun he => absurd he hne⟩

/-- Visits never repeat a node, and of two visits that the specificity cannot tell apart the
first has the smaller creation ranks. -/
theorem walk_pairwise (hI : Inv t) (hH : History t ks) : ∀ {req : List Str} {i : Nat}
    {w : List Str}, At t.graph i w → (t.walk req i w).Pairwise (fun a b =>
      a.1 ≠ b.1 ∧ (staticFlags a.2 = staticFlags b.2 → ranksFrom ks [] a.2 < ranksFrom ks [] b.2))
  | [], i, w, _ => pairwise_singleton ..
  | r :: req, i, w, hi => by
    have hbelow : ∀ c ∈ t.nextChildren i r, At t.graph c (w ++ [(t.node c).segment]) :=
      fun c hc => hI.at_child hi ((mem_nextChildren hI hi).mp hc).1
    rw [walk, pairwise_cons, pairwise_flatMap]
    refine ⟨fun ⟨j, v⟩ hb => ?_, fun c hc => walk_pairwise hI hH (hbelow c hc), ?_⟩
    · -- everything below the node has a longer word
      obtain ⟨c, hc, hb⟩ := mem_flatMap.mp hb
      obtain ⟨hj, x, rfl, -⟩ := (mem_walk hI (hbelow c hc)).mp hb
      refine ⟨?_, fun hflags => ?_⟩
      · rintro rfl
        have := congrArg List.length (hI.shape.word_unique hi hj)
        simp at this
      · have := congrArg List.length hflags
        simp [staticFlags] at this
    · apply (nextChildren_pairwise hH hi).imp_of_mem
      rintro c c' hc hc' ⟨hne, hlt⟩ ⟨j, v⟩ ha ⟨j', v'⟩ hb
      obtain ⟨hj, x, rfl, -⟩ := (mem_walk hI (hbelow c hc)).mp ha
      obtain ⟨hj', x', rfl, -⟩ := (mem_walk hI (hbelow c' hc')).mp hb
      simp only [append_assoc, singleton_append] at hj hj' ⊢
      refine ⟨?_, fun hflags => ?_⟩
      · rintro rfl
        have hw := append_cancel_left (hI.shape.word_unique hj hj')
        exact hne (List.cons.inj hw).1
      · have hfl : (!isParamSegment (t.node c).segment) = !isParamSegment (t.node c').segment := by
          simp only [staticFlags, map_append, map_cons] at hflags
          exact (List.cons.inj (append_cancel_left hflags)).1
        rw [ranksFrom_append, ranksFrom_append]
        apply append_left_lt
        rw [nil_append, ranksFrom, ranksFrom, cons_lt_cons_iff]
        exact .inl (hlt (Bool.not_inj hfl))

/-- The whole search fits: it visits no more nodes than the pool has. -/
theorem length_walk_le (hI : Inv t) (hH : History t ks) :
    (t.walk req 0 []).length ≤ t.nodes.length := by
  have hnodup : ((t.walk req 0 []).map (·.1)).Nodup := by
    rw [List.Nodup, pairwise_map]
    exact (walk_pairwise hI hH At.root).imp fun h => h.1
  have hsub : (t.walk req 0 []).map (·.1) ⊆ List.range t.nodes.length := by
    intro j hj
    obtain ⟨⟨j, v⟩, hmem, rfl⟩ := mem_map.mp hj
    exact mem_range.mpr (hI.live ((mem_walk hI At.root).mp hmem).1)
  simpa using (subperm_of_subset hnodup hsub).length_le

/-! ## The stack never overflows -/

/-- The stacks the search loop goes through on the request segments `req`. -/
inductive StackReached (t : RouteTrie) (req : List Str) : List Frame → Prop where
  | init : StackReached t req [{}]
  | pop {f stack} : StackReached t req (f :: stack) → req[f.segI]? = none → StackReached t req stack
  | push {f stack seg} : StackReached t req (f :: stack) → req[f.segI]? = some seg →
      StackReached t req (t.pushChildren f seg stack)

/-- A reached stack holds the frames of some nodes, and no more is left to visit than the pool
has nodes. -/
theorem stackReached_spec (hI : Inv t) (hH : History t ks) {stack : List Frame}
    (h : StackReached t req stack) :
    ∃ xs : List Visit, stack = xs.map (frameOf req) ∧ (t.pending req xs).length ≤ kMaxNodes := by
  induction h with
  | init =>
    have hwalk : (t.walk req 0 []).length ≤ t.nodes.length := length_walk_le hI hH
    exact ⟨[(0, [])], rfl, le_trans (by simpa [pending] using hwalk) hI.size⟩
  | @pop f stack _ _ ih =>
    obtain ⟨xs, hxs, hlen⟩ := ih
    cases xs with
    | nil => cases hxs
    | cons x xs =>
      refine ⟨xs, (List.cons.inj hxs).2, ?_⟩
      simp only [pending, flatMap_cons, length_append] at hlen ⊢
      omega
  | @push f stack seg _ hseg ih =>
    obtain ⟨xs, hxs, hlen⟩ := ih
    cases xs with
    | nil => cases hxs
    | cons x xs =>
      obtain ⟨i, w⟩ := x
      obtain ⟨rfl, rfl⟩ := List.cons.inj hxs
      have hseg' : req[w.length]? = some seg := hseg
      rw [pending_children xs hseg', length_cons] at hlen
      have hroom := length_le_pending t req
        ((t.nextChildren i seg).map (fun c => (c, w ++ [(t.node c).segment])) ++ xs)
      rw [length_append, length_map] at hroom
      refine ⟨(t.nextChildren i seg).map (fun c => (c, w ++ [(t.node c).segment])) ++ xs, ?_,
        by omega⟩
      rw [pushChildren_eq hseg' _ (by rw [length_map]; omega), map_append,
        map_map]
      rfl

/-- Every stack fits, and every matching child is pushed. -/
theorem stackReached_push (hI : Inv t) (hH : History t ks) {f : Frame} {stack : List Frame}
    (h : StackReached t req (f :: stack)) (hseg : req[f.segI]? = some seg) :
    (f :: stack).length ≤ kMaxNodes ∧
      (t.pushChildren f seg stack).length = (t.nextChildren f.node seg).length + stack.length := by
  obtain ⟨xs, hxs, hlen⟩ := stackReached_spec hI hH h
  cases xs with
  | nil => cases hxs
  | cons x xs =>
    obtain ⟨i, w⟩ := x
    obtain ⟨rfl, rfl⟩ := List.cons.inj hxs
    have hseg' : req[w.length]? = some seg := hseg
    have hle := length_le_pending t req ((i, w) :: xs)
    rw [pending_children xs hseg', length_cons] at hlen hle
    have hroom := length_le_pending t req
      ((t.nextChildren i seg).map (fun c => (c, w ++ [(t.node c).segment])) ++ xs)
    rw [length_append, length_map] at hroom
    refine ⟨by rw [length_cons, length_map]; omega, ?_⟩
    rw [pushChildren_eq hseg' _ (by rw [length_map]; omega), length_append,
      length_map]
    rfl

end RouteTrie
end Rut
