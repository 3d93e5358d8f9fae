import Rut.Http.Chunked
import Rut.Http.Heads
import Rut.Lib.Splitting

/-!
# Looking up headers, query values and cookies

The helpers that compiled handlers call on the raw request (`runtime_helpers.cc`). Each parses the
request anew and scans what it has parsed; positions are suffixes again.

    reqHeader     the first header of a name, in whatever case
    reqQuery      the value of a key in the query of the target
    reqCookie     the value of a pair in the `Cookie` headers

Next to each stands what it is to find, said by splitting: the items of a query are what lies between
`&`s, the pairs of a cookie header what lies between `;`s, and both consist of what is before the
first `=` and what is behind it. The scanners find the same, but for two things. They refuse an empty
name. And the value of a cookie is trimmed at its end only.
-/

namespace Rut

open Lib.Splitting List

def ampersand : UInt8 := 0x26

def equals : UInt8 := 0x3d

namespace Helpers

def parsed (buf : Str) : Option ParsedRequest :=
  match HttpParser.parse buf with
  | .complete req _ => some req
  | _ => none

/-! ## Headers -/

/-- `a += 'a' - 'A'` for the capital letters. -/
def foldCase (b : UInt8) : UInt8 := if 0x41 ≤ b ∧ b ≤ 0x5a then b + 0x20 else b

/-- The loop over the bytes of two names of one length. -/
def sameBytes : Str → Str → Bool
  | a :: as, b :: bs => if foldCase a ≠ foldCase b then false else sameBytes as bs
  | _, _ => true

def asciiHeaderNameEq (h name : Str) : Bool :=
  if h.length ≠ name.length then false else sameBytes h name

/-- `rut_helper_req_header` -/
def reqHeader (buf name : Str) : Option Str :=
  (parsed buf).bind fun req =>
    (req.headers.find? fun h => asciiHeaderNameEq h.name name).map (·.value)

/-- What ends a key: the separator of the items, or the sign before the value. -/
def keyByte (sep b : UInt8) : Bool := b ≠ sep && b ≠ equals

/-! ## Queries -/

/-- The loop of `rut_helper_req_query` from a position on. Each pass reads at least one byte. -/
def queryLoop (name : Str) : Nat → Str → Option Str
  | 0, _ => none
  | fuel + 1, rest =>
    if rest = [] then none
    else
      let r := rest.dropWhile (· = ampersand)
      let key := r.takeWhile (keyByte ampersand)
      let r := r.dropWhile (keyByte ampersand)
      let (value, r) :=
        if r.head? = some equals then
          ((r.drop 1).takeWhile (· ≠ ampersand), (r.drop 1).dropWhile (· ≠ ampersand))
        else ([], r)
      if key = name then some value else queryLoop name fuel r

/-- `rut_helper_req_query` on a target. -/
def targetQuery (name path : Str) : Option Str :=
  match path.dropWhile fun b => b ≠ question && b ≠ hash with
  | b :: rest =>
    if b ≠ question then none
    else
      let query := rest.takeWhile (· ≠ hash)
      queryLoop name query.length query
  | [] => none

/-- `rut_helper_req_query` -/
def reqQuery (buf name : Str) : Option Str :=
  if name = [] then none else (parsed buf).bind fun req => targetQuery name req.path

/-! ## Cookies -/

/-- The loop of `rut_helper_req_cookie` over one header, from a position on. -/
def cookieLoop (name : Str) : Nat → Str → Option Str
  | 0, _ => none
  | fuel + 1, rest =>
    if rest = [] then none
    else
      let r := rest.dropWhile fun b => isOws b || b = semicolon
      let key := (r.takeWhile (keyByte semicolon)).rdropWhile isOws
      let r := r.dropWhile (keyByte semicolon)
      if r.head? ≠ some equals then cookieLoop name fuel (r.dropWhile (· ≠ semicolon))
      else
        let value := ((r.drop 1).takeWhile (· ≠ semicolon)).rdropWhile isOws
        if key = name then some value
        else cookieLoop name fuel ((r.drop 1).dropWhile (· ≠ semicolon))

/-- `rut_helper_req_cookie` -/
def reqCookie (buf name : Str) : Option Str :=
  if name = [] then none
  else (parsed buf).bind fun req => req.headers.findSome? fun h =>
    if asciiHeaderNameEq h.name (ascii "Cookie") then cookieLoop name h.value.length h.value
    else none

/-! ## What they are to find -/

/-- What is before the first `=` of an item, and what is behind it. -/
def keyOf (item : Str) : Str := item.takeWhile (· ≠ equals)

def valueOf (item : Str) : Str := (item.dropWhile (· ≠ equals)).drop 1

def trim (s : Str) : Str := (s.dropWhile isOws).rdropWhile isOws

def headersOf (buf : Str) : List Header := ((parsed buf).map (·.headers)).getD []

def headerReference (buf name : Str) : Option Str :=
  ((headersOf buf).find? fun h => h.name.map foldCase = name.map foldCase).map (·.value)

def targetItems (target : Str) : List Str :=
  match (target.takeWhile (· ≠ hash)).dropWhile (· ≠ question) with
  | [] => []
  | _ :: query => query.splitOnP (· = ampersand)

def queryItems (buf : Str) : List Str := ((parsed buf).map fun req => targetItems req.path).getD []

def queryReference (buf name : Str) : Option Str :=
  ((queryItems buf).find? fun item => keyOf item = name).map valueOf

/-- The pairs of a cookie header; an item without `=` is none. -/
def cookieItems (value : Str) : List Str :=
  (value.splitOnP (· = semicolon)).filter (·.contains equals)

def cookiePairs (buf : Str) : List Str :=
  ((headersOf buf).filter fun h => h.name.map foldCase = (ascii "Cookie").map foldCase).flatMap
    fun h => cookieItems h.value

def cookieReference (buf name : Str) : Option Str :=
  ((cookiePairs buf).find? fun item => trim (keyOf item) = name).map fun item => trim (valueOf item)

/-! ## Items

The first item of a text, `piece sep r`, is read by the scanners in two steps: the key, and the value
if there is one. -/

section Items

variable {sep : UInt8} {r : Str}

def piece (sep : UInt8) (r : Str) : Str := r.takeWhile (· ≠ sep)

theorem splitOnP_sep (sep : UInt8) (r : Str) :
    r.splitOnP (· = sep) = piece sep r ::
      match r.dropWhile (· ≠ sep) with
      | [] => []
      | _ :: rest => rest.splitOnP (· = sep) := by
  have hfun : ∀ b, (!decide (b = sep)) = decide (b ≠ sep) := fun b => by simp
  rw [splitOnP_eq_takeWhile, piece]
  simp only [hfun]
  cases r.dropWhile (· ≠ sep) <;> rfl

/-- The key of the first item. -/
theorem takeWhile_keyByte (sep : UInt8) (r : Str) : r.takeWhile (keyByte sep) = keyOf (piece sep r) := by
  rw [keyOf, piece, takeWhile_takeWhile]
  congr 1
  funext b
  simp [keyByte, and_comm]

theorem mem_takeWhile_keyByte {b : UInt8} (h : b ∈ r.takeWhile (keyByte sep)) : b ≠ sep ∧ b ≠ equals := by
  simpa [keyByte] using mem_takeWhile_imp h

theorem piece_eq_append (sep : UInt8) (r : Str) :
    piece sep r = r.takeWhile (keyByte sep) ++ piece sep (r.dropWhile (keyByte sep)) := by
  have hsplit : r = r.takeWhile (keyByte sep) ++ r.dropWhile (keyByte sep) :=
    takeWhile_append_dropWhile.symm
  conv_lhs => rw [hsplit, piece]
  rw [takeWhile_append_of_pos, ← piece]
  intro b hb
  simpa using (mem_takeWhile_keyByte hb).1

theorem dropWhile_sep_eq (sep : UInt8) (r : Str) :
    r.dropWhile (· ≠ sep) = (r.dropWhile (keyByte sep)).dropWhile (· ≠ sep) := by
  have hsplit : r = r.takeWhile (keyByte sep) ++ r.dropWhile (keyByte sep) :=
    takeWhile_append_dropWhile.symm
  conv_lhs => rw [hsplit]
  apply dropWhile_append_of_pos
  intro b hb
  simpa using (mem_takeWhile_keyByte hb).1

/-- An item that has a value. -/
theorem piece_of_equals (hsep : sep ≠ equals) (h : (r.dropWhile (keyByte sep)).head? = some equals) :
    (piece sep r).contains equals = true ∧
      valueOf (piece sep r) = piece sep ((r.dropWhile (keyByte sep)).drop 1) ∧
      r.dropWhile (· ≠ sep) = ((r.dropWhile (keyByte sep)).drop 1).dropWhile (· ≠ sep) := by
  rw [dropWhile_sep_eq, piece_eq_append]
  obtain ⟨rest, hrest⟩ : ∃ rest, r.dropWhile (keyByte sep) = equals :: rest := by
    cases hd : r.dropWhile (keyByte sep) with
    | nil => rw [hd] at h; cases h
    | cons b rest =>
      rw [hd] at h
      cases h
      exact ⟨rest, rfl⟩
  have hpiece : piece sep (equals :: rest) = equals :: piece sep rest :=
    takeWhile_cons_of_pos (by simpa using hsep.symm)
  rw [hrest, hpiece, dropWhile_cons_of_pos (by simpa using hsep.symm)]
  refine ⟨by simp, ?_, rfl⟩
  rw [valueOf, dropWhile_append_of_pos, dropWhile_cons_of_neg (by simp)]
  · rfl
  · intro b hb
    simpa using (mem_takeWhile_keyByte hb).2

/-- An item that has none. -/
theorem piece_of_not_equals (h : (r.dropWhile (keyByte sep)).head? ≠ some equals) :
    equals ∉ piece sep r ∧ r.dropWhile (· ≠ sep) = r.dropWhile (keyByte sep) := by
  rw [dropWhile_sep_eq, piece_eq_append]
  have hend : piece sep (r.dropWhile (keyByte sep)) = [] ∧
      (r.dropWhile (keyByte sep)).dropWhile (· ≠ sep) = r.dropWhile (keyByte sep) := by
    cases hd : r.dropWhile (keyByte sep) with
    | nil => exact ⟨rfl, rfl⟩
    | cons b rest =>
      -- the scan for the key has stopped at `b`, which is not `=`
      have hstop : keyByte sep b = false := not_of_dropWhile hd
      have hb : b = sep := by
        rw [hd] at h
        have hne : b ≠ equals := by simpa using h
        simpa [keyByte, hne] using hstop
      exact ⟨takeWhile_cons_of_neg (by simp [hb]), dropWhile_cons_of_neg (by simp [hb])⟩
  rw [hend.1, hend.2, append_nil]
  exact ⟨fun hmem => (mem_takeWhile_keyByte hmem).2 rfl, rfl⟩

theorem valueOf_of_not_mem {item : Str} (h : equals ∉ item) : valueOf item = [] := by
  have hall : item.dropWhile (· ≠ equals) = [] :=
    dropWhile_eq_nil_iff.mpr fun b hb => by
      have hne : b ≠ equals := fun heq => h (heq ▸ hb)
      simpa using hne
  rw [valueOf, hall]
  rfl

end Items

/-! ## The query -/

section Query

variable {name : Str}

def firstItem (name query : Str) : Option Str :=
  ((query.splitOnP (· = ampersand)).find? fun item => keyOf item = name).map valueOf

theorem firstItem_nil (hname : name ≠ []) : firstItem name [] = none := by
  have hkey : keyOf [] ≠ name := fun h => hname h.symm
  simp [firstItem, splitOnP_nil, hkey]

/-- One item; the separator behind it is an empty item in front of the rest. -/
theorem firstItem_eq (hname : name ≠ []) (r : Str) :
    firstItem name r = if keyOf (piece ampersand r) = name then some (valueOf (piece ampersand r))
      else firstItem name (r.dropWhile (· ≠ ampersand)) := by
  have hempty : keyOf [] ≠ name := fun h => hname h.symm
  rw [firstItem, splitOnP_sep]
  by_cases hkey : keyOf (piece ampersand r) = name
  · rw [if_pos hkey, List.find?_cons_of_pos (by simpa using hkey)]
    rfl
  · rw [if_neg hkey, List.find?_cons_of_neg (by simpa using hkey)]
    cases hd : r.dropWhile (· ≠ ampersand) with
    | nil => rw [firstItem_nil hname]; rfl
    | cons b rest =>
      obtain rfl : b = ampersand := by simpa using not_of_dropWhile hd
      rw [firstItem, splitOnP_cons_eq_if_modifyHead, if_pos (by simp),
        List.find?_cons_of_neg (by simpa using hempty)]

theorem firstItem_dropWhile (hname : name ≠ []) (r : Str) :
    firstItem name (r.dropWhile (· = ampersand)) = firstItem name r := by
  induction r with
  | nil => rfl
  | cons b r ih =>
    by_cases hb : b = ampersand
    · have hempty : keyOf [] ≠ name := fun h => hname h.symm
      rw [dropWhile_cons_of_pos (by simpa using hb), ih, firstItem, firstItem,
        splitOnP_cons_eq_if_modifyHead, if_pos (by simpa using hb),
        List.find?_cons_of_neg (by simpa using hempty)]
    · rw [dropWhile_cons_of_neg (by simpa using hb)]

/-- The scanner finds the first item of the name. -/
theorem queryLoop_eq (hname : name ≠ []) {fuel : Nat} {rest : Str} (hfuel : rest.length ≤ fuel) :
    queryLoop name fuel rest = firstItem name rest := by
  induction fuel generalizing rest with
  | zero =>
    obtain rfl : rest = [] := eq_nil_of_length_eq_zero (Nat.le_zero.mp hfuel)
    rw [firstItem_nil hname]
    rfl
  | succ fuel ih =>
    rw [queryLoop]
    by_cases hnil : rest = []
    · rw [if_pos hnil, hnil, firstItem_nil hname]
    have hlt : ((rest.dropWhile (· = ampersand)).dropWhile (· ≠ ampersand)).length < rest.length :=
      length_dropWhile_dropWhile_lt hnil (by simp)
    rw [if_neg hnil, ← firstItem_dropWhile hname, firstItem_eq hname]
    generalize rest.dropWhile (· = ampersand) = r at hlt ⊢
    dsimp only
    rw [takeWhile_keyByte]
    by_cases heq : (r.dropWhile (keyByte ampersand)).head? = some equals
    · obtain ⟨-, hvalue, hrest⟩ := piece_of_equals (by decide) heq
      rw [hrest] at hlt ⊢
      rw [hvalue, if_pos heq, ih (Nat.le_of_lt_succ (hlt.trans_le hfuel))]
      rfl
    · obtain ⟨hnone, hrest⟩ := piece_of_not_equals heq
      rw [hrest] at hlt ⊢
      rw [valueOf_of_not_mem hnone, if_neg heq, ih (Nat.le_of_lt_succ (hlt.trans_le hfuel))]

/-- The two ways to the query: stop at `?` and `#`, or cut off the fragment first. -/
theorem targetQuery_eq (hname : name ≠ []) (path : Str) :
    targetQuery name path = ((targetItems path).find? fun item => keyOf item = name).map valueOf := by
  rw [targetQuery, targetItems]
  induction path with
  | nil => rfl
  | cons b path ih =>
    by_cases hhash : b = hash
    · subst hhash
      rfl
    by_cases hmark : b = question
    · subst hmark
      have hhash : (question : UInt8) ≠ hash := by decide
      exact queryLoop_eq hname le_rfl
    · rw [dropWhile_cons_of_pos (by simp [hhash, hmark]),
        takeWhile_cons_of_pos (by simpa using hhash),
        dropWhile_cons_of_pos (by simpa using hmark)]
      exact ih

end Query

/-! ## The cookies -/

section Cookie

variable {name : Str}

/-- The value of the first pair of a name, as it stands in the header. -/
def firstPair (name value : Str) : Option Str :=
  ((cookieItems value).find? fun item => trim (keyOf item) = name).map valueOf

theorem cookieItems_semicolon (r : Str) : cookieItems (semicolon :: r) = cookieItems r := by
  rfl

theorem cookieItems_eq (r : Str) :
    cookieItems r = [piece semicolon r].filter (·.contains equals) ++
      cookieItems (r.dropWhile (· ≠ semicolon)) := by
  conv_lhs => rw [cookieItems, splitOnP_sep, ← singleton_append, filter_append]
  cases hd : r.dropWhile (· ≠ semicolon) with
  | nil => rfl
  | cons b rest =>
    obtain rfl : b = semicolon := by simpa using not_of_dropWhile hd
    rfl

theorem firstPair_eq (name r : Str) :
    firstPair name r =
      if equals ∈ piece semicolon r ∧ trim (keyOf (piece semicolon r)) = name then
        some (valueOf (piece semicolon r))
      else firstPair name (r.dropWhile (· ≠ semicolon)) := by
  rw [firstPair, cookieItems_eq, List.find?_append, firstPair]
  by_cases hmem : equals ∈ piece semicolon r
  · by_cases hkey : trim (keyOf (piece semicolon r)) = name
    · simp [hmem, hkey]
    · simp [hmem, hkey]
  · simp [hmem]

/-- A blank in front of a pair is none of its key's. -/
theorem firstPair_ows {b : UInt8} (hb : isOws b = true) (r : Str) :
    firstPair name (b :: r) = firstPair name r := by
  obtain ⟨hsemi, heq⟩ : b ≠ semicolon ∧ b ≠ equals := by
    constructor <;> rintro rfl <;> exact absurd hb (by decide)
  have hpiece : piece semicolon (b :: r) = b :: piece semicolon r :=
    takeWhile_cons_of_pos (by simpa using hsemi)
  have hkey : trim (keyOf (b :: piece semicolon r)) = trim (keyOf (piece semicolon r)) := by
    rw [keyOf, takeWhile_cons_of_pos (by simpa using heq), trim, dropWhile_cons_of_pos hb]
    rfl
  have hvalue : valueOf (b :: piece semicolon r) = valueOf (piece semicolon r) := by
    rw [valueOf, dropWhile_cons_of_pos (by simpa using heq)]
    rfl
  rw [firstPair_eq, hpiece, hkey, hvalue, dropWhile_cons_of_pos (by simpa using hsemi),
    firstPair_eq name r]
  simp [heq.symm]

theorem firstPair_dropWhile (r : Str) :
    firstPair name (r.dropWhile fun b => isOws b || b = semicolon) = firstPair name r := by
  induction r with
  | nil => rfl
  | cons b r ih =>
    by_cases hows : isOws b = true
    · rw [dropWhile_cons_of_pos (by simp [hows]), ih, firstPair_ows hows]
    by_cases hsemi : b = semicolon
    · rw [dropWhile_cons_of_pos (by simp [hsemi]), ih, hsemi, firstPair, firstPair,
        cookieItems_semicolon]
    · rw [dropWhile_cons_of_neg (by simp [hows, hsemi])]

theorem trim_of_head {s : Str} (h : ∀ b ∈ s.head?, isOws b = false) : trim s = s.rdropWhile isOws := by
  cases s with
  | nil => rfl
  | cons b s =>
    have hb : isOws b = false := h b rfl
    rw [trim, dropWhile_cons_of_neg (by simp [hb])]

/-- The scanner finds the first pair, trimmed at its end. -/
theorem cookieLoop_eq {fuel : Nat} {rest : Str} (hfuel : rest.length ≤ fuel) :
    cookieLoop name fuel rest = (firstPair name rest).map (·.rdropWhile isOws) := by
  induction fuel generalizing rest with
  | zero =>
    obtain rfl : rest = [] := eq_nil_of_length_eq_zero (Nat.le_zero.mp hfuel)
    rfl
  | succ fuel ih =>
    rw [cookieLoop]
    by_cases hnil : rest = []
    · rw [if_pos hnil, hnil]
      rfl
    have hlt : ((rest.dropWhile fun b => isOws b || b = semicolon).dropWhile
        (· ≠ semicolon)).length < rest.length :=
      length_dropWhile_dropWhile_lt hnil fun b hb => by
        have : b ≠ semicolon := fun h => by simp [h] at hb
        simpa using this
    rw [if_neg hnil, ← firstPair_dropWhile, firstPair_eq]
    -- what is left of the blanks is not one, so that the key begins where it begins
    have hstart : ∀ b rest', (rest.dropWhile fun b => isOws b || b = semicolon) = b :: rest' →
        isOws b = false := fun b rest' h => by
      have := not_of_dropWhile h
      simp only [Bool.or_eq_false_iff] at this
      exact this.1
    generalize (rest.dropWhile fun b => isOws b || b = semicolon) = r at hlt hstart ⊢
    have hkey : trim (keyOf (piece semicolon r)) = (r.takeWhile (keyByte semicolon)).rdropWhile isOws := by
      rw [← takeWhile_keyByte]
      apply trim_of_head
      intro b hb
      cases r with
      | nil => cases hb
      | cons c r =>
        by_cases hc : keyByte semicolon c = true
        · rw [takeWhile_cons_of_pos hc] at hb
          have hbc : c = b := by simpa using hb
          exact hbc ▸ hstart c r rfl
        · rw [takeWhile_cons_of_neg hc] at hb
          cases hb
    dsimp only
    rw [hkey]
    by_cases heq : (r.dropWhile (keyByte semicolon)).head? = some equals
    · obtain ⟨hmem, hvalue, hrest⟩ := piece_of_equals (by decide) heq
      have hmem : equals ∈ piece semicolon r := by simpa using hmem
      rw [hrest] at hlt ⊢
      rw [hvalue, if_neg (not_not.mpr heq), ih (Nat.le_of_lt_succ (hlt.trans_le hfuel))]
      by_cases hname : (r.takeWhile (keyByte semicolon)).rdropWhile isOws = name
      · rw [if_pos hname, if_pos ⟨hmem, hname⟩]
        rfl
      · rw [if_neg hname, if_neg fun h => hname h.2]
    · obtain ⟨hnone, -⟩ := piece_of_not_equals heq
      rw [← dropWhile_sep_eq, if_pos heq, if_neg fun h => hnone h.1,
        ih (Nat.le_of_lt_succ (hlt.trans_le hfuel))]

end Cookie

/-! ## The helpers -/

section Agreement

variable {buf name : Str}

theorem sameBytes_eq {as bs : Str} (h : as.length = bs.length) :
    sameBytes as bs = decide (as.map foldCase = bs.map foldCase) := by
  induction as generalizing bs with
  | nil =>
    obtain rfl : bs = [] := eq_nil_of_length_eq_zero h.symm
    rfl
  | cons a as ih =>
    cases bs with
    | nil => cases h
    | cons b bs =>
      rw [sameBytes, ih (Nat.succ.inj h)]
      by_cases hab : foldCase a = foldCase b
      · simp [hab]
      · simp [hab]

theorem asciiHeaderNameEq_eq (h name : Str) :
    asciiHeaderNameEq h name = decide (h.map foldCase = name.map foldCase) := by
  rw [asciiHeaderNameEq]
  by_cases hlen : h.length = name.length
  · rw [if_neg (not_not.mpr hlen), sameBytes_eq hlen]
  · have hne : h.map foldCase ≠ name.map foldCase := fun heq => hlen (by simpa using congrArg List.length heq)
    simp [hlen, hne]

/-- Headers are found as they should be. -/
theorem reqHeader_eq (buf name : Str) : reqHeader buf name = headerReference buf name := by
  rw [reqHeader, headerReference, headersOf]
  cases parsed buf with
  | none => rfl
  | some req => simp [asciiHeaderNameEq_eq]

/-- So are query values, if they are asked for by name. -/
theorem reqQuery_eq (hname : name ≠ []) : reqQuery buf name = queryReference buf name := by
  rw [reqQuery, if_neg hname, queryReference, queryItems]
  cases parsed buf with
  | none => rfl
  | some req => exact targetQuery_eq hname req.path

/-- The pair a cookie is read from. -/
def namedPair (buf name : Str) : Option Str :=
  (cookiePairs buf).find? fun item => trim (keyOf item) = name

theorem findSome_cookies (name : Str) (hs : List Header) :
    (hs.findSome? fun h =>
        if asciiHeaderNameEq h.name (ascii "Cookie") then cookieLoop name h.value.length h.value
        else none) =
      (((hs.filter fun h => h.name.map foldCase = (ascii "Cookie").map foldCase).flatMap
        fun h => cookieItems h.value).find? fun item => trim (keyOf item) = name).map
          fun item => (valueOf item).rdropWhile isOws := by
  induction hs with
  | nil => rfl
  | cons h hs ih =>
    rw [List.findSome?_cons, asciiHeaderNameEq_eq, cookieLoop_eq le_rfl, ih]
    by_cases hname : h.name.map foldCase = (ascii "Cookie").map foldCase
    · rw [filter_cons_of_pos (by simpa using hname), flatMap_cons, List.find?_append,
        if_pos (by simpa using hname), firstPair]
      cases (cookieItems h.value).find? fun item => trim (keyOf item) = name <;> rfl
    · rw [filter_cons_of_neg (by simpa using hname), if_neg (by simpa using hname)]

/-- A cookie is its pair, trimmed at the end. -/
theorem reqCookie_eq (hname : name ≠ []) :
    reqCookie buf name = (namedPair buf name).map fun item => (valueOf item).rdropWhile isOws := by
  rw [reqCookie, if_neg hname, namedPair, cookiePairs, headersOf]
  cases parsed buf with
  | none => rfl
  | some req => exact findSome_cookies name req.headers

/-! What a helper returns lies in the request. -/

theorem infix_path {req : ParsedRequest} {n : Nat} (h : HttpParser.parse buf = .complete req n) :
    req.path <:+: buf := by
  obtain ⟨s, t, ts, rest, f, htext, -, rfl, -, -, -, hreq, -⟩ := HttpParser.parse_complete h
  obtain ⟨lit, -, -, -, rfl, -⟩ := htext
  have hpath : req.path = s.path := by rw [hreq]; rfl
  rw [hpath]
  exact ⟨lit, space :: (HttpParser.versionText s.version ++ [cr, lf]) ++ (ts.flatten ++ cr :: lf :: rest), by simp⟩

theorem value_infix_of_texts {hs : List Header} {ts : List Str} (hall : List.Forall₂ HeaderText hs ts) :
    ∀ h ∈ hs, h.value <:+: ts.flatten := by
  induction hall with
  | nil => simp
  | @cons h t hs ts htext _ ih =>
    obtain ⟨-, pre, post, -, -, rfl⟩ := htext
    refine forall_mem_cons.mpr ⟨?_, fun h' hmem => ?_⟩
    · exact ⟨h.name ++ colon :: pre, post ++ [cr, lf] ++ ts.flatten, by simp⟩
    · exact (ih h' hmem).trans (suffix_append _ _).isInfix

theorem infix_value {h : Header} (hmem : h ∈ headersOf buf) : h.value <:+: buf := by
  rw [headersOf, parsed] at hmem
  split at hmem
  · next req n hparse =>
    obtain ⟨s, t, ts, rest, f, -, hall, rfl, -⟩ := HttpParser.parse_complete hparse
    have hvalue := value_infix_of_texts hall h hmem
    exact hvalue.trans ⟨t, cr :: lf :: rest, by simp⟩
  · cases hmem

theorem valueOf_suffix (item : Str) : valueOf item <:+ item :=
  (drop_suffix _ _).trans (dropWhile_suffix _)

theorem infix_queryItem {item : Str} (h : item ∈ queryItems buf) : item <:+: buf := by
  rw [queryItems, parsed] at h
  split at h
  · next req n hparse =>
    change item ∈ targetItems req.path at h
    rw [targetItems] at h
    have hprefix : req.path.takeWhile (· ≠ hash) <+: req.path := List.takeWhile_prefix _
    have hsuffix : (req.path.takeWhile (· ≠ hash)).dropWhile (· ≠ question) <:+
        req.path.takeWhile (· ≠ hash) := dropWhile_suffix _
    split at h
    · cases h
    · next hrest =>
      rw [hrest] at hsuffix
      have hquery := (suffix_cons _ _).trans hsuffix
      exact (infix_of_mem_splitOnP h).trans
        ((hquery.isInfix.trans hprefix.isInfix).trans (infix_path hparse))
  · cases h

theorem infix_cookiePair {item : Str} (h : item ∈ cookiePairs buf) : item <:+: buf := by
  obtain ⟨header, hmem, hitem⟩ := mem_flatMap.mp h
  have hpiece := infix_of_mem_splitOnP (mem_of_mem_filter hitem)
  exact hpiece.trans (infix_value (mem_of_mem_filter hmem))

theorem infix_reqHeader {v : Str} (h : reqHeader buf name = some v) : v <:+: buf := by
  rw [reqHeader_eq] at h
  obtain ⟨header, hfind, rfl⟩ := Option.map_eq_some_iff.mp h
  exact infix_value (mem_of_find?_eq_some hfind)

theorem infix_reqQuery {v : Str} (h : reqQuery buf name = some v) : v <:+: buf := by
  by_cases hname : name = []
  · rw [reqQuery, if_pos hname] at h
    cases h
  · rw [reqQuery_eq hname] at h
    obtain ⟨item, hfind, rfl⟩ := Option.map_eq_some_iff.mp h
    exact (valueOf_suffix item).isInfix.trans (infix_queryItem (mem_of_find?_eq_some hfind))

theorem infix_reqCookie {v : Str} (h : reqCookie buf name = some v) : v <:+: buf := by
  by_cases hname : name = []
  · rw [reqCookie, if_pos hname] at h
    cases h
  · rw [reqCookie_eq hname] at h
    obtain ⟨item, hfind, rfl⟩ := Option.map_eq_some_iff.mp h
    have hitem := infix_cookiePair (mem_of_find?_eq_some hfind)
    exact (List.rdropWhile_prefix _ _).isInfix.trans ((valueOf_suffix item).isInfix.trans hitem)

/-! When they agree. -/

/-- A value that is blank altogether, or does not begin with a blank. -/
def Flush (value : Str) : Prop :=
  (∀ b ∈ value, isOws b = true) ∨ ∀ b ∈ value.head?, isOws b = false

/-- What is trimmed does not begin with a blank. -/
theorem isOws_head_trim {s : Str} {b : UInt8} (h : b ∈ (trim s).head?) : isOws b = false := by
  have hprefix : trim s <+: s.dropWhile isOws := List.rdropWhile_prefix _ _
  cases htrim : trim s with
  | nil => rw [htrim] at h; cases h
  | cons c t =>
    rw [htrim] at h hprefix
    obtain rfl : c = b := by simpa using h
    obtain ⟨u, hu⟩ := hprefix
    exact not_of_dropWhile hu.symm

/-- Where trimming the end is trimming. -/
theorem trim_eq_iff_flush (value : Str) : value.rdropWhile isOws = trim value ↔ Flush value := by
  constructor
  · intro h
    by_contra hflush
    rw [Flush, not_or] at hflush
    obtain ⟨hother, hhead⟩ := hflush
    apply hhead
    intro b hb
    -- the value is not blank, so that its head is still there
    have hne : value.rdropWhile isOws ≠ [] := fun hnil => hother (rdropWhile_eq_nil_iff.mp hnil)
    obtain ⟨c, t, hct⟩ := exists_cons_of_ne_nil hne
    obtain ⟨u, hu⟩ : value.rdropWhile isOws <+: value := List.rdropWhile_prefix _ _
    have hcb : c = b := by
      rw [← hu, hct] at hb
      simpa using hb
    apply isOws_head_trim (s := value)
    rw [← h, hct, hcb]
    rfl
  · rintro (hblank | hhead)
    · have hdrop : value.dropWhile isOws = [] := dropWhile_eq_nil_iff.mpr hblank
      rw [trim, hdrop, rdropWhile_eq_nil_iff.mpr hblank]
      rfl
    · exact (trim_of_head hhead).symm

/-- The three helpers find what they are to find. -/
structure Agrees (buf name : Str) : Prop where
  header : reqHeader buf name = headerReference buf name
  query : reqQuery buf name = queryReference buf name
  cookie : reqCookie buf name = cookieReference buf name

/-- What a name has to be like, and the cookie of that name. -/
structure Regular (buf name : Str) : Prop where
  no_empty_item : name = [] → ∀ item ∈ queryItems buf, keyOf item ≠ []
  no_empty_pair : name = [] → ∀ item ∈ cookiePairs buf, trim (keyOf item) ≠ []
  flush : name ≠ [] → ∀ item ∈ namedPair buf name, Flush (valueOf item)

theorem agrees_iff_of_nil (hname : name = []) : Agrees buf name ↔ Regular buf name := by
  subst hname
  have hquery : reqQuery buf [] = queryReference buf [] ↔ ∀ item ∈ queryItems buf, keyOf item ≠ [] := by
    rw [reqQuery, if_pos rfl, eq_comm, queryReference, Option.map_eq_none_iff, List.find?_eq_none]
    simp
  have hcookie : reqCookie buf [] = cookieReference buf [] ↔
      ∀ item ∈ cookiePairs buf, trim (keyOf item) ≠ [] := by
    rw [reqCookie, if_pos rfl, eq_comm, cookieReference, Option.map_eq_none_iff, List.find?_eq_none]
    simp
  constructor
  · intro h
    exact ⟨fun _ => hquery.mp h.query, fun _ => hcookie.mp h.cookie, fun hne => absurd rfl hne⟩
  · intro h
    exact ⟨reqHeader_eq _ _, hquery.mpr (h.no_empty_item rfl), hcookie.mpr (h.no_empty_pair rfl)⟩

theorem agrees_iff_of_ne (hname : name ≠ []) : Agrees buf name ↔ Regular buf name := by
  have hcookie : reqCookie buf name = cookieReference buf name ↔
      ∀ item ∈ namedPair buf name, Flush (valueOf item) := by
    rw [reqCookie_eq hname, cookieReference, ← namedPair]
    cases namedPair buf name with
    | none => simp
    | some item => simp [trim_eq_iff_flush]
  constructor
  · intro h
    exact ⟨fun hnil => absurd hnil hname, fun hnil => absurd hnil hname, fun _ => hcookie.mp h.cookie⟩
  · intro h
    exact ⟨reqHeader_eq _ _, reqQuery_eq hname, hcookie.mpr (h.flush hname)⟩

/-- What the helpers return lies in the request, and it is what they are to find except where the
name is empty and something goes by it, or the value of a cookie begins with blanks. -/
theorem agrees_iff_regular (buf name : Str) :
    (∀ v, reqHeader buf name = some v ∨ reqQuery buf name = some v ∨ reqCookie buf name = some v →
      v <:+: buf) ∧
    (Agrees buf name ↔ Regular buf name) := by
  refine ⟨fun v hv => ?_, ?_⟩
  · rcases hv with h | h | h
    · exact infix_reqHeader h
    · exact infix_reqQuery h
    · exact infix_reqCookie h
  by_cases hname : name = []
  · exact agrees_iff_of_nil hname
  · exact agrees_iff_of_ne hname

/-- A blank between `=` and the value is given out as part of it. -/
theorem reqCookie_leading_blank :
    ¬ Agrees (ascii "GET / HTTP/1.1\r\nCookie: a= b\r\n\r\n") (ascii "a") := by
  have hcookie : reqCookie (ascii "GET / HTTP/1.1\r\nCookie: a= b\r\n\r\n") (ascii "a") ≠
      cookieReference (ascii "GET / HTTP/1.1\r\nCookie: a= b\r\n\r\n") (ascii "a") := by
    decide +kernel
  exact fun h => hcookie h.cookie

end Agreement

end Helpers

end Rut
