import Rut.Http.Parser

/-!
# The verdict of a parser is final

The parsers see a growing buffer. For every piece of them there is one lemma that says what it makes
of an input and of all its extensions (`Settles`); together with `message_unsure` of the library they
give `parse_append`: once a verdict is not `Incomplete`, more bytes do not change it.
-/

namespace Rut

open Lib.Incremental List

/-! ## Scanners -/

variable {l : Str}

section Scan

variable {stop : UInt8} {table : UInt8 → Bool} {atEnd : Option Nat}

/-- Bytes a scan passes over. -/
def Passed (stop : UInt8) (table : UInt8 → Bool) (l : Str) : Prop :=
  ∀ b ∈ l, b ≠ stop ∧ table b = true

/-- A scan stops, fails or runs out. -/
theorem scan_cases (stop : UInt8) (table : UInt8 → Bool) (r : Str) :
    (∃ l r', r = l ++ stop :: r' ∧ Passed stop table l) ∨
      (∃ l b r', r = l ++ b :: r' ∧ Passed stop table l ∧ b ≠ stop ∧ table b = false) ∨
      Passed stop table r := by
  induction r with
  | nil => exact .inr (.inr (by simp [Passed]))
  | cons b r ih =>
    by_cases hb : b = stop
    · exact .inl ⟨[], r, by rw [hb]; rfl, by simp [Passed]⟩
    cases ht : table b with
    | false => exact .inr (.inl ⟨[], b, r, rfl, by simp [Passed], hb, ht⟩)
    | true =>
      have hcons : ∀ {l}, Passed stop table l → Passed stop table (b :: l) := fun hl =>
        forall_mem_cons.mpr ⟨⟨hb, ht⟩, hl⟩
      obtain ⟨l, r', rfl, hl⟩ | ⟨l, c, r', rfl, hl, hc⟩ | hr := ih
      · exact .inl ⟨b :: l, r', rfl, hcons hl⟩
      · exact .inr (.inl ⟨b :: l, c, r', rfl, hcons hl, hc⟩)
      · exact .inr (.inr (hcons hr))

theorem scanFor_passed (hl : Passed stop table l) (r : Str) :
    scanFor stop table atEnd (l ++ r) = (scanFor stop table atEnd r).map (· + l.length) := by
  induction l with
  | nil => simp
  | cons b l ih =>
    obtain ⟨⟨hb, ht⟩, hl⟩ := forall_mem_cons.mp hl
    rw [cons_append, scanFor, if_neg hb, ht, ih hl]
    simp only [Bool.not_true, Bool.false_eq_true, if_false, Option.map_map, length_cons]
    rfl

theorem scanFor_stop (hl : Passed stop table l) (r : Str) :
    scanFor stop table atEnd (l ++ stop :: r) = some l.length := by
  rw [scanFor_passed hl, scanFor, if_pos rfl]
  simp

theorem scanFor_bad {b : UInt8} (hl : Passed stop table l) (hb : b ≠ stop)
    (ht : table b = false) (r : Str) : scanFor stop table atEnd (l ++ b :: r) = none := by
  rw [scanFor_passed hl, scanFor, if_neg hb, ht]
  rfl

theorem scanFor_end (hl : Passed stop table l) :
    scanFor stop table atEnd l = atEnd.map (· + l.length) := by
  have h : scanFor stop table atEnd (l ++ []) = _ := scanFor_passed hl []
  rwa [append_nil] at h

theorem Passed.cr_not_mem (hl : Passed stop table l) (ht : table cr = false) : cr ∉ l := by
  intro h
  have := (hl cr h).2
  rw [ht] at this
  cases this

end Scan

theorem findHeaderEndLoop_pos (buf : Str) (i : Nat) :
    0 < findHeaderEndLoop buf i ↔ endMark cr lf <:+: buf := by
  induction buf generalizing i with
  | nil => simp [findHeaderEndLoop, endMark]
  | cons b rest ih =>
    rw [findHeaderEndLoop, infix_cons_iff, ← List.isPrefixOf_iff_prefix]
    split
    · next h => simp [h]
    · next h => simp [h, ih]

/-- The end of a head is found where there is one. -/
theorem findHeaderEnd_pos (buf : Str) : 0 < findHeaderEnd buf ↔ endMark cr lf <:+: buf :=
  findHeaderEndLoop_pos buf 0

/-! ## Header lines -/

theorem headerName_stop (hl : Passed colon kTokenTable l) (hne : l ≠ []) (r : Str) :
    headerName (l ++ colon :: r) = .ok (l, r) := by
  have hpos : l.length ≠ 0 := by simpa using hne
  simp only [headerName, scanHeaderName, scanFor_stop hl, hpos, if_false]
  simp

theorem headerName_bad {b : UInt8} (hl : Passed colon kTokenTable l) (hb : b ≠ colon)
    (ht : kTokenTable b = false) (r : Str) : headerName (l ++ b :: r) = .error .unsure := by
  simp only [headerName, scanHeaderName, scanFor_bad hl hb ht]

theorem headerName_end (hl : Passed colon kTokenTable l) :
    headerName l = .error .unsure := by
  simp only [headerName, scanHeaderName, scanFor_end hl, Option.map_none]

theorem headerName_empty (r : Str) : headerName (colon :: r) = .error .error := rfl

/-- A piece of a line. -/
abbrev SettlesWithin {α : Type} (p : Parser UInt8 α) : Prop :=
  ∀ r, Settles (Within cr) (cr ∉ ·) p r

/-- A line with its end. -/
abbrev SettlesLine {α : Type} (p : Parser UInt8 α) : Prop :=
  ∀ r, Settles (Line cr lf) (Unended cr) p r

/-- A name settles once its colon has come. -/
theorem headerName_settles : SettlesWithin headerName := by
  intro r
  obtain ⟨l, r', rfl, hl⟩ | ⟨l, b, r', rfl, hl, hb, ht⟩ | hl := scan_cases colon kTokenTable r
  · by_cases hne : l = []
    · subst hne
      exact .error fun x => headerName_empty _
    · refine .ok l r' ⟨l ++ [colon], by simp, ?_⟩ fun x => ?_
      · rw [mem_append, not_or]
        exact ⟨hl.cr_not_mem (by decide), by decide⟩
      · rw [append_assoc]
        exact headerName_stop hl hne _
  · refine .stuck (headerName_bad hl hb ht _) fun x => .inr ?_
    rw [append_assoc]
    exact headerName_bad hl hb ht _
  · exact .waiting (headerName_end hl) (hl.cr_not_mem (by decide))

theorem skipOws_eq (r : Str) :
    skipOws r = if r.dropWhile isOws = [] then .error .unsure else .ok ((), r.dropWhile isOws) := by
  have hspace : ∀ b rest, (if b = space then rest else b :: rest).dropWhile isOws =
      (b :: rest).dropWhile isOws := by
    intro b rest
    split
    · next h => rw [h, dropWhile_cons_of_pos (by decide)]
    · rfl
  cases r with
  | nil => rfl
  | cons b rest =>
    rw [skipOws, hspace]
    cases (b :: rest).dropWhile isOws <;> rfl

theorem skipOws_settles : SettlesWithin skipOws := by
  intro r
  have hcr : ∀ {l : Str}, (∀ b ∈ l, isOws b = true) → cr ∉ l := fun h hmem =>
    absurd (h cr hmem) (by decide)
  have hsplit : r.takeWhile isOws ++ r.dropWhile isOws = r := takeWhile_append_dropWhile
  by_cases hnil : r.dropWhile isOws = []
  · refine .waiting (by rw [skipOws_eq, if_pos hnil]) (hcr ?_)
    exact dropWhile_eq_nil_iff.mp hnil
  · refine .ok () (r.dropWhile isOws) ⟨r.takeWhile isOws, hsplit.symm, ?_⟩ fun x => ?_
    · exact hcr fun b hb => mem_takeWhile_imp hb
    · have happ : (r ++ x).dropWhile isOws = r.dropWhile isOws ++ x := by
        rw [dropWhile_append, if_neg (by simpa using hnil)]
      rw [skipOws_eq, happ, if_neg (by simp [hnil])]

theorem headerValue_stop (hl : Passed cr kHeaderValueTable l) (b : UInt8) (r : Str) :
    headerValue (l ++ cr :: b :: r) =
      if b ≠ lf then .error .error else .ok (l.rdropWhile isOws, r) := by
  simp only [headerValue, scanHeaderValue, scanFor_stop hl]
  simp

/-- A value settles with its line. -/
theorem headerValue_settles : SettlesLine headerValue := by
  intro r
  obtain ⟨l, r', rfl, hl⟩ | ⟨l, b, r', rfl, hl, hb, ht⟩ | hl := scan_cases cr kHeaderValueTable r
  · have hcr : cr ∉ l := fun h => (hl cr h).1 rfl
    match r' with
    | [] =>
      refine .waiting ?_ ⟨l, hcr, .inr rfl⟩
      simp [headerValue, scanHeaderValue, scanFor_stop hl]
    | b :: rest =>
      by_cases hb : b = lf
      · subst hb
        refine .ok (l.rdropWhile isOws) rest ⟨l, rfl, hcr⟩ fun x => ?_
        rw [append_assoc]
        exact (headerValue_stop hl lf _).trans (if_neg (not_not.mpr rfl))
      · refine .error fun x => ?_
        rw [append_assoc]
        exact (headerValue_stop hl b _).trans (if_pos hb)
  · refine .error fun x => ?_
    rw [append_assoc, cons_append]
    simp only [headerValue, scanHeaderValue, scanFor_bad hl hb ht]
  · have hcr : cr ∉ r := fun h => (hl cr h).1 rfl
    refine .waiting ?_ (unended_of_not_mem hcr)
    simp [headerValue, scanHeaderValue, scanFor_end hl]

/-- So does a header line. -/
theorem headerLine_settles : SettlesLine headerLine := fun r =>
  (headerName_settles r).bind_line fun name r => (skipOws_settles r).bind_line fun _ r =>
    (headerValue_settles r).map fun value => Header.mk name value

/-! ## Verdicts -/

/-- For a message made of lines, a verdict other than `Incomplete` is final. -/
theorem parseHead_append {α σ : Type} {start : Parser UInt8 σ} {field : σ → Parser UInt8 σ}
    (hstart : SettlesLine start) (hfield : ∀ s, SettlesLine (field s)) (finish : σ → Option α)
    (b x : Str) :
    parseHead (message cr lf start field finish) b = .incomplete ∨
      parseHead (message cr lf start field finish) (b ++ x) =
        parseHead (message cr lf start field finish) b := by
  have hstable : Stable (message cr lf start field finish) :=
    stable_message (stable_of_settles hstart) (fun s => stable_of_settles (hfield s)) finish
  cases h : message cr lf start field finish b with
  | ok res =>
    right
    simp only [parseHead, h, hstable.ok h x, length_append]
    congr 1
    omega
  | error e =>
    cases e with
    | error =>
      right
      simp only [parseHead, h, hstable.error h x]
    | incomplete =>
      left
      simp only [parseHead, h]
    | unsure =>
      simp only [parseHead, h]
      split
      · next hmark =>
        right
        have hmem : endMark cr lf <:+: b := (findHeaderEnd_pos b).mp hmark
        have hmark' : 0 < findHeaderEnd (b ++ x) :=
          (findHeaderEnd_pos _).mpr (hmem.trans (prefix_append b x).isInfix)
        obtain h' | h' := message_unsure (by decide) hstart hfield h hmem x
        · rw [h']
        · rw [h']
          exact if_pos hmark'
      · exact .inl rfl

variable {r : Str}

namespace HttpParser

/-! ## The request line -/

theorem methodLiterals_inj : ∀ a ∈ methodLiterals, ∀ b ∈ methodLiterals, a.1 <+: b.1 → a = b := by
  decide

theorem methodLiterals_spec : ∀ a ∈ methodLiterals, a.2 ≠ .Unknown ∧ cr ∉ a.1 ∧ 4 ≤ a.1.length := by
  decide

/-- No two methods start a buffer, so the order of the comparisons does not matter. -/
theorem requestMethod_of_isPrefix {a : Str × HttpMethod} (ha : a ∈ methodLiterals)
    (hr : a.1 <+: r) : requestMethod r = .ok (a.2, r.drop a.1.length) := by
  obtain ⟨hknown, -, hlen⟩ := methodLiterals_spec a ha
  have hfind : methodLiterals.find? (fun y => y.1.isPrefixOf r) = some a := by
    cases hf : methodLiterals.find? (fun y => y.1.isPrefixOf r) with
    | none =>
      have := List.find?_eq_none.mp hf a ha
      rw [List.isPrefixOf_iff_prefix] at this
      exact absurd hr this
    | some b =>
      have hb := mem_of_find?_eq_some hf
      have hbr : b.1 <+: r := by
        have := List.find?_some hf
        rwa [List.isPrefixOf_iff_prefix] at this
      rcases prefix_or_prefix_of_prefix hr hbr with h | h
      · rw [methodLiterals_inj a ha b hb h]
      · rw [methodLiterals_inj b hb a ha h]
  have hr4 : ¬ r.length < 4 := by
    have := hr.length_le
    omega
  rw [requestMethod, if_neg hr4, parseMethodDirect, hfind]
  obtain ⟨lit, method⟩ := a
  cases method with
  | Unknown => exact absurd rfl hknown
  | _ => rfl

theorem requestMethod_of_not_isPrefix (hlen : ¬ r.length < 4)
    (hr : ∀ a ∈ methodLiterals, ¬ a.1 <+: r) : requestMethod r = .error .unsure := by
  have hfind : methodLiterals.find? (fun y => y.1.isPrefixOf r) = none := by
    rw [List.find?_eq_none]
    intro a ha
    rw [List.isPrefixOf_iff_prefix]
    exact hr a ha
  rw [requestMethod, if_neg hlen, parseMethodDirect, hfind]

/-- A method settles once its literal has come. -/
theorem requestMethod_settles : SettlesWithin requestMethod := by
  intro r
  by_cases hlen : r.length < 4
  · exact .incomplete (by rw [requestMethod, if_pos hlen])
  by_cases hlit : ∃ a ∈ methodLiterals, a.1 <+: r
  · obtain ⟨a, ha, hr⟩ := hlit
    obtain ⟨-, hcr, -⟩ := methodLiterals_spec a ha
    refine .ok a.2 (r.drop a.1.length) ⟨a.1, ?_, hcr⟩ fun x => ?_
    · rw [prefix_iff_eq_append.mp hr]
    · rw [requestMethod_of_isPrefix ha (hr.trans (prefix_append r x)),
        drop_append_of_le_length hr.length_le]
  · have hno : ∀ a ∈ methodLiterals, ¬ a.1 <+: r := fun a ha hr => hlit ⟨a, ha, hr⟩
    have hunsure := requestMethod_of_not_isPrefix hlen hno
    by_cases hcr : cr ∈ r
    · -- a method has no `cr`, so none can start an extension either
      refine .stuck hunsure fun x => .inr (requestMethod_of_not_isPrefix ?_ fun a ha hax => ?_)
      · rw [length_append]
        omega
      · rcases prefix_or_prefix_of_prefix hax (prefix_append r x) with h | h
        · exact hno a ha h
        · exact (methodLiterals_spec a ha).2.1 (h.subset hcr)
    · exact .waiting hunsure hcr

def canonLen (target : Str) : Nat := (target.takeWhile (fun b => b ≠ question && b ≠ hash)).length

/-- The loop that looks for both ends at once is a scan for the first and a count for the second. -/
theorem scanUriLoop_eq (r : Str) : ∀ (pos : Nat) (canonEnd : Option Nat),
    scanUriLoop r pos canonEnd = (scanFor space kUriTable (some 0) r).map fun n =>
      (pos + n, canonEnd.getD (pos + canonLen (r.take n))) := by
  induction r with
  | nil => simp [scanUriLoop, scanFor, canonLen]
  | cons b r ih =>
    intro pos canonEnd
    rw [scanUriLoop, scanFor]
    split
    · simp [canonLen]
    · split
      · rfl
      · rw [ih, Option.map_map]
        congr 1
        funext n
        simp only [Function.comp_apply, take_succ_cons, canonLen, takeWhile_cons]
        -- the first cut fixes the end, later ones do not move it
        by_cases hcut : b = question ∨ b = hash
        · cases canonEnd <;> rcases hcut with rfl | rfl <;>
            simp [question, hash, Nat.add_assoc, Nat.add_comm 1]
        · rw [not_or] at hcut
          cases canonEnd <;> simp [hcut, Nat.add_assoc, Nat.add_comm 1]

theorem requestTarget_stop (hl : Passed space kUriTable l) (r : Str) :
    requestTarget (l ++ space :: r) =
      if l = [] then .error .error
      else .ok ((l, if l.head? = some slash then some (finalizePathView (l.take (canonLen l)))
        else none), r) := by
  have hcanon : (l ++ space :: r).take (canonLen l) = l.take (canonLen l) :=
    take_append_of_le_length (List.takeWhile_prefix _).length_le
  simp only [requestTarget, scanUri, scanUriLoop_eq, scanFor_stop hl, Option.map_some,
    Option.getD_none, Nat.zero_add, take_left]
  rw [if_neg (by simp), hcanon]
  cases l with
  | nil => rfl
  | cons b l => simp

theorem requestTarget_settles : SettlesWithin requestTarget := by
  intro r
  have hscan : scanUri r = (scanFor space kUriTable (some 0) r).map fun n =>
      (0 + n, 0 + canonLen (r.take n)) := scanUriLoop_eq r 0 none
  obtain ⟨l, r', rfl, hl⟩ | ⟨l, b, r', rfl, hl, hb, ht⟩ | hl := scan_cases space kUriTable r
  · have hassoc : ∀ x, l ++ space :: r' ++ x = l ++ space :: (r' ++ x) := fun x =>
      append_assoc ..
    by_cases hne : l = []
    · refine .error fun x => ?_
      rw [hassoc, requestTarget_stop hl, if_pos hne]
    · refine .ok (l, if l.head? = some slash then some (finalizePathView (l.take (canonLen l)))
        else none) r' ⟨l ++ [space], by simp, ?_⟩ fun x => ?_
      · rw [mem_append, not_or]
        exact ⟨hl.cr_not_mem (by decide), by decide⟩
      · rw [hassoc, requestTarget_stop hl, if_neg hne]
  · refine .error fun x => ?_
    rw [append_assoc, cons_append]
    simp only [requestTarget, scanUri, scanUriLoop_eq, scanFor_bad hl hb ht, Option.map_none]
  · refine .waiting ?_ (hl.cr_not_mem (by decide))
    simp [requestTarget, hscan, scanFor_end hl]

/-- The version and the end of the request line take ten bytes. -/
theorem requestVersion_of_le (hlen : 10 ≤ r.length) :
    (∃ v l, requestVersion r = .ok (v, r.drop 10) ∧ r = l ++ cr :: lf :: r.drop 10 ∧
      l.length = 8 ∧ cr ∉ l) ∨ requestVersion r = .error .error := by
  unfold requestVersion
  rw [if_neg (by omega)]
  by_cases hcrlf : (r.drop 8).take 2 = [cr, lf]
  · have hsplit : r = r.take 8 ++ cr :: lf :: r.drop 10 := by
      have h₁ : r = r.take 8 ++ r.drop 8 := (take_append_drop 8 r).symm
      have h₂ : r.drop 8 = (r.drop 8).take 2 ++ (r.drop 8).drop 2 := (take_append_drop 2 _).symm
      rw [hcrlf, drop_drop] at h₂
      rw [h₂] at h₁
      exact h₁
    have hlen8 : (r.take 8).length = 8 := by
      rw [length_take]
      omega
    rw [if_neg (not_not.mpr hcrlf)]
    split
    · next hv => exact .inl ⟨_, _, rfl, hsplit, hlen8, by rw [hv]; decide⟩
    · split
      · next hv => exact .inl ⟨_, _, rfl, hsplit, hlen8, by rw [hv]; decide⟩
      · exact .inr rfl
  · rw [if_pos hcrlf]
    exact .inr rfl

theorem requestVersion_append (hlen : 10 ≤ r.length) (x : Str) :
    requestVersion (r ++ x) = (requestVersion r).map fun p => (p.1, p.2 ++ x) := by
  have hcrlf : ((r ++ x).drop 8).take 2 = (r.drop 8).take 2 := by
    rw [drop_append_of_le_length (by omega),
      take_append_of_le_length (by rw [length_drop]; omega)]
  have hver : (r ++ x).take 8 = r.take 8 := take_append_of_le_length (by omega)
  have hrest : (r ++ x).drop 10 = r.drop 10 ++ x := drop_append_of_le_length hlen
  have hlen' : ¬ (r ++ x).length < 10 := by
    rw [length_append]
    omega
  unfold requestVersion
  rw [if_neg hlen', if_neg (Nat.not_lt.mpr hlen), hcrlf, hver, hrest]
  split
  · rfl
  · split
    · rfl
    · split <;> rfl

theorem requestVersion_settles : SettlesLine requestVersion := by
  intro r
  by_cases hlen : r.length < 10
  · have hunsure : ∀ {r : Str}, r.length < 10 → requestVersion r = .error .unsure := fun h => by
      rw [requestVersion, if_pos h]
    by_cases hwait : Unended cr r
    · exact .waiting (hunsure hlen) hwait
    · -- a `cr` in a place where the line cannot have one
      refine .stuck (hunsure hlen) fun x => ?_
      by_cases hlen' : (r ++ x).length < 10
      · exact .inr (hunsure hlen')
      · obtain ⟨v, l, -, hsplit, hl8, hcr⟩ | h := requestVersion_of_le (Nat.le_of_not_lt hlen')
        · have hpre : r <+: l ++ [cr] := by
            refine prefix_of_prefix_length_le (prefix_append r x) ?_ ?_
            · exact ⟨lf :: (r ++ x).drop 10, by rw [append_assoc]; exact hsplit.symm⟩
            · rw [length_append, hl8]
              exact Nat.le_of_lt_succ hlen
          refine absurd ?_ hwait
          rcases prefix_concat_iff.mp hpre with h | h
          · exact ⟨l, hcr, .inr h⟩
          · exact unended_of_not_mem fun hmem => hcr (h.subset hmem)
        · exact .inl h
  · have hle : 10 ≤ r.length := Nat.le_of_not_lt hlen
    obtain ⟨v, l, hok, hsplit, -, hcr⟩ | h := requestVersion_of_le hle
    · refine .ok v (r.drop 10) ⟨l, hsplit, hcr⟩ fun x => ?_
      rw [requestVersion_append hle, hok]
      rfl
    · refine .error fun x => ?_
      rw [requestVersion_append hle, h]
      rfl

/-- A request line settles with its end. -/
theorem requestLine_settles : SettlesLine requestLine := fun r =>
  (requestMethod_settles r).bind_line fun _ r => (requestTarget_settles r).bind_line fun _ r =>
    (requestVersion_settles r).map _

theorem requestField_settles (req : ParsedRequest) : SettlesLine (requestField req) := fun r =>
  (headerLine_settles r).check (storeHeader req)

/-- Once the verdict on a request is not `Incomplete`, more bytes do not change it or what has been
parsed. -/
theorem parse_append (b x : Str) : parse b = .incomplete ∨ parse (b ++ x) = parse b :=
  parseHead_append requestLine_settles requestField_settles acceptFraming b x

/-- The verdicts while a buffer grows by one chunk after the other. -/
def verdicts (b : Str) : List Str → List (ParseOutcome ParsedRequest)
  | [] => [parse b]
  | x :: chunks => parse b :: verdicts (b ++ x) chunks

/-- A final verdict is repeated for ever. -/
theorem verdicts_of_final {b : Str} (hb : parse b ≠ .incomplete) (chunks : List Str) :
    verdicts b chunks = List.replicate (chunks.length + 1) (parse b) := by
  induction chunks generalizing b with
  | nil => rfl
  | cons x chunks ih =>
    have hx : parse (b ++ x) = parse b := (parse_append b x).resolve_left hb
    rw [verdicts, ih (hx ▸ hb), hx, length_cons, ← replicate_succ]

/-- A verdict on a buffer survives every extension of it, with everything that has been parsed and
the end of the head; while a buffer grows the verdict is `Incomplete` for some time and then stays
what it is. -/
theorem parse_stable :
    (∀ b x : Str, parse b = .incomplete ∨ parse (b ++ x) = parse b) ∧
      ∀ (b : Str) (chunks : List Str), ∃ (n m : Nat) (v : ParseOutcome ParsedRequest),
        verdicts b chunks = List.replicate n .incomplete ++ List.replicate m v := by
  refine ⟨parse_append, fun b chunks => ?_⟩
  induction chunks generalizing b with
  | nil => exact ⟨0, 1, parse b, rfl⟩
  | cons x chunks ih =>
    by_cases hb : parse b = .incomplete
    · obtain ⟨n, m, v, h⟩ := ih (b ++ x)
      exact ⟨n + 1, m, v, by rw [verdicts, h, hb, replicate_succ, cons_append]⟩
    · exact ⟨0, _, parse b, by rw [verdicts_of_final hb, replicate_zero, nil_append]⟩

example : parse (ascii "GET //a/?x HTTP/1.1\r\nContent-Length: 3\r\n\r\nabc") =
    .complete
      { method := .GET, path := ascii "//a/?x", pathCanon := some ⟨2, ascii "a"⟩, version := .Http11
        headers := [⟨ascii "Content-Length", ascii "3"⟩], contentLength := 3, keepAlive := true
        hasContentLength := true } 42 := by
  decide +kernel

end HttpParser

namespace HttpResponseParser

/-! ## The status line -/

theorem statusCode_digits {a b c : UInt8} {code : Nat} (h : statusCode [a, b, c] = some code) :
    cr ∉ [a, b, c] := by
  rw [statusCode] at h
  split at h
  · next hd =>
    intro hmem
    simp only [Bool.and_eq_true, decide_eq_true_eq] at hd
    have hcr : ¬ (0x30 : UInt8) ≤ cr := by decide
    simp only [mem_cons, not_mem_nil, or_false] at hmem
    rcases hmem with rfl | rfl | rfl
    · exact hcr hd.1.1.1
    · exact hcr hd.1.2.1
    · exact hcr hd.2.1
  · cases h

theorem versionKeepAlive_ne_cr {b : UInt8} {k : Bool} (h : versionKeepAlive b = some k) : b ≠ cr := by
  rintro rfl
  cases h

/-- The twelve bytes before the reason phrase. -/
def statusHead (r : Str) : Option ParsedResponse :=
  match versionKeepAlive (r.getD 7 0), statusCode ((r.drop 9).take 3) with
  | some keepAlive, some code =>
    if r.take 7 ≠ ascii "HTTP/1." ∨ r.getD 8 0 ≠ space then none
    else some { statusCode := code, keepAlive := keepAlive }
  | _, _ => none

theorem statusLine_eq (hlen : 12 ≤ r.length) :
    statusLine r =
      match statusHead r with
      | none => .error .error
      | some resp =>
        match (r.drop 12).dropWhile (· ≠ cr) with
        | _ :: b :: rest => if b ≠ lf then .error .error else .ok (resp, rest)
        | _ => .error .incomplete := by
  rw [statusLine, if_neg (Nat.not_lt.mpr hlen), statusHead]
  cases versionKeepAlive (r.getD 7 0) with
  | none => rfl
  | some keepAlive =>
    cases statusCode ((r.drop 9).take 3) with
    | none => rfl
    | some code =>
      dsimp only
      split <;> rfl

theorem statusHead_append (hlen : 12 ≤ r.length) (x : Str) :
    statusHead (r ++ x) = statusHead r := by
  have hget : ∀ i, i < 12 → (r ++ x).getD i 0 = r.getD i 0 := fun i hi => by
    rw [getD_eq_getElem?_getD, getD_eq_getElem?_getD,
      List.getElem?_append_left (by omega)]
  have htake : (r ++ x).take 7 = r.take 7 := take_append_of_le_length (by omega)
  have hcode : ((r ++ x).drop 9).take 3 = (r.drop 9).take 3 := by
    rw [drop_append_of_le_length (by omega),
      take_append_of_le_length (by rw [length_drop]; omega)]
  rw [statusHead, statusHead, hget 7 (by omega), hget 8 (by omega), htake, hcode]

theorem statusHead_cr {resp : ParsedResponse} (hlen : 12 ≤ r.length)
    (h : statusHead r = some resp) : cr ∉ r.take 12 := by
  match r, hlen with
  | a0 :: a1 :: a2 :: a3 :: a4 :: a5 :: a6 :: a7 :: a8 :: a9 :: a10 :: a11 :: r, _ =>
    rw [statusHead] at h
    split at h
    · next keepAlive code hv hc =>
      split at h
      · cases h
      · next hbad =>
        rw [not_or, not_not, not_not] at hbad
        obtain ⟨hpre, hsp⟩ := hbad
        have hcr7 : cr ∉ [a0, a1, a2, a3, a4, a5, a6] := by
          have hpre : [a0, a1, a2, a3, a4, a5, a6] = ascii "HTTP/1." := hpre
          rw [hpre]
          decide
        have hsp : a8 = space := hsp
        intro hmem
        have hsplit : cr ∈ [a0, a1, a2, a3, a4, a5, a6] ∨ cr = a7 ∨ cr = a8 ∨
            cr ∈ [a9, a10, a11] := by
          simpa [or_assoc] using hmem
        rcases hsplit with h' | h' | h' | h'
        · exact hcr7 h'
        · exact versionKeepAlive_ne_cr hv h'.symm
        · rw [hsp] at h'
          exact absurd h' (by decide)
        · exact statusCode_digits hc h'
    · cases h

/-- A status line settles with its end. -/
theorem statusLine_settles : SettlesLine statusLine := by
  intro r
  by_cases hlen : r.length < 12
  · exact .incomplete (by rw [statusLine, if_pos hlen])
  have hle : 12 ≤ r.length := Nat.le_of_not_lt hlen
  have hlex : ∀ x, 12 ≤ (r ++ x).length := fun x => by
    rw [length_append]
    omega
  have hdrop : ∀ x, (r ++ x).drop 12 = r.drop 12 ++ x := fun x =>
    drop_append_of_le_length hle
  cases hhead : statusHead r with
  | none =>
    refine .error fun x => ?_
    rw [statusLine_eq (hlex x), statusHead_append hle, hhead]
  | some resp =>
    have hrun : ∀ x, statusLine (r ++ x) =
        match ((r.drop 12) ++ x).dropWhile (· ≠ cr) with
        | _ :: b :: rest => if b ≠ lf then .error .error else .ok (resp, rest)
        | _ => .error .incomplete := fun x => by
      rw [statusLine_eq (hlex x), statusHead_append hle, hhead, hdrop]
    have hrun₀ := hrun []
    rw [append_nil, append_nil] at hrun₀
    cases hreason : (r.drop 12).dropWhile (· ≠ cr) with
    | nil => exact .incomplete (by rw [hrun₀, hreason])
    | cons c rest =>
      have hc : c = cr := by
        have := List.head?_dropWhile_not (· ≠ cr) (r.drop 12)
        rw [hreason] at this
        simpa using this
      have hmore : ∀ x, ((r.drop 12) ++ x).dropWhile (· ≠ cr) = c :: (rest ++ x) := fun x => by
        rw [dropWhile_append, hreason]
        rfl
      match rest with
      | [] => exact .incomplete (by rw [hrun₀, hreason])
      | b :: rest =>
        by_cases hb : b = lf
        · refine .ok resp rest
            ⟨r.take 12 ++ (r.drop 12).takeWhile (· ≠ cr), ?_, ?_⟩ fun x => ?_
          · have hsplit : (r.drop 12).takeWhile (· ≠ cr) ++ cr :: lf :: rest = r.drop 12 := by
              rw [hc, hb] at hreason
              rw [← hreason, takeWhile_append_dropWhile]
            rw [append_assoc, hsplit, take_append_drop]
          · rw [mem_append, not_or]
            refine ⟨statusHead_cr hle hhead, fun hmem => ?_⟩
            simpa using mem_takeWhile_imp hmem
          · rw [hrun x, hmore x]
            exact if_neg (not_not.mpr hb)
        · refine .error fun x => ?_
          rw [hrun x, hmore x]
          exact if_pos hb

theorem responseField_settles (resp : ParsedResponse) : SettlesLine (responseField resp) := fun r =>
  (headerLine_settles r).check (storeHeader resp)

/-- Once the verdict on a response is not `Incomplete`, more bytes do not change it. -/
theorem parse_append (b x : Str) : parse b = .incomplete ∨ parse (b ++ x) = parse b :=
  parseHead_append statusLine_settles responseField_settles some b x

end HttpResponseParser

end Rut
