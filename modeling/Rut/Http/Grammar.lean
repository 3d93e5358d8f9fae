import Rut.Lib.Grammar
import Rut.Http.Verified

/-!
# The heads that the parsers accept

The grammar of requests and responses as the parsers have it, one recognition lemma for each part:

    HeaderText h t              the line `t` carries the header `h`
    RequestText req t           the request line `t`
    StatusText resp t           the status line `t`

Where a head ends is said by `HeadText.first_blank`.
-/

namespace Rut

open Lib.Incremental List

/-! ## Header lines -/

/-- Optional white space. -/
def Ows (t : Str) : Prop := ∀ b ∈ t, isOws b = true

def Trimmed (t : Str) : Prop :=
  (∀ b ∈ t.head?, isOws b = false) ∧ ∀ b ∈ t.getLast?, isOws b = false

structure Header.WellFormed (h : Header) : Prop where
  name_ne_nil : h.name ≠ []
  name_token : ∀ b ∈ h.name, kTokenTable b = true
  value_byte : ∀ b ∈ h.value, kHeaderValueTable b = true
  value_trimmed : Trimmed h.value

/-- `name ":" OWS value OWS CRLF` -/
def HeaderText (h : Header) (t : Str) : Prop :=
  h.WellFormed ∧ ∃ pre post, Ows pre ∧ Ows post ∧
    t = h.name ++ colon :: (pre ++ (h.value ++ (post ++ [cr, lf])))

theorem passed_token {l : Str} : Passed colon kTokenTable l ↔ ∀ b ∈ l, kTokenTable b = true := by
  refine ⟨fun h b hb => (h b hb).2, fun h b hb => ⟨?_, h b hb⟩⟩
  rintro rfl
  exact absurd (h colon hb) (by decide)

theorem passed_value {l : Str} :
    Passed cr kHeaderValueTable l ↔ ∀ b ∈ l, kHeaderValueTable b = true := by
  refine ⟨fun h b hb => (h b hb).2, fun h b hb => ⟨?_, h b hb⟩⟩
  rintro rfl
  exact absurd (h cr hb) (by decide)

theorem headerName_recognises : Recognises headerName
    (fun name t => name ≠ [] ∧ (∀ b ∈ name, kTokenTable b = true) ∧ t = name ++ [colon]) := by
  intro r name r'
  constructor
  · intro h
    obtain ⟨l, r₁, rfl, hl⟩ | ⟨l, b, r₁, rfl, hl, hb, ht⟩ | hl := scan_cases colon kTokenTable r
    · by_cases hne : l = []
      · subst hne
        cases h
      · rw [headerName_stop hl hne] at h
        cases h
        exact ⟨_, ⟨hne, passed_token.mp hl, rfl⟩, by simp⟩
    · rw [headerName_bad hl hb ht] at h
      cases h
    · rw [headerName_end hl] at h
      cases h
  · rintro ⟨t, ⟨hne, hname, rfl⟩, rfl⟩
    rw [append_assoc]
    exact headerName_stop (passed_token.mpr hname) hne r'

theorem headerValue_recognises : Recognises headerValue
    (fun value t => ∃ l, (∀ b ∈ l, kHeaderValueTable b = true) ∧ value = l.rdropWhile isOws ∧
      t = l ++ [cr, lf]) := by
  intro r value r'
  constructor
  · intro h
    obtain ⟨l, r₁, rfl, hl⟩ | ⟨l, b, r₁, rfl, hl, hb, ht⟩ | hl := scan_cases cr kHeaderValueTable r
    · match r₁ with
      | [] => simp [headerValue, scanHeaderValue, scanFor_stop hl] at h
      | b :: rest =>
        rw [headerValue_stop hl] at h
        split at h
        · cases h
        · next hb =>
          cases h
          rw [not_not] at hb
          exact ⟨_, ⟨l, passed_value.mp hl, rfl, rfl⟩, by rw [hb]; simp⟩
    · simp [headerValue, scanHeaderValue, scanFor_bad hl hb ht] at h
    · simp [headerValue, scanHeaderValue, scanFor_end hl] at h
  · rintro ⟨t, ⟨l, hl, rfl, rfl⟩, rfl⟩
    rw [append_assoc]
    exact (headerValue_stop (passed_value.mpr hl) lf r').trans (if_neg (not_not.mpr rfl))

theorem skipOws_ok_iff {r r' : Str} :
    skipOws r = .ok ((), r') ↔ r.dropWhile isOws = r' ∧ r' ≠ [] := by
  rw [skipOws_eq]
  split
  · next h =>
    rw [h]
    exact ⟨fun h => (nomatch h), fun h => absurd h.1.symm h.2⟩
  · next h =>
    refine ⟨fun h' => ?_, fun h' => by rw [h'.1]⟩
    cases h'
    exact ⟨rfl, h⟩

/-- Trailing white space is not part of a value. -/
theorem rdropWhile_ows {value post : Str} (hlast : ∀ b ∈ value.getLast?, isOws b = false)
    (hpost : Ows post) : (value ++ post).rdropWhile isOws = value := by
  have hdrop : (value ++ post).rdropWhile isOws = value.rdropWhile isOws := by
    rw [List.rdropWhile, reverse_append, dropWhile_append_of_pos]
    · rfl
    · intro b hb
      exact hpost b (mem_reverse.mp hb)
  rw [hdrop, rdropWhile_eq_self_iff]
  intro hne
  rw [hlast _ (List.getLast?_eq_some_getLast hne)]
  exact Bool.false_ne_true

/-- What is left of a text that begins without white space is trimmed. -/
theorem trimmed_rdropWhile {l : Str} (hhead : ∀ b ∈ l.head?, isOws b = false) :
    Trimmed (l.rdropWhile isOws) := by
  constructor
  · intro b hb
    obtain ⟨x, hx⟩ := List.rdropWhile_prefix isOws l
    apply hhead
    rw [← hx]
    cases hv : l.rdropWhile isOws with
    | nil => rw [hv] at hb; cases hb
    | cons c v => rw [hv] at hb; exact hb
  · intro b hb
    obtain ⟨hne, rfl⟩ := mem_getLast?_eq_getLast hb
    simpa using rdropWhile_last_not isOws l hne

theorem head?_dropWhile_ows {r : Str} : ∀ b ∈ (r.dropWhile isOws).head?, isOws b = false := by
  intro b hb
  have := List.head?_dropWhile_not isOws r
  rw [hb] at this
  exact this

/-- What is between the colon and the end of the line. -/
theorem value_ok_iff {r r' value : Str} :
    (∃ r₂, skipOws r = .ok ((), r₂) ∧ headerValue r₂ = .ok (value, r')) ↔
      (∀ b ∈ value, kHeaderValueTable b = true) ∧ Trimmed value ∧
        ∃ pre post, Ows pre ∧ Ows post ∧ r = pre ++ (value ++ (post ++ cr :: lf :: r')) := by
  constructor
  · rintro ⟨r₂, h₂, h₃⟩
    obtain ⟨hdrop, -⟩ := skipOws_ok_iff.mp h₂
    obtain ⟨_, ⟨l, hl, rfl, rfl⟩, rfl⟩ := (headerValue_recognises _ _ _).mp h₃
    have hsplit : l.rdropWhile isOws ++ l.rtakeWhile isOws = l :=
      rdropWhile_append_rtakeWhile
    have hhead : ∀ b ∈ l.head?, isOws b = false := by
      intro b hb
      apply head?_dropWhile_ows (r := r)
      rw [hdrop]
      cases l with
      | nil => cases hb
      | cons c l => exact hb
    refine ⟨fun b hb => hl b (List.IsPrefix.subset (List.rdropWhile_prefix isOws l) hb),
      trimmed_rdropWhile hhead, r.takeWhile isOws, l.rtakeWhile isOws,
      fun b hb => mem_takeWhile_imp hb, fun b hb => mem_rtakeWhile_imp hb, ?_⟩
    calc r = r.takeWhile isOws ++ r.dropWhile isOws := takeWhile_append_dropWhile.symm
      _ = _ := by
        rw [hdrop, ← append_assoc (l.rdropWhile isOws), hsplit, append_assoc]
        rfl
  · rintro ⟨hvalue, ⟨hhead, hlast⟩, pre, post, hpre, hpost, rfl⟩
    have htext : ∀ b ∈ value ++ post, kHeaderValueTable b = true := by
      intro b hb
      rcases mem_append.mp hb with hb | hb
      · exact hvalue b hb
      · have := hpost b hb
        rw [isOws, Bool.or_eq_true, decide_eq_true_eq, decide_eq_true_eq] at this
        rcases this with rfl | rfl <;> decide
    rw [← append_assoc value]
    cases value with
    | nil =>
      -- all the white space is skipped at once
      refine ⟨cr :: lf :: r', skipOws_ok_iff.mpr ⟨?_, by simp⟩,
        (headerValue_recognises _ _ _).mpr ⟨_, ⟨[], by simp, rfl, rfl⟩, rfl⟩⟩
      rw [dropWhile_append_of_pos hpre, nil_append, dropWhile_append_of_pos hpost]
      rfl
    | cons b value =>
      have hb : isOws b = false := hhead b rfl
      refine ⟨_, skipOws_ok_iff.mpr ⟨?_, by simp⟩,
        (headerValue_recognises (b :: value ++ post ++ cr :: lf :: r') _ _).mpr
          ⟨_, ⟨b :: value ++ post, htext, (rdropWhile_ows hlast hpost).symm, rfl⟩, by simp⟩⟩
      rw [dropWhile_append_of_pos hpre, cons_append, cons_append,
        dropWhile_cons_of_neg (by simp [hb])]

/-- Header lines are recognised. -/
theorem headerLine_recognises : Recognises headerLine HeaderText := by
  intro r h r'
  constructor
  · intro hok
    obtain ⟨name, r₁, h₁, hok⟩ := bind_ok hok
    obtain ⟨u, r₂, h₂, hok⟩ := bind_ok hok
    obtain ⟨value, r₃, h₃, hok⟩ := bind_ok hok
    cases hok
    obtain ⟨_, ⟨hne, hname, rfl⟩, rfl⟩ := (headerName_recognises _ _ _).mp h₁
    obtain ⟨hbytes, htrim, pre, post, hpre, hpost, rfl⟩ := value_ok_iff.mp ⟨r₂, h₂, h₃⟩
    exact ⟨_, ⟨⟨hne, hname, hbytes, htrim⟩, pre, post, hpre, hpost, rfl⟩, by simp⟩
  · rintro ⟨_, ⟨hwf, pre, post, hpre, hpost, rfl⟩, rfl⟩
    obtain ⟨r₂, h₂, h₃⟩ := value_ok_iff.mpr
      ⟨hwf.value_byte, hwf.value_trimmed, pre, post, hpre, hpost, rfl⟩
    have h₁ : headerName (h.name ++ colon :: (pre ++ (h.value ++ (post ++ [cr, lf]))) ++ r') =
        .ok (h.name, pre ++ (h.value ++ (post ++ cr :: lf :: r'))) :=
      (headerName_recognises _ _ _).mpr ⟨_, ⟨hwf.name_ne_nil, hwf.name_token, rfl⟩, by simp⟩
    refine (bind_of_ok h₁).trans ((bind_of_ok h₂).trans ((bind_of_ok h₃).trans ?_))
    rfl

/-- A header line is not blank. -/
theorem HeaderText.ne_blank (h : Header) (t : Str) (ht : HeaderText h t) :
    ∃ a t', t = a :: t' ∧ a ≠ cr := by
  obtain ⟨hwf, pre, post, -, -, rfl⟩ := ht
  obtain ⟨a, name, hname⟩ := exists_cons_of_ne_nil hwf.name_ne_nil
  refine ⟨a, _, by rw [hname]; rfl, ?_⟩
  rintro rfl
  exact absurd (hwf.name_token cr (by simp [hname])) (by decide)

theorem HeaderText.line (h : Header) (t : Str) (ht : HeaderText h t) :
    ∃ l, t = l ++ [cr, lf] ∧ l ≠ [] ∧ cr ∉ l := by
  obtain ⟨hwf, pre, post, hpre, hpost, rfl⟩ := ht
  refine ⟨h.name ++ colon :: (pre ++ (h.value ++ post)), by simp, by simp, ?_⟩
  have hows : ∀ {l : Str}, Ows l → cr ∉ l := fun hl hmem => absurd (hl cr hmem) (by decide)
  have hname : cr ∉ h.name := fun hmem => absurd (hwf.name_token cr hmem) (by decide)
  have hvalue : cr ∉ h.value := fun hmem => absurd (hwf.value_byte cr hmem) (by decide)
  have hcolon : cr ≠ colon := by decide
  simp [hname, hvalue, hows hpre, hows hpost, hcolon]

/-! ## Heads -/

theorem dropWhile_to_cr {l x : Str} (hl : cr ∉ l) :
    (l ++ cr :: x).dropWhile (fun b => !decide (b = cr)) = cr :: x := by
  rw [dropWhile_append_of_pos, dropWhile_cons_of_neg (by simp)]
  intro b hb
  simpa using fun h : b = cr => hl (h ▸ hb)

/-- The text of a head with the given header lines. -/
def HeadText (hs : List Header) (text : Str) : Prop :=
  ∃ l ts, cr ∉ l ∧ List.Forall₂ HeaderText hs ts ∧
    text = l ++ cr :: lf :: (ts.flatten ++ [cr, lf])

/-- A head has one reading. -/
theorem HeadText.unique {hs hs' : List Header} {text : Str} (h : HeadText hs text)
    (h' : HeadText hs' text) : hs = hs' := by
  obtain ⟨l, ts, hl, hall, rfl⟩ := h
  obtain ⟨l', ts', hl', hall', heq⟩ := h'
  -- the first line ends with the first `cr`
  have htail : ts.flatten ++ [cr, lf] = ts'.flatten ++ [cr, lf] := by
    have := congrArg (List.dropWhile (fun b => !decide (b = cr))) heq
    rw [dropWhile_to_cr hl, dropWhile_to_cr hl'] at this
    simpa using this
  exact (items_unique headerLine_recognises HeaderText.ne_blank hall hall' htail).1

theorem quiet_lines {d : Str} {hs : List Header} {ts : List Str} (hd : Quiet cr lf d)
    (hall : List.Forall₂ HeaderText hs ts) : Quiet cr lf (d ++ ts.flatten) := by
  induction hall generalizing d with
  | nil => simpa using hd
  | @cons h t hs ts ht hall ih =>
    obtain ⟨l, rfl, hne, hl⟩ := ht.line
    have := ih (hd.append_line (by decide) hl (.inl hne))
    rwa [append_assoc, ← flatten_cons] at this

theorem ended_lines {d : Str} {hs : List Header} {ts : List Str}
    (hall : List.Forall₂ HeaderText hs ts) : ∃ d', d ++ [cr, lf] ++ ts.flatten = d' ++ [cr, lf] := by
  induction hall generalizing d with
  | nil => exact ⟨d, by simp⟩
  | @cons h t hs ts ht hall ih =>
    obtain ⟨l, rfl, -⟩ := ht.line
    obtain ⟨d', hd'⟩ := @ih (d ++ [cr, lf] ++ l)
    exact ⟨d', by rw [← hd']; simp⟩

/-- A head ends with the first blank line. -/
theorem HeadText.first_blank {hs : List Header} {text : Str} (h : HeadText hs text) :
    endMark cr lf <:+ text ∧ ¬ endMark cr lf <:+: text.dropLast := by
  obtain ⟨l, ts, hl, hall, rfl⟩ := h
  have hquiet : Quiet cr lf (l ++ [cr, lf]) := by
    simpa using quiet_nil.append_line (by decide) hl (.inr rfl)
  have hlines := quiet_lines hquiet hall
  constructor
  · -- the last line ends before the blank one
    obtain ⟨d, hd⟩ := @ended_lines l hs ts hall
    refine ⟨d, ?_⟩
    have : l ++ cr :: lf :: (ts.flatten ++ [cr, lf]) = d ++ [cr, lf] ++ [cr, lf] := by
      rw [← hd]
      simp
    rw [this]
    simp [endMark]
  · have hdrop : (l ++ cr :: lf :: (ts.flatten ++ [cr, lf])).dropLast =
        l ++ [cr, lf] ++ ts.flatten ++ [cr] := by
      have : l ++ cr :: lf :: (ts.flatten ++ [cr, lf]) =
          l ++ [cr, lf] ++ ts.flatten ++ [cr] ++ [lf] := by simp
      rw [this, dropLast_concat]
    rw [hdrop, infix_concat_iff]
    rintro (h | h)
    · obtain ⟨d, hd⟩ := h
      generalize l ++ [cr, lf] ++ ts.flatten = x at hd
      have hlast := congrArg List.getLast? hd
      have hne : lf ≠ cr := by decide
      simp [endMark, hne] at hlast
    · exact hlines.mark h

section ParseHead

variable {α σ : Type} {start : Parser UInt8 σ} {S : σ → Str → Prop} {store : σ → Header → Option σ}
  {finish : σ → Option α} {buf : Str} {a : α} {n : Nat}

/-- A head that is accepted: a start line, header lines and a blank line. -/
theorem parseHead_complete_iff (hstart : Recognises start S) :
    parseHead (message cr lf start (itemLine headerLine store) finish) buf = .complete a n ↔
      ∃ s t hs ts rest, S s t ∧ List.Forall₂ HeaderText hs ts ∧
        buf = t ++ (ts.flatten ++ cr :: lf :: rest) ∧ n = t.length + ts.flatten.length + 2 ∧
        (hs.foldlM store s).bind finish = some a := by
  have hmsg : ∀ rest, message cr lf start (itemLine headerLine store) finish buf = .ok (a, rest) ↔ _ :=
    fun rest => message_ok_iff hstart headerLine_recognises HeaderText.ne_blank
  constructor
  · intro h
    unfold parseHead at h
    split at h
    · next parsed rest hok =>
      cases h
      obtain ⟨s, t, hs, ts, hS, hall, hbuf, hfold⟩ := (hmsg rest).mp hok
      refine ⟨s, t, hs, ts, rest, hS, hall, hbuf, ?_, hfold⟩
      rw [hbuf]
      simp only [length_append, length_cons]
      omega
    · cases h
    · cases h
    · split at h <;> cases h
  · rintro ⟨s, t, hs, ts, rest, hS, hall, hbuf, rfl, hfold⟩
    have hok := (hmsg rest).mpr ⟨s, t, hs, ts, hS, hall, hbuf, hfold⟩
    simp only [parseHead, hok]
    congr 1
    rw [hbuf]
    simp only [length_append, length_cons]
    omega

end ParseHead

/-! ## Request lines -/

namespace HttpParser

def versionText : HttpVersion → Str
  | .Http11 => ascii "HTTP/1.1"
  | .Http10 => ascii "HTTP/1.0"

def targetCanon (target : Str) : Option CanonView :=
  if target.head? = some slash then some (finalizePathView (target.take (canonLen target))) else none

theorem requestMethod_recognises :
    Recognises requestMethod (fun method t => (t, method) ∈ methodLiterals) := by
  intro r method r'
  constructor
  · intro h
    by_cases hlen : r.length < 4
    · rw [requestMethod, if_pos hlen] at h
      cases h
    by_cases hlit : ∃ a ∈ methodLiterals, a.1 <+: r
    · obtain ⟨a, ha, r₁, rfl⟩ := hlit
      rw [requestMethod_of_isPrefix ha (prefix_append ..), drop_left] at h
      cases h
      exact ⟨a.1, ha, rfl⟩
    · rw [requestMethod_of_not_isPrefix hlen fun a ha hr => hlit ⟨a, ha, hr⟩] at h
      cases h
  · rintro ⟨t, ht, rfl⟩
    rw [requestMethod_of_isPrefix ht (prefix_append ..), drop_left]

theorem requestTarget_recognises : Recognises requestTarget
    (fun x t => x.1 ≠ [] ∧ (∀ b ∈ x.1, kUriTable b = true) ∧ x.2 = targetCanon x.1 ∧
      t = x.1 ++ [space]) := by
  intro r x r'
  constructor
  · intro h
    have hscan : scanUri r = (scanFor space kUriTable (some 0) r).map fun n =>
        (0 + n, 0 + canonLen (r.take n)) := scanUriLoop_eq r 0 none
    obtain ⟨l, r₁, rfl, hl⟩ | ⟨l, b, r₁, rfl, hl, hb, ht⟩ | hl := scan_cases space kUriTable r
    · rw [requestTarget_stop hl] at h
      split at h
      · cases h
      · next hne =>
        cases h
        exact ⟨_, ⟨hne, fun b hb => (hl b hb).2, rfl, rfl⟩, by simp⟩
    · simp [requestTarget, hscan, scanFor_bad hl hb ht] at h
    · simp [requestTarget, hscan, scanFor_end hl] at h
  · rintro ⟨t, ⟨hne, huri, hcanon, rfl⟩, rfl⟩
    have hl : Passed space kUriTable x.1 := by
      intro b hb
      refine ⟨?_, huri b hb⟩
      rintro rfl
      exact absurd (huri space hb) (by decide)
    rw [append_assoc]
    refine (requestTarget_stop hl r').trans ?_
    rw [if_neg hne]
    exact congrArg (fun c => Except.ok ((x.1, c), r')) hcanon.symm

theorem requestVersion_recognises :
    Recognises requestVersion (fun version t => t = versionText version ++ [cr, lf]) := by
  intro r version r'
  constructor
  · intro h
    refine ⟨_, rfl, ?_⟩
    unfold requestVersion at h
    split at h
    · cases h
    · split at h
      · cases h
      · next hcrlf =>
        rw [not_not] at hcrlf
        have hsplit : r = r.take 8 ++ ((r.drop 8).take 2 ++ (r.drop 8).drop 2) := by
          rw [take_append_drop, take_append_drop]
        rw [hcrlf, drop_drop] at hsplit
        split at h
        · next hv =>
          cases h
          rw [hv] at hsplit
          rw [hsplit]
          rfl
        · split at h
          · next hv =>
            cases h
            rw [hv] at hsplit
            rw [hsplit]
            rfl
          · cases h
  · rintro ⟨_, rfl, rfl⟩
    have hlen : (versionText version).length = 8 := by cases version <;> rfl
    have htake : (versionText version ++ [cr, lf] ++ r').take 8 = versionText version := by
      rw [append_assoc, take_left' hlen]
    have hdrop : (versionText version ++ [cr, lf] ++ r').drop 8 = cr :: lf :: r' := by
      rw [append_assoc, drop_left' hlen]
      rfl
    have hrest : (versionText version ++ [cr, lf] ++ r').drop 10 = r' := by
      rw [drop_left' (by simp [hlen])]
    rw [requestVersion, if_neg (by simp [hlen]; omega), htake, hdrop, hrest, if_neg (by simp)]
    cases version with
    | Http11 => exact if_pos rfl
    | Http10 => exact (if_neg (by decide)).trans (if_pos rfl)

/-- `METHOD SP target SP HTTP/1.x CRLF`, and what the parser starts with then. -/
def RequestText (req : ParsedRequest) (t : Str) : Prop :=
  ∃ lit, (lit, req.method) ∈ methodLiterals ∧ req.path ≠ [] ∧
    (∀ b ∈ req.path, kUriTable b = true) ∧
    t = lit ++ (req.path ++ space :: (versionText req.version ++ [cr, lf])) ∧
    req = {
      method := req.method, path := req.path, pathCanon := targetCanon req.path
      version := req.version, keepAlive := req.version = .Http11 }

theorem requestLine_recognises : Recognises requestLine RequestText := by
  intro r req r'
  constructor
  · intro h
    obtain ⟨method, r₁, h₁, h⟩ := bind_ok h
    obtain ⟨target, r₂, h₂, h⟩ := bind_ok h
    obtain ⟨version, r₃, h₃, h⟩ := bind_ok h
    cases h
    obtain ⟨lit, hlit, rfl⟩ := (requestMethod_recognises _ _ _).mp h₁
    obtain ⟨_, ⟨hne, huri, hcanon, rfl⟩, rfl⟩ := (requestTarget_recognises _ _ _).mp h₂
    obtain ⟨_, rfl, rfl⟩ := (requestVersion_recognises _ _ _).mp h₃
    exact ⟨_, ⟨lit, hlit, hne, huri, rfl, by rw [hcanon]⟩, by simp⟩
  · rintro ⟨_, ⟨lit, hlit, hne, huri, rfl, hreq⟩, rfl⟩
    have h₁ := (requestMethod_recognises _ req.method
      (req.path ++ space :: (versionText req.version ++ [cr, lf]) ++ r')).mpr ⟨lit, hlit, rfl⟩
    have h₂ : requestTarget (req.path ++ space :: (versionText req.version ++ [cr, lf]) ++ r') =
        .ok ((req.path, targetCanon req.path), versionText req.version ++ [cr, lf] ++ r') :=
      (requestTarget_recognises _ _ _).mpr ⟨_, ⟨hne, huri, rfl, rfl⟩, by simp⟩
    have h₃ := (requestVersion_recognises _ req.version r').mpr ⟨_, rfl, rfl⟩
    rw [append_assoc]
    refine (bind_of_ok h₁).trans ((bind_of_ok h₂).trans ((bind_of_ok h₃).trans ?_))
    exact congrArg (fun q => Except.ok (q, r')) hreq.symm

theorem RequestText.line {req : ParsedRequest} {t : Str} (h : RequestText req t) :
    ∃ l, t = l ++ [cr, lf] ∧ cr ∉ l := by
  obtain ⟨lit, hlit, -, huri, rfl, -⟩ := h
  refine ⟨lit ++ (req.path ++ space :: versionText req.version), by simp, ?_⟩
  have hcr : cr ∉ lit := (methodLiterals_spec _ hlit).2.1
  have hpath : cr ∉ req.path := fun hmem => absurd (huri cr hmem) (by decide)
  have hversion : cr ∉ versionText req.version := by cases req.version <;> decide
  have hspace : cr ≠ space := by decide
  simp [hcr, hpath, hversion, hspace]

end HttpParser

/-! ## Status lines -/

namespace HttpResponseParser

/-- `HTTP/1.x SP NNN`, any bytes but `cr` and the end of the line; and what the parser starts with
then. -/
def StatusText (resp : ParsedResponse) (t : Str) : Prop :=
  ∃ digit digits reason, versionKeepAlive digit = some resp.keepAlive ∧
    statusCode digits = some resp.statusCode ∧ cr ∉ reason ∧
    t = ascii "HTTP/1." ++ digit :: space :: (digits ++ (reason ++ [cr, lf])) ∧
    resp = { statusCode := resp.statusCode, keepAlive := resp.keepAlive }

theorem statusCode_length {digits : Str} {code : Nat} (h : statusCode digits = some code) :
    digits.length = 3 := by
  unfold statusCode at h
  split at h
  · rfl
  · cases h

theorem status_split {r : Str} (hlen : 12 ≤ r.length) :
    r = r.take 7 ++ r.getD 7 0 :: r.getD 8 0 :: ((r.drop 9).take 3 ++ r.drop 12) := by
  match r, hlen with
  | _ :: _ :: _ :: _ :: _ :: _ :: _ :: _ :: _ :: _ :: _ :: _ :: _, _ => rfl

/-- The rest of the line from its first `cr` on. -/
theorem dropWhile_cr {x rest : Str} {c : UInt8} (h : x.dropWhile (· ≠ cr) = c :: rest) :
    ∃ l, cr ∉ l ∧ x = l ++ cr :: rest := by
  have hc : c = cr := by
    have := List.head?_dropWhile_not (· ≠ cr) x
    rw [h] at this
    simpa using this
  refine ⟨x.takeWhile (· ≠ cr), fun hmem => by simpa using mem_takeWhile_imp hmem, ?_⟩
  rw [hc] at h
  rw [← h, takeWhile_append_dropWhile]

theorem statusLine_recognises : Recognises statusLine StatusText := by
  intro r resp r'
  constructor
  · intro h
    by_cases hlen : r.length < 12
    · rw [statusLine, if_pos hlen] at h
      cases h
    have hsplit := status_split (Nat.le_of_not_lt hlen)
    rw [statusLine, if_neg hlen] at h
    split at h
    · next keepAlive code hversion hcode =>
      split at h
      · cases h
      · next hbad =>
        rw [not_or, not_not, not_not] at hbad
        split at h
        · next c b rest hreason =>
          split at h
          · cases h
          · next hb =>
            cases h
            rw [not_not] at hb
            obtain ⟨reason, hcr, hline⟩ := dropWhile_cr hreason
            rw [hbad.1, hbad.2, hline, hb] at hsplit
            refine ⟨_, ⟨r.getD 7 0, (r.drop 9).take 3, reason, hversion, hcode, hcr, rfl, rfl⟩,
              ?_⟩
            nth_rewrite 1 [hsplit]
            simp
        · cases h
    · cases h
  · rintro ⟨_, ⟨digit, digits, reason, hversion, hcode, hcr, rfl, hresp⟩, rfl⟩
    obtain ⟨a, b, c, rfl⟩ := length_eq_three.mp (statusCode_length hcode)
    have hhttp : ascii "HTTP/1." = [0x48, 0x54, 0x54, 0x50, 0x2f, 0x31, 0x2e] := by decide
    rw [hresp]
    simp [statusLine, hhttp, hversion, hcode, dropWhile_to_cr hcr]

end HttpResponseParser

end Rut
