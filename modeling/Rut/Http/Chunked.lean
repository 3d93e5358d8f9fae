import Rut.Http.Parser
import Rut.Lib.Scanner

/-!
# The chunked body parser

A translation of `chunked_parser.cc`, and of the loop in which its callers feed it:

    feed         one call of `ChunkedParser::feed`
    feedBuffer   the calls made for one buffer

A call returns early with each piece of chunk data, so the calls made for a buffer depend on how the
data is cut. Their total does not (`outcome_eq_scan`): it is the run of a machine that reads one byte
after the other.
-/

namespace Rut

open Lib.Scanner List

namespace ChunkedParser

/-- `ChunkedParser::State` -/
inductive State where
  | size | sizeLF | extension | data | dataCR | dataLF
  | trailer | trailerLF | trailerLine | trailerLineLF | complete
deriving DecidableEq, Repr

theorem start_pos : State.size = .data → 0 < 0 := nofun

end ChunkedParser

inductive ChunkStatus where
  | needMore | data | done | error
deriving DecidableEq, Repr

/-- The `data` state is entered with data to read and left with the last byte of it.
`chunk_remaining` stays below `2 ^ 32`: a digit is refused before it could overflow. -/
structure ChunkedParser where
  state : ChunkedParser.State := .size
  chunkRemaining : Nat := 0
  hasDigits : Bool := false
  data_pos : state = .data → 0 < chunkRemaining := by
    first | exact ChunkedParser.start_pos | simp
deriving DecidableEq, Repr

/-- What one call returns: the parser, the status, `*consumed`, `*out_start` and `*out_len`. -/
structure Fed where
  parser : ChunkedParser
  status : ChunkStatus
  consumed : Nat
  outStart : Nat := 0
  outLen : Nat := 0
deriving DecidableEq, Repr

/-- `hex_val`, `none` for -1. -/
def hexVal (c : UInt8) : Option Nat :=
  if 0x30 ≤ c ∧ c ≤ 0x39 then some (c.toNat - 0x30)
  else if 0x61 ≤ c ∧ c ≤ 0x66 then some (10 + (c.toNat - 0x61))
  else if 0x41 ≤ c ∧ c ≤ 0x46 then some (10 + (c.toNat - 0x41))
  else none

def semicolon : UInt8 := 0x3b

namespace ChunkedParser

/-- The parser in another state, which is not the `data` state. -/
def goto (p : ChunkedParser) (st : State) (h : st ≠ .data := by decide) : ChunkedParser :=
  { p with state := st, data_pos := fun hd => absurd hd h }

/-- The case `State::Size`. -/
def sizeByte (p : ChunkedParser) (c : UInt8) : Option ChunkedParser :=
  match hexVal c with
  | some v =>
    if p.chunkRemaining > 0x0FFFFFFF then none
    else some { state := .size, chunkRemaining := p.chunkRemaining * 16 + v, hasDigits := true }
  | none =>
    if c = cr then if !p.hasDigits then none else some (p.goto .sizeLF)
    else if c = semicolon then if !p.hasDigits then none else some (p.goto .extension)
    else none

def sizeEnd (p : ChunkedParser) : ChunkedParser :=
  if h : p.chunkRemaining = 0 then p.goto .trailer
  else { p with state := .data, data_pos := fun _ => Nat.pos_of_ne_zero h }

/-- The cases of the switch that look at one byte; `none` is an error. -/
def onByte (p : ChunkedParser) (c : UInt8) : Option ChunkedParser :=
  match p.state with
  | .size => p.sizeByte c
  | .sizeLF => if c ≠ lf then none else some p.sizeEnd
  | .extension => some (if c = cr then p.goto .sizeLF else p)
  | .dataCR => if c ≠ cr then none else some (p.goto .dataLF)
  | .dataLF => if c ≠ lf then none else some {}
  | .trailer => some (if c = cr then p.goto .trailerLF else p.goto .trailerLine)
  | .trailerLF => if c ≠ lf then none else some (p.goto .complete)
  | .trailerLine => some (if c = cr then p.goto .trailerLineLF else p)
  | .trailerLineLF => if c ≠ lf then none else some (p.goto .trailer)
  | .data | .complete => none

/-- `n` bytes of chunk data have been read. -/
def advance (p : ChunkedParser) (n : Nat) : ChunkedParser :=
  if h : p.chunkRemaining - n = 0 then { p with state := .dataCR, chunkRemaining := 0, data_pos := by simp }
  else { p with chunkRemaining := p.chunkRemaining - n, data_pos := fun _ => Nat.pos_of_ne_zero h }

/-- The loop of `feed` at offset `pos` of its input. -/
def feedFrom (p : ChunkedParser) (pos : Nat) : Str → Fed
  | [] => { parser := p, status := .needMore, consumed := pos }
  | c :: rest =>
    match p.state with
    | .data =>
      -- a whole piece of data at once
      let n := min (rest.length + 1) p.chunkRemaining
      { parser := p.advance n, status := .data, consumed := pos + n, outStart := pos, outLen := n }
    | .complete => { parser := p, status := .done, consumed := pos }
    | _ =>
      match p.onByte c with
      | none => { parser := p, status := .error, consumed := pos }
      | some p' =>
        if p'.state = .complete then { parser := p', status := .done, consumed := pos + 1 }
        else feedFrom p' (pos + 1) rest

def feed (p : ChunkedParser) (input : Str) : Fed := p.feedFrom 0 input

end ChunkedParser

/-- A parser and the data it has delivered. -/
structure Collected where
  parser : ChunkedParser := {}
  data : Str := []
deriving DecidableEq, Repr

namespace ChunkedParser

/-- The loop around `feed` in the callers, over the rest of their buffer. They only follow the
parser; the data ranges that are reported to them are collected here. Running out of fuel is
`none`. -/
def feedLoop : Nat → Collected → Str → Option (Scan Collected)
  | _, s, [] => some ⟨s, 0, .more⟩
  | 0, _, _ :: _ => none
  | fuel + 1, s, c :: rest =>
    let f := s.parser.feed (c :: rest)
    let s' := ⟨f.parser, s.data ++ ((c :: rest).drop f.outStart).take f.outLen⟩
    match f.status with
    | .done => some ⟨s', f.consumed, .done⟩
    | .error => some ⟨s', f.consumed, .error⟩
    | .needMore => some ⟨s', f.consumed, .more⟩
    | .data => (feedLoop fuel s' ((c :: rest).drop f.consumed)).map (·.shift f.consumed)

/-- Feed a whole buffer. Every call reads a byte or ends the loop, so its length is fuel enough. -/
def feedBuffer (s : Collected) (input : Str) : Option (Scan Collected) :=
  feedLoop input.length s input

/-- The same for a caller that does not look at the data. -/
def feedAll (p : ChunkedParser) (input : Str) : Scan ChunkedParser :=
  match feedBuffer ⟨p, []⟩ input with
  | some r => r.map Collected.parser
  | none => ⟨p, 0, .more⟩

/-- Feed one buffer after the other, until one of them ends the body. -/
def feedPieces : Collected → List Str → Option (Scan Collected)
  | s, [] => some ⟨s, 0, .more⟩
  | s, input :: rest =>
    match feedBuffer s input with
    | some ⟨s', n, .more⟩ => (feedPieces s' rest).map (·.shift n)
    | r => r

/-! ## The calls as one scan -/

/-- The parser byte by byte. -/
def machine : Machine ChunkedParser UInt8 where
  step p c := if p.state = .data then some (p.advance 1) else p.onByte c
  done p := p.state = .complete

/-- The same, with the data. -/
def collector : Machine Collected UInt8 where
  step s c := (machine.step s.parser c).map fun p =>
    ⟨p, if s.parser.state = .data then s.data ++ [c] else s.data⟩
  done s := machine.done s.parser

variable {p : ChunkedParser} {s : Collected}

@[simp] theorem collector_done (s : Collected) :
    collector.done s = decide (s.parser.state = .complete) := rfl

/-- Within a chunk every byte is data. -/
theorem collector_step_data (hd : s.parser.state = .data) (c : UInt8) :
    collector.step s c = some ⟨s.parser.advance 1, s.data ++ [c]⟩ := by
  simp [collector, machine, hd]

theorem collector_step_byte (hd : s.parser.state ≠ .data) (c : UInt8) :
    collector.step s c = (s.parser.onByte c).map fun p => ⟨p, s.data⟩ := by
  simp [collector, machine, hd]

theorem advance_zero (hr : 0 < p.chunkRemaining) : p.advance 0 = p := by
  simp [advance, Nat.ne_of_gt hr]

theorem advance_advance {n : Nat} (hr : 1 < p.chunkRemaining) :
    (p.advance 1).advance n = p.advance (n + 1) := by
  have h1 : p.chunkRemaining - 1 ≠ 0 := by omega
  simp [advance, h1, Nat.sub_sub, Nat.add_comm]

theorem advance_ne_complete (hd : p.state = .data) (n : Nat) : (p.advance n).state ≠ .complete := by
  unfold advance
  split <;> simp [hd]

/-- Reading a piece of data byte by byte is reading it at once. -/
theorem reads_data {piece : Str} (hd : s.parser.state = .data)
    (hlen : piece.length ≤ s.parser.chunkRemaining) :
    Reads collector s piece ⟨s.parser.advance piece.length, s.data ++ piece⟩ := by
  induction piece generalizing s with
  | nil =>
    rw [length_nil, advance_zero (s.parser.data_pos hd), append_nil]
    exact Reads.nil s
  | cons c piece ih =>
    refine Reads.cons (by simp [hd]) (collector_step_data hd c) ?_
    by_cases hone : s.parser.chunkRemaining = 1
    · have hnil : piece = [] := by
        rw [length_cons] at hlen
        exact eq_nil_of_length_eq_zero (by omega)
      rw [hnil]
      exact Reads.nil _
    · have hlt : 1 < s.parser.chunkRemaining := by have := s.parser.data_pos hd; omega
      have hne : s.parser.chunkRemaining - 1 ≠ 0 := by omega
      have hadv : (s.parser.advance 1).state = .data ∧
          (s.parser.advance 1).chunkRemaining = s.parser.chunkRemaining - 1 := by
        simp [advance, hne, hd]
      have := ih (s := ⟨s.parser.advance 1, s.data ++ [c]⟩) hadv.1
        (by rw [length_cons] at hlen; rw [hadv.2]; omega)
      rwa [advance_advance hlt, append_assoc, singleton_append] at this

theorem feedFrom_byte (hd : p.state ≠ .data) (hc : p.state ≠ .complete) (pos : Nat) (c : UInt8)
    (rest : Str) :
    p.feedFrom pos (c :: rest) =
      match p.onByte c with
      | none => { parser := p, status := .error, consumed := pos }
      | some p' =>
        if p'.state = .complete then { parser := p', status := .done, consumed := pos + 1 }
        else feedFrom p' (pos + 1) rest := by
  rw [feedFrom]
  cases h : p.state <;> first | rfl | contradiction

/-- What a call that reads `n` bytes and leads to `s'` tells about the scan of its input. -/
def FedReads (s s' : Collected) (status : ChunkStatus) (input : Str) (n : Nat) : Prop :=
  match status with
  | .done => scan collector s input = ⟨s', n, .done⟩
  | .error => scan collector s input = ⟨s', n, .error⟩
  | .needMore =>
    n = input.length ∧ (s.parser.state ≠ .complete → scan collector s input = ⟨s', n, .more⟩)
  | .data =>
    0 < n ∧ s'.parser.state ≠ .complete ∧
      scan collector s input = (scan collector s' (input.drop n)).shift n

theorem FedReads.cons {s s₁ s' : Collected} {status : ChunkStatus} {c : UInt8} {rest : Str} {n : Nat}
    (hscan : scan collector s (c :: rest) = (scan collector s₁ rest).shift 1)
    (hs₁ : s₁.parser.state ≠ .complete) (h : FedReads s₁ s' status rest n) :
    FedReads s s' status (c :: rest) (n + 1) := by
  unfold FedReads at h ⊢
  cases status with
  | done => simp only at h ⊢; rw [hscan, h]; rfl
  | error => simp only at h ⊢; rw [hscan, h]; rfl
  | needMore =>
    simp only at h ⊢
    refine ⟨congrArg (· + 1) h.1, fun _ => ?_⟩
    rw [hscan, h.2 hs₁]
    rfl
  | data =>
    simp only at h ⊢
    obtain ⟨-, hne, heq⟩ := h
    refine ⟨Nat.succ_pos n, hne, ?_⟩
    rw [hscan, heq, Scan.shift_shift, drop_succ_cons]

/-- A call from offset `pos` on reads `n` bytes; the data it reports begins at `k` of them. -/
theorem feedFrom_reads (s : Collected) (pos : Nat) (input : Str) :
    ∃ n ≤ input.length, ∃ k,
      (s.parser.feedFrom pos input).consumed = pos + n ∧
      k + (s.parser.feedFrom pos input).outLen ≤ input.length ∧
      ((s.parser.feedFrom pos input).outStart = pos + k ∨
        (s.parser.feedFrom pos input).outStart = 0 ∧ (s.parser.feedFrom pos input).outLen = 0) ∧
      FedReads s
        ⟨(s.parser.feedFrom pos input).parser,
          s.data ++ (input.drop k).take (s.parser.feedFrom pos input).outLen⟩
        (s.parser.feedFrom pos input).status input n := by
  induction input generalizing s pos with
  | nil =>
    refine ⟨0, Nat.le_refl 0, 0, rfl, Nat.le_refl 0, .inr ⟨rfl, rfl⟩, rfl, fun hp => ?_⟩
    simp [feedFrom, scan, hp]
  | cons c rest ih =>
    by_cases hd : s.parser.state = .data
    · -- a piece of data, not empty as the parser waits for some
      have hpos := s.parser.data_pos hd
      have hn : min (rest.length + 1) s.parser.chunkRemaining ≤ (c :: rest).length :=
        Nat.min_le_left ..
      generalize hmin : min (rest.length + 1) s.parser.chunkRemaining = n at hn
      have hfeed : s.parser.feedFrom pos (c :: rest) =
          ⟨s.parser.advance n, .data, pos + n, pos, n⟩ := by
        rw [feedFrom]
        simp only [hd, hmin]
      rw [hfeed]
      refine ⟨n, hn, 0, rfl, by rwa [Nat.zero_add], .inl rfl, by omega,
        advance_ne_complete hd _, ?_⟩
      have hlen : ((c :: rest).take n).length = n := length_take_of_le hn
      have hreads : Reads collector s ((c :: rest).take n) _ := reads_data hd (by rw [hlen]; omega)
      have := hreads ((c :: rest).drop n)
      rwa [take_append_drop, hlen] at this
    by_cases hc : s.parser.state = .complete
    · have hfeed : s.parser.feedFrom pos (c :: rest) =
          { parser := s.parser, status := .done, consumed := pos } := by
        rw [feedFrom]
        simp only [hc]
      rw [hfeed]
      refine ⟨0, Nat.zero_le _, 0, rfl, Nat.zero_le _, .inr ⟨rfl, rfl⟩, ?_⟩
      simpa using! scan_of_done (m := collector) (s := s) (by simp [hc]) (c :: rest)
    have hnd : collector.done s = false := by simp [hc]
    rw [feedFrom_byte hd hc]
    cases hb : s.parser.onByte c with
    | none =>
      refine ⟨0, Nat.zero_le _, 0, rfl, Nat.zero_le _, .inr ⟨rfl, rfl⟩, ?_⟩
      have hstep : collector.step s c = none := by rw [collector_step_byte hd, hb]; rfl
      simpa using! scan_cons_error hnd hstep rest
    | some p' =>
      have hstep : collector.step s c = some ⟨p', s.data⟩ := by
        rw [collector_step_byte hd, hb]
        rfl
      have hscan := scan_cons hnd hstep rest
      by_cases hc' : p'.state = .complete
      · dsimp only
        rw [if_pos hc']
        refine ⟨1, Nat.succ_le_succ (Nat.zero_le _), 0, rfl, Nat.zero_le _, .inr ⟨rfl, rfl⟩, ?_⟩
        have : scan collector ⟨p', s.data⟩ rest = ⟨⟨p', s.data⟩, 0, .done⟩ :=
          scan_of_done (by simp [hc']) rest
        simpa [FedReads, Scan.shift, this] using hscan
      · dsimp only
        rw [if_neg hc']
        obtain ⟨n, hn, k, hcons, hk, hout, hreads⟩ := ih ⟨p', s.data⟩ (pos + 1)
        refine ⟨n + 1, Nat.succ_le_succ hn, k + 1, by rw [hcons]; omega, ?_, ?_, ?_⟩
        · rw [length_cons, Nat.add_right_comm]
          exact Nat.succ_le_succ hk
        · exact hout.imp_left fun h => by rw [h]; omega
        · rw [drop_succ_cons]
          exact FedReads.cons hscan hc' hreads

/-- One call, from the front of its input. -/
theorem feed_reads (s : Collected) (input : Str) :
    (s.parser.feed input).consumed ≤ input.length ∧
    (s.parser.feed input).outStart + (s.parser.feed input).outLen ≤ input.length ∧
    FedReads s
      ⟨(s.parser.feed input).parser,
        s.data ++ (input.drop (s.parser.feed input).outStart).take (s.parser.feed input).outLen⟩
      (s.parser.feed input).status input (s.parser.feed input).consumed := by
  obtain ⟨n, hn, k, hcons, hk, hout, hreads⟩ := feedFrom_reads s 0 input
  rw [Nat.zero_add] at hcons hout
  unfold feed
  rw [hcons]
  refine ⟨hn, ?_⟩
  rcases hout with hout | ⟨hout, hlen⟩
  · rw [hout]
    exact ⟨hk, hreads⟩
  · -- no data in this call
    rw [hlen, take_zero] at hreads
    rw [hlen, hout, take_zero]
    exact ⟨Nat.zero_le _, hreads⟩

/-- What the calls for a buffer come to. They are not made for an empty one. -/
def outcome (s : Collected) : Str → Scan Collected
  | [] => ⟨s, 0, .more⟩
  | c :: rest => scan collector s (c :: rest)

/-- The calls for a buffer come to one scan of it. -/
theorem outcome_eq_scan (hs : s.parser.state ≠ .complete) (input : Str) :
    outcome s input = scan collector s input := by
  cases input with
  | nil => simp [outcome, scan, hs]
  | cons c rest => rfl

/-- The length of the buffer is fuel enough. -/
theorem feedLoop_eq_outcome {fuel : Nat} {input : Str} (hfuel : input.length ≤ fuel) :
    feedLoop fuel s input = some (outcome s input) := by
  induction fuel generalizing s input with
  | zero =>
    rw [eq_nil_of_length_eq_zero (Nat.le_zero.mp hfuel)]
    rfl
  | succ fuel ih =>
    cases input with
    | nil => rfl
    | cons c rest =>
      obtain ⟨-, -, hreads⟩ := feed_reads s (c :: rest)
      rw [feedLoop, outcome]
      unfold FedReads at hreads
      cases hst : (s.parser.feed (c :: rest)).status with
      | done => simp only [hst] at hreads ⊢; rw [hreads]
      | error => simp only [hst] at hreads ⊢; rw [hreads]
      | needMore =>
        simp only [hst] at hreads ⊢
        rw [hreads.2]
        -- a complete parser is done with the first byte
        intro hc
        simp [feed, feedFrom, hc] at hst
      | data =>
        simp only [hst] at hreads ⊢
        obtain ⟨hpos, hne, heq⟩ := hreads
        rw [ih, heq, outcome_eq_scan hne]
        · rfl
        · rw [length_drop]
          omega

theorem feedBuffer_eq_outcome (s : Collected) (input : Str) :
    feedBuffer s input = some (outcome s input) :=
  feedLoop_eq_outcome (Nat.le_refl _)

/-! ## Feeding piece by piece -/

theorem outcome_append_of_more {xs : Str} (h : (outcome s xs).verdict = .more) (ys : Str) :
    outcome s (xs ++ ys) = (outcome (outcome s xs).state ys).shift (outcome s xs).count := by
  cases xs with
  | nil => rfl
  | cons c xs =>
    have hnc : (scan collector s (c :: xs)).state.parser.state ≠ .complete := by
      intro hc
      have := (scan_done_iff (m := collector) s (c :: xs)).mpr (by simpa using hc)
      exact absurd (h.symm.trans this) (by decide)
    calc outcome s (c :: xs ++ ys)
      _ = (scan collector (scan collector s (c :: xs)).state ys).shift (c :: xs).length :=
        scan_append_of_more h ys
      _ = _ := by
        rw [← outcome_eq_scan hnc, ← scan_count_of_more h]
        rfl

theorem outcome_append_of_ne_more {xs : Str} (h : (outcome s xs).verdict ≠ .more) (ys : Str) :
    outcome s (xs ++ ys) = outcome s xs := by
  cases xs with
  | nil => exact absurd rfl h
  | cons c xs => exact scan_append_of_ne_more h ys

/-- Cutting a stream into pieces does not matter. -/
theorem feedPieces_eq_outcome (s : Collected) (pieces : List Str) :
    feedPieces s pieces = some (outcome s pieces.flatten) := by
  induction pieces generalizing s with
  | nil => rfl
  | cons input rest ih =>
    rw [feedPieces, feedBuffer_eq_outcome, flatten_cons]
    by_cases hmore : (outcome s input).verdict = .more
    · rw [outcome_append_of_more hmore]
      generalize outcome s input = r at hmore
      obtain ⟨s', n, v⟩ := r
      cases hmore
      simp only [ih, Option.map_some]
    · rw [outcome_append_of_ne_more hmore]
      split
      · rename_i heq
        exact absurd (congrArg Scan.verdict (Option.some.inj heq)) hmore
      · rfl

/-- However a body is cut, the parser delivers the same data, reads the same number of bytes and ends
with the same verdict; and its calls make progress inside their input. -/
theorem feed_cut_independent :
    (∀ (s : Collected) (pieces : List Str),
      ∃ r, feedPieces s pieces = some r ∧ feedBuffer s pieces.flatten = some r) ∧
    ∀ (p : ChunkedParser) (input : Str),
      ((p.feed input).status = .data → 0 < (p.feed input).consumed) ∧
      ((p.feed input).status = .needMore → (p.feed input).consumed = input.length) ∧
      (p.feed input).consumed ≤ input.length ∧
      (p.feed input).outStart + (p.feed input).outLen ≤ input.length := by
  constructor
  · intro s pieces
    exact ⟨_, feedPieces_eq_outcome s pieces, feedBuffer_eq_outcome s _⟩
  · intro p input
    obtain ⟨hcons, hout, hreads⟩ := feed_reads ⟨p, []⟩ input
    unfold FedReads at hreads
    refine ⟨fun hst => ?_, fun hst => ?_, hcons, hout⟩
    · simp only [hst] at hreads
      exact hreads.1
    · simp only [hst] at hreads
      exact hreads.1

end ChunkedParser
end Rut
