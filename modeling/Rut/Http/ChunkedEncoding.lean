import Rut.Http.Chunked

/-!
# Chunked encodings

The bodies that the chunked parser is for, and that it gets them back. The types leave to a sender what
the format leaves open: upper or lower case digits and leading zeros in a size, an extension behind it,
trailer lines behind the last chunk.
-/

namespace Rut

open Lib.Scanner List

/-- The number that hexadecimal digits continue, if they are digits. -/
def hexValue (acc : Nat) : Str → Option Nat
  | [] => some acc
  | c :: cs =>
    match hexVal c with
    | some v => hexValue (acc * 16 + v) cs
    | none => none

/-- Text that can stand within a line. -/
def LineText (text : Str) : Prop := ∀ c ∈ text, c ≠ cr ∧ c ≠ lf

/-- A size line for `n`. -/
structure SizeLine (n : Nat) where
  digits : Str
  digits_ne_nil : digits ≠ []
  value : hexValue 0 digits = some n
  extension : Option Str := none
  extension_text : ∀ e ∈ extension, LineText e := by simp

structure Chunk where
  payload : Str
  payload_ne_nil : payload ≠ []
  payload_lt : payload.length < 2 ^ 32
  line : SizeLine payload.length

/-- A trailer line. An empty one would end the body. -/
structure TrailerLine where
  text : Str
  text_ne_nil : text ≠ []
  line_text : LineText text

structure ChunkedBody where
  chunks : List Chunk
  last : SizeLine 0
  trailers : List TrailerLine

def SizeLine.encode {n : Nat} (l : SizeLine n) : Str :=
  l.digits ++ (match l.extension with
    | none => []
    | some e => semicolon :: e) ++ [cr, lf]

def Chunk.encode (c : Chunk) : Str := c.line.encode ++ c.payload ++ [cr, lf]

def TrailerLine.encode (t : TrailerLine) : Str := t.text ++ [cr, lf]

def ChunkedBody.payload (b : ChunkedBody) : Str := (b.chunks.map Chunk.payload).flatten

def ChunkedBody.encode (b : ChunkedBody) : Str :=
  (b.chunks.map Chunk.encode).flatten ++ b.last.encode ++
    (b.trailers.map TrailerLine.encode).flatten ++ [cr, lf]

namespace ChunkedParser

theorem hexVal_cr : hexVal cr = none := by decide

theorem hexVal_semicolon : hexVal semicolon = none := by decide

/-- More digits make a number no smaller. -/
theorem le_hexValue {acc n : Nat} {digits : Str} (h : hexValue acc digits = some n) : acc ≤ n := by
  induction digits generalizing acc with
  | nil => exact (Option.some.inj h).le
  | cons c cs ih =>
    rw [hexValue] at h
    split at h
    · have := ih h
      omega
    · cases h

variable {n acc : Nat} {data : Str}

/-! ## Size lines -/

/-- A digit is read as long as the size fits 32 bits. -/
theorem step_digit {b : Bool} {c : UInt8} {v : Nat} (hv : hexVal c = some v)
    (hacc : acc * 16 + v < 2 ^ 32) :
    collector.step ⟨{ state := .size, chunkRemaining := acc, hasDigits := b }, data⟩ c =
      some ⟨{ state := .size, chunkRemaining := acc * 16 + v, hasDigits := true }, data⟩ := by
  have hlim : ¬ acc > 0x0FFFFFFF := by omega
  rw [collector_step_byte (by simp)]
  simp [onByte, sizeByte, hv, hlim]

theorem reads_digits {digits : Str} (hn : n < 2 ^ 32) (hval : hexValue acc digits = some n) :
    Reads collector ⟨{ state := .size, chunkRemaining := acc, hasDigits := true }, data⟩ digits
      ⟨{ state := .size, chunkRemaining := n, hasDigits := true }, data⟩ := by
  induction digits generalizing acc with
  | nil =>
    cases hval
    exact Reads.nil _
  | cons c cs ih =>
    rw [hexValue] at hval
    split at hval
    · rename_i v hv
      -- what has been read never exceeds the size, so the limit on a digit holds
      have hle := le_hexValue hval
      exact Reads.cons (by simp) (step_digit hv (by omega)) (ih hval)
    · cases hval

/-- The digits of a size. The first one tells the parser that there is a number. -/
theorem reads_size {digits : Str} (hn : n < 2 ^ 32) (hne : digits ≠ [])
    (hval : hexValue 0 digits = some n) :
    Reads collector ⟨{}, data⟩ digits
      ⟨{ state := .size, chunkRemaining := n, hasDigits := true }, data⟩ := by
  cases digits with
  | nil => contradiction
  | cons c cs =>
    rw [hexValue] at hval
    split at hval
    · rename_i v hv
      have hle := le_hexValue hval
      exact Reads.cons (by simp) (step_digit hv (by omega)) (reads_digits hn hval)
    · cases hval

theorem reads_sizeLF (p : ChunkedParser) (hp : p.state = .sizeLF) :
    Reads collector ⟨p, data⟩ [lf] ⟨p.sizeEnd, data⟩ := by
  apply reads_single
  · simp [hp]
  · rw [collector_step_byte (by simp [hp])]
    simp [onByte, hp]

/-- Nothing within a line ends an extension. -/
theorem reads_extension {e : Str} (he : LineText e) (p : ChunkedParser) (hp : p.state = .extension) :
    Reads collector ⟨p, data⟩ (e ++ [cr]) ⟨p.goto .sizeLF, data⟩ := by
  have hstep (c : UInt8) : collector.step ⟨p, data⟩ c =
      some ⟨if c = cr then p.goto .sizeLF else p, data⟩ := by
    rw [collector_step_byte (by simp [hp])]
    simp [onByte, hp]
  apply Reads.trans
  · apply reads_loop
    · simp [hp]
    · intro c hc
      rw [hstep, if_neg (he c hc).1]
  · exact reads_single (by simp [hp]) (by rw [hstep, if_pos rfl])

/-- A size line, with or without an extension. -/
theorem reads_sizeLine (l : SizeLine n) (hn : n < 2 ^ 32) :
    Reads collector ⟨{}, data⟩ l.encode
      ⟨sizeEnd { state := .sizeLF, chunkRemaining := n, hasDigits := true }, data⟩ := by
  obtain ⟨digits, hne, hval, extension, hext⟩ := l
  rw [SizeLine.encode, append_assoc]
  refine (reads_size hn hne hval).trans ?_
  cases extension with
  | none =>
    have hcr : Reads collector ⟨{ state := .size, chunkRemaining := n, hasDigits := true }, data⟩ [cr]
        ⟨{ state := .sizeLF, chunkRemaining := n, hasDigits := true }, data⟩ := by
      apply reads_single (by simp)
      rw [collector_step_byte (by simp)]
      simp [onByte, sizeByte, hexVal_cr, goto]
    exact hcr.trans (reads_sizeLF _ rfl)
  | some e =>
    have hext : LineText e := hext e rfl
    have hne : semicolon ≠ cr := by decide
    have hsemi : Reads collector
        ⟨{ state := .size, chunkRemaining := n, hasDigits := true }, data⟩ [semicolon]
        ⟨{ state := .extension, chunkRemaining := n, hasDigits := true }, data⟩ := by
      apply reads_single (by simp)
      rw [collector_step_byte (by simp)]
      simp [onByte, sizeByte, hexVal_semicolon, goto, hne]
    have := (hsemi.trans (reads_extension hext _ rfl)).trans (reads_sizeLF _ rfl)
    rwa [append_assoc, append_assoc] at this

/-! ## Chunks -/

/-- The bytes of a chunk are handed over as they are. -/
theorem reads_payload {piece : Str} (hne : piece.length ≠ 0) :
    Reads collector
      ⟨sizeEnd { state := .sizeLF, chunkRemaining := piece.length, hasDigits := true }, data⟩ piece
      ⟨{ state := .dataCR, hasDigits := true }, data ++ piece⟩ := by
  have hstate : (sizeEnd { state := .sizeLF, chunkRemaining := piece.length, hasDigits := true }) =
      { state := .data, chunkRemaining := piece.length, hasDigits := true,
        data_pos := fun _ => Nat.pos_of_ne_zero hne } := by
    simp [sizeEnd, hne]
  rw [hstate]
  generalize hp : (ChunkedParser.mk .data piece.length true fun _ => Nat.pos_of_ne_zero hne) = p
  have hadv : p.advance piece.length = { state := .dataCR, hasDigits := true } := by
    simp [← hp, advance]
  rw [← hadv]
  exact reads_data (s := ⟨p, data⟩) (by rw [← hp]) (by rw [← hp])

theorem reads_dataEnd :
    Reads collector ⟨{ state := .dataCR, hasDigits := true }, data⟩ [cr, lf] ⟨{}, data⟩ := by
  have hcr : Reads collector ⟨{ state := .dataCR, hasDigits := true }, data⟩ [cr]
      ⟨{ state := .dataLF, hasDigits := true }, data⟩ := by
    apply reads_single (by simp)
    rw [collector_step_byte (by simp)]
    simp [onByte, goto]
  apply hcr.trans
  apply reads_single (by simp)
  rw [collector_step_byte (by simp)]
  simp [onByte]

/-- The parser gets through a chunk and is back where it was. -/
theorem reads_chunk (c : Chunk) :
    Reads collector ⟨{}, data⟩ c.encode ⟨{}, data ++ c.payload⟩ := by
  have hne : c.payload.length ≠ 0 := by simpa using c.payload_ne_nil
  exact ((reads_sizeLine c.line c.payload_lt).trans (reads_payload hne)).trans reads_dataEnd

theorem reads_chunks (chunks : List Chunk) :
    Reads collector ⟨{}, data⟩ (chunks.map Chunk.encode).flatten
      ⟨{}, data ++ (chunks.map Chunk.payload).flatten⟩ := by
  induction chunks generalizing data with
  | nil =>
    rw [map_nil, map_nil, flatten_nil, append_nil]
    exact Reads.nil _
  | cons c chunks ih =>
    rw [map_cons, map_cons, flatten_cons, flatten_cons, ← append_assoc]
    exact (reads_chunk c).trans ih

/-! ## Trailers -/

/-- The parser between two trailer lines. -/
def atTrailer : ChunkedParser := { state := .trailer, hasDigits := true }

theorem step_trailerLine (c : UInt8) :
    collector.step ⟨atTrailer.goto .trailerLine, data⟩ c =
      some ⟨if c = cr then atTrailer.goto .trailerLineLF else atTrailer.goto .trailerLine, data⟩ := by
  rw [collector_step_byte (by simp [goto])]
  simp [onByte, goto]

/-- A trailer line is passed over. -/
theorem reads_trailer (t : TrailerLine) :
    Reads collector ⟨atTrailer, data⟩ t.encode ⟨atTrailer, data⟩ := by
  obtain ⟨text, hne, htext⟩ := t
  cases text with
  | nil => contradiction
  | cons c text =>
    obtain ⟨hc, htext⟩ := forall_mem_cons.mp htext
    -- the first byte is what tells a trailer line from the end of the body
    have hfirst : collector.step ⟨atTrailer, data⟩ c = some ⟨atTrailer.goto .trailerLine, data⟩ := by
      rw [collector_step_byte (by simp [atTrailer])]
      simp [onByte, atTrailer, hc.1]
    have htail : Reads collector ⟨atTrailer.goto .trailerLine, data⟩ text
        ⟨atTrailer.goto .trailerLine, data⟩ := by
      apply reads_loop (by simp [goto])
      intro x hx
      rw [step_trailerLine, if_neg (htext x hx).1]
    have hcr : Reads collector ⟨atTrailer.goto .trailerLine, data⟩ [cr]
        ⟨atTrailer.goto .trailerLineLF, data⟩ :=
      reads_single (by simp [goto]) (by rw [step_trailerLine, if_pos rfl])
    have hlf : Reads collector ⟨atTrailer.goto .trailerLineLF, data⟩ [lf] ⟨atTrailer, data⟩ := by
      apply reads_single (by simp [goto])
      rw [collector_step_byte (by simp [goto])]
      simp [onByte, goto, atTrailer]
    exact Reads.cons (by simp [atTrailer]) hfirst (htail.trans (hcr.trans hlf))

theorem reads_trailers (trailers : List TrailerLine) :
    Reads collector ⟨atTrailer, data⟩ (trailers.map TrailerLine.encode).flatten ⟨atTrailer, data⟩ := by
  induction trailers with
  | nil => exact Reads.nil _
  | cons t trailers ih =>
    rw [map_cons, flatten_cons]
    exact (reads_trailer t).trans ih

/-- The blank line ends the body. -/
theorem reads_final :
    Reads collector ⟨atTrailer, data⟩ [cr, lf] ⟨atTrailer.goto .complete, data⟩ := by
  have hcr : Reads collector ⟨atTrailer, data⟩ [cr] ⟨atTrailer.goto .trailerLF, data⟩ := by
    apply reads_single (by simp [atTrailer])
    rw [collector_step_byte (by simp [atTrailer])]
    simp [onByte, atTrailer]
  apply hcr.trans
  apply reads_single (by simp [goto])
  rw [collector_step_byte (by simp [goto])]
  simp [onByte, goto]

/-! ## Bodies -/

/-- The parser gets through a whole encoding. -/
theorem reads_body (b : ChunkedBody) :
    Reads collector {} b.encode ⟨atTrailer.goto .complete, b.payload⟩ := by
  have hchunks : Reads collector {} (b.chunks.map Chunk.encode).flatten ⟨{}, b.payload⟩ :=
    reads_chunks b.chunks
  have hlast : Reads collector ⟨{}, b.payload⟩ b.last.encode ⟨atTrailer, b.payload⟩ :=
    reads_sizeLine b.last (by decide)
  exact ((hchunks.trans hlast).trans (reads_trailers b.trailers)).trans reads_final

/-- Decoding inverts encoding. The bytes behind the body are left alone. -/
theorem feedBuffer_encode (b : ChunkedBody) (extra : Str) :
    ∃ r, feedBuffer {} (b.encode ++ extra) = some r ∧
      r.state.data = b.payload ∧ r.verdict = .done ∧ r.count = b.encode.length := by
  have hscan : outcome {} (b.encode ++ extra) =
      ⟨⟨atTrailer.goto .complete, b.payload⟩, b.encode.length, .done⟩ := by
    rw [outcome_eq_scan (by decide), reads_body b extra, scan_of_done (by simp [goto])]
    simp [Scan.shift]
  refine ⟨_, feedBuffer_eq_outcome {} _, ?_⟩
  rw [hscan]
  exact ⟨rfl, rfl, rfl⟩

/-! ## A body with an extension and a trailer -/

theorem lineText_x : LineText [120] := by simp [LineText, cr, lf]

theorem lineText_trailer : LineText [116, 58, 49] := by simp [LineText, cr, lf]

/-- The chunk `hi` with the size line `02;x`, and behind the last size the trailer `t:1`. -/
def sampleBody : ChunkedBody where
  chunks := [{
    payload := [104, 105]
    payload_ne_nil := cons_ne_nil _ _
    payload_lt := of_decide_eq_true rfl
    line := {
      digits := [48, 50]
      digits_ne_nil := cons_ne_nil _ _
      value := rfl
      extension := some [120]
      extension_text := fun _ he => Option.mem_some.mp he ▸ lineText_x } }]
  last := {
    digits := [48]
    digits_ne_nil := cons_ne_nil _ _
    value := rfl
    extension_text := fun _ he => absurd he (Option.not_mem_none _) }
  trailers := [⟨[116, 58, 49], cons_ne_nil _ _, lineText_trailer⟩]

example : ∃ r, feedBuffer {} (sampleBody.encode ++ [71]) = some r ∧
    r.state.data = [104, 105] ∧ r.verdict = .done ∧ r.count = 20 :=
  ⟨_, rfl, rfl, rfl, rfl⟩

end ChunkedParser
end Rut
