import Rut.Http.Parser

/-!
# Rewriting a response head while draining

While the event loop drains, `on_upstream_response` edits the head of an upstream response before it
is forwarded, so that the client closes the connection:

    rewriteConnection   overwrite the value of the first `Connection` header in place
    insertClose         otherwise copy the head with a `Connection: close` header behind its last line

The positions are offsets into the buffer, and `hdrEnd` is where the blank line that ends the head
starts.
-/

namespace Rut

def kHeaderEndLen : Nat := 4

def kConnCloseLen : Nat := 19

def kConnClose : Str := ascii "Connection: close\r\n"

def asciiLower (c : UInt8) : UInt8 := if 0x41 ≤ c ∧ c ≤ 0x5a then c + 0x20 else c

def asciiCiEq (data lit : Str) : Bool := data.map asciiLower = lit.map asciiLower

/-- The end of a line and the name `Connection:` behind it. -/
def isConnectionLine (d : Str) : Bool :=
  d[0]? = some cr && d[1]? = some lf && asciiCiEq ((d.drop 2).take 10) (ascii "connection") &&
    d[12]? = some colon

/-- The loop over `j`: the first such place in the head. -/
def findConnection (d : Str) (hdrEnd : Nat) : Option Nat :=
  (List.range (hdrEnd - 13)).find? (fun j => isConnectionLine (d.drop j))

/-- The loop that moves `val_end`: up to the end of the line, or to the last byte. -/
def valueLen : Str → Nat
  | a :: b :: rest => if a = cr ∧ b = lf then 0 else valueLen (b :: rest) + 1
  | _ => 0

/-- `val_start`, for the line found at `j`. -/
def valueStart (d : Str) (hdrEnd j : Nat) : Nat :=
  j + 13 + (((d.take hdrEnd).drop (j + 13)).takeWhile (· = space)).length

def overwriteValue (d : Str) (valStart valLen : Nat) : Str :=
  d.take valStart ++ ascii "close" ++ List.replicate (valLen - 5) space ++ d.drop (valStart + valLen)

/-- Rewrite the first `Connection` header, if there is one with a value of five bytes or more. -/
def rewriteConnection (d : Str) (hdrEnd : Nat) : Option Str :=
  match findConnection d hdrEnd with
  | none => none
  | some j =>
    let valStart := valueStart d hdrEnd j
    let valLen := valueLen ((d.take hdrEnd).drop valStart)
    if valLen ≥ 5 then some (overwriteValue d valStart valLen) else none

/-- The head with one more header, and `bodyLen` bytes of the body. -/
def insertClose (d : Str) (hdrEnd bodyLen : Nat) : Str :=
  d.take (hdrEnd + 2) ++ kConnClose ++ (d.drop (hdrEnd + 2)).take (2 + bodyLen)

end Rut
