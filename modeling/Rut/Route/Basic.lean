import Mathlib

/-!
# Bytes, methods and canonical paths

What every dispatcher of the runtime shares: byte strings, the compact method
keys and their slots (`route_method.h`), and the path canonicalisation applied
both to a registered route and to a request target (`route_canon.h`).
-/

namespace Rut

/-- A `Str` view: the bytes it covers. A null view is the empty list. -/
abbrev Str := List UInt8

def ascii (s : String) : Str := s.toList.map (fun c => UInt8.ofNat c.toNat)

/-- `'/'` -/
def slash : UInt8 := 0x2f

/-- `':'` -/
def colon : UInt8 := 0x3a

/-- `'?'` -/
def question : UInt8 := 0x3f

/-- `'#'` -/
def hash : UInt8 := 0x23

/-! ## Method keys -/

/-- The method recognised by the HTTP parser. -/
inductive HttpMethod where
  | GET | POST | PUT | DELETE | PATCH | HEAD | OPTIONS | CONNECT | TRACE | Unknown
deriving DecidableEq, Repr

/-- The method kept in the connection for the access log and for dispatch. -/
inductive LogHttpMethod where
  | Get | Post | Put | Delete | Patch | Head | Options | Connect | Trace | Other
deriving DecidableEq, Repr

/-- Key of "any method"; it is also the slot every specific method falls back to. -/
def kRouteMethodAny : UInt8 := 0

def kRouteMethodInvalid : UInt8 := 0xff

abbrev kMethodSlots : Nat := 10

instance instNeZeroMethodSlots : NeZero kMethodSlots := ⟨by decide⟩

theorem kMethodSlots_pos : 0 < kMethodSlots := by decide

/-- A valid slot of a terminal's per-method table. -/
abbrev MethodSlot := Fin kMethodSlots

/-- `route_method_key(HttpMethod)` -/
def HttpMethod.routeMethodKey : HttpMethod → UInt8
  | .GET => 1
  | .POST => 2
  | .PUT => 3
  | .DELETE => 4
  | .PATCH => 5
  | .HEAD => 6
  | .OPTIONS => 7
  | .CONNECT => 8
  | .TRACE => 9
  | .Unknown => kRouteMethodInvalid

/-- `route_method_key(LogHttpMethod)`: an unrecognised method dispatches as "any". -/
def LogHttpMethod.routeMethodKey : LogHttpMethod → UInt8
  | .Get => 1
  | .Post => 2
  | .Put => 3
  | .Delete => 4
  | .Patch => 5
  | .Head => 6
  | .Options => 7
  | .Connect => 8
  | .Trace => 9
  | .Other => kRouteMethodAny

/-- Routes registered with the first letter of a method keep working: the letter
is translated, any other byte is taken for a key already. -/
def routeMethodKeyFromLegacyChar (method : UInt8) : UInt8 :=
  if method = 0 then kRouteMethodAny
  else if method = 'G'.toUInt8 then 1
  else if method = 'P'.toUInt8 then 2
  else if method = 'D'.toUInt8 then 4
  else if method = 'H'.toUInt8 then 6
  else if method = 'O'.toUInt8 then 7
  else if method = 'C'.toUInt8 then 8
  else if method = 'T'.toUInt8 then 9
  else method

/-- `none` is `kRouteMethodSlotInvalid`. -/
def routeMethodSlotFromKey (key : UInt8) : Option MethodSlot :=
  if h : key.toNat < kMethodSlots then some ⟨key.toNat, h⟩ else none

def routeMethodSlot (keyOrLegacyChar : UInt8) : Option MethodSlot :=
  routeMethodSlotFromKey (routeMethodKeyFromLegacyChar keyOrLegacyChar)

/-! ## Route indices -/

/-- `TrieNode::kInvalidRoute`, the index that stands for "no route". -/
def kInvalidRoute : UInt16 := 0xffff

/-! ## Canonical paths -/

/-- `finalize_path_canonical`: strip the leading and the trailing run of `'/'`. -/
def finalizePathCanonical (path : Str) : Str :=
  (path.dropWhile (· = slash)).rdropWhile (· = slash)

/-- `canonicalize_request`: cut a request target at its query or fragment, then
strip the slash runs. -/
def canonicalizeRequest (path : Str) : Str :=
  finalizePathCanonical (path.takeWhile (fun b => b ≠ question && b ≠ hash))

example : canonicalizeRequest (ascii "//api/v1//users/?id=1") = ascii "api/v1//users" := by
  decide

end Rut
