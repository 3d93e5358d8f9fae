import Rut.Conn.Buffer

/-!
# Completion events

What the two I/O backends report to an event loop (`io_event.h`), and how an operation is identified
on its way through the kernel: `encode_user_data` packs the connection, the kind of the operation and
a generation into 64 bits, of which the connection gets 24.
-/

namespace Rut.Io

/-- `kTimerConnId`: an id no connection has, for timers. -/
def kTimerConnId : UInt32 := 0xFFFFFE

/-- `static_cast<i32>` -/
def toI32 (n : UInt32) : Int := if n.toNat < 2 ^ 31 then n.toNat else n.toNat - 2 ^ 32

/-- `IoEventType`, in the order of its codes. -/
inductive EventType where
  | accept | recv | send | upstreamConnect | upstreamRecv | upstreamSend | timeout | handlerTimer
deriving DecidableEq, Repr

namespace EventType

def all : List EventType :=
  [accept, recv, send, upstreamConnect, upstreamRecv, upstreamSend, timeout, handlerTimer]

def code (t : EventType) : UInt64 := UInt64.ofNat (all.idxOf t)

/-- Only the codes of the list are ever written. -/
def ofCode (code : UInt64) : EventType := all.getD code.toNat accept

theorem code_lt (t : EventType) : t.code.toNat < 2 ^ 8 := by cases t <;> decide

theorem ofCode_code (t : EventType) : ofCode t.code = t := by cases t <;> decide

end EventType

/-- `IoEvent`. No event that is reported owns a provided buffer. -/
structure IoEvent where
  connId : UInt32
  type : EventType
  result : Int
  more : Bool := false
  /-- not in the event: the submission it answers, for the statements -/
  ticket : Option Nat := none
deriving DecidableEq, Repr

/-! ## User data -/

/-- `encode_user_data`: the generation, 24 bits of the connection, the kind. -/
def encodeUserData (connId : UInt32) (type : EventType) (aux : UInt32) : UInt64 :=
  (aux.toUInt64 <<< 32) ||| ((connId.toUInt64 &&& 0xFFFFFF) <<< 8) ||| type.code

def decodeUserData (data : UInt64) : UInt32 × EventType × UInt32 :=
  (((data >>> 8) &&& 0xFFFFFF).toUInt32, .ofCode (data &&& 0xFF), (data >>> 32).toUInt32)

theorem toNat_encodeUserData (connId : UInt32) (type : EventType) (aux : UInt32) :
    (encodeUserData connId type aux).toNat =
      aux.toNat * 2 ^ 32 + (connId.toNat % 2 ^ 24) * 2 ^ 8 + type.code.toNat := by
  have htype := type.code_lt
  have hconn : (connId.toUInt64 &&& 0xFFFFFF).toNat = connId.toNat % 2 ^ 24 := by
    rw [UInt64.toNat_and]
    exact Nat.and_two_pow_sub_one_eq_mod connId.toNat 24
  have hconn_lt : connId.toNat % 2 ^ 24 < 2 ^ 24 := Nat.mod_lt _ (by decide)
  have haux := aux.toNat_lt
  have hhigh : aux.toUInt64.toNat <<< ((32 : UInt64).toNat % 64) % 2 ^ 64 = aux.toNat <<< 32 := by
    simp [Nat.shiftLeft_eq]
    omega
  have hmid : (connId.toNat % 2 ^ 24) <<< ((8 : UInt64).toNat % 64) % 2 ^ 64 =
      (connId.toNat % 2 ^ 24) <<< 8 := by
    simp [Nat.shiftLeft_eq]
    omega
  rw [encodeUserData, UInt64.toNat_or, UInt64.toNat_or, UInt64.toNat_shiftLeft,
    UInt64.toNat_shiftLeft, hconn, hhigh, hmid, Nat.or_assoc, ← Nat.shiftLeft_add_eq_or_of_lt htype,
    ← Nat.shiftLeft_add_eq_or_of_lt, Nat.shiftLeft_eq, Nat.shiftLeft_eq]
  · omega
  · rw [Nat.shiftLeft_eq]
    omega

/-- The kind and the generation come back, and the low 24 bits of the connection. -/
theorem decode_encodeUserData (connId : UInt32) (type : EventType) (aux : UInt32) :
    decodeUserData (encodeUserData connId type aux) =
      (UInt32.ofNat (connId.toNat % 2 ^ 24), type, aux) := by
  have hdata := toNat_encodeUserData connId type aux
  have htype := type.code_lt
  have haux := aux.toNat_lt
  have hconn : connId.toNat % 2 ^ 24 < 2 ^ 24 := Nat.mod_lt _ (by decide)
  generalize hd : encodeUserData connId type aux = d at hdata
  have hlow : d &&& 0xFF = type.code := by
    apply UInt64.toNat_inj.mp
    rw [UInt64.toNat_and, hdata]
    refine (Nat.and_two_pow_sub_one_eq_mod _ 8).trans ?_
    omega
  have hshift8 : (d >>> 8).toNat = d.toNat / 2 ^ 8 := by
    rw [UInt64.toNat_shiftRight, Nat.shiftRight_eq_div_pow]
    rfl
  have hshift32 : (d >>> 32).toNat = d.toNat / 2 ^ 32 := by
    rw [UInt64.toNat_shiftRight, Nat.shiftRight_eq_div_pow]
    rfl
  have hmid : ((d >>> 8) &&& 0xFFFFFF).toNat = connId.toNat % 2 ^ 24 := by
    rw [UInt64.toNat_and, hshift8, hdata]
    refine (Nat.and_two_pow_sub_one_eq_mod _ 24).trans ?_
    omega
  rw [decodeUserData, hlow, EventType.ofCode_code]
  refine Prod.ext ?_ (Prod.ext rfl ?_)
  · apply UInt32.toNat_inj.mp
    rw [UInt64.toNat_toUInt32, hmid, UInt32.toNat_ofNat']
  · show (d >>> 32).toUInt32 = aux
    apply UInt32.toNat_inj.mp
    rw [UInt64.toNat_toUInt32, hshift32, hdata]
    omega

/-- A connection id of 24 bits comes back as it was. -/
theorem decode_encodeUserData_of_lt {connId : UInt32} (h : connId.toNat < 2 ^ 24) (type : EventType)
    (aux : UInt32) : decodeUserData (encodeUserData connId type aux) = (connId, type, aux) := by
  rw [decode_encodeUserData, Nat.mod_eq_of_lt h, UInt32.ofNat_toNat]

end Rut.Io
