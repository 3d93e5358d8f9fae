import Rut.Route.Basic

/-!
# Buffers

A buffer (`buffer.h`) over one slice of the slice pool: the bytes written so far, which never exceed
the slice.
-/

namespace Rut

def kSliceSize : Nat := 16384

structure Buffer where
  data : Str := []
  fits : data.length ≤ kSliceSize := by first | exact Nat.zero_le kSliceSize | simp
deriving DecidableEq, Repr

namespace Buffer

def reset (_ : Buffer) : Buffer := {}

def len (b : Buffer) : Nat := b.data.length

def writeAvail (b : Buffer) : Nat := kSliceSize - b.len

/-- `write`: as much of `src` as there is room for. -/
def write (b : Buffer) (src : Str) : Buffer where
  data := b.data ++ src.take b.writeAvail
  fits := by
    have := b.fits
    simp only [List.length_append, List.length_take, writeAvail, len]
    omega

/-- Move the bytes behind the first `n` to the front. -/
def shift (b : Buffer) (n : Nat) : Buffer where
  data := b.data.drop n
  fits := Nat.le_trans (by simp) b.fits

end Buffer

/-! ## Received bytes -/

def kENOBUFS : Nat := 105

/-- What a backend does with received bytes: append them as far as a slice of the given capacity
reaches, and report their number, or `-ENOBUFS` if there were too many. -/
def Buffer.deliver (b : Buffer) (capacity : Nat) (bytes : Str) : Buffer × Int :=
  if b.len + bytes.length ≤ capacity then (b.write bytes, bytes.length)
  else (b.write (bytes.take (capacity - b.len)), -kENOBUFS)

theorem Buffer.deliver_zero (b : Buffer) (capacity : Nat) (bytes : Str)
    (h : (b.deliver capacity bytes).2 = 0) : (b.deliver capacity bytes).1 = b := by
  unfold deliver at h ⊢
  split at h
  · next hroom =>
    have hnil : bytes = [] := List.length_eq_zero_iff.mp (by omega)
    rw [if_pos hroom, hnil]
    simp [write]
  · simp [kENOBUFS] at h

theorem Buffer.deliver_nil_le (b : Buffer) (capacity : Nat) : (b.deliver capacity []).2 ≤ 0 := by
  unfold deliver
  split
  · simp
  · simp [kENOBUFS]

end Rut
