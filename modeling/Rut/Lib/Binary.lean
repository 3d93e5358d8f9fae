import Mathlib

/-!
# Bit strings as numbers

Reading a bit string as a binary number, most significant bit first, turns the lexicographic order
on strings of one length into the order of the numbers. Packed masks that record one decision per
position are compared as numbers for exactly this reason.
-/

namespace Rut.Lib

/-- The number a bit string denotes, most significant bit first. -/
def binVal : List Bool → Nat
  | [] => 0
  | b :: l => b.toNat * 2 ^ l.length + binVal l

theorem binVal_lt (l : List Bool) : binVal l < 2 ^ l.length := by
  induction l with
  | nil => simp [binVal]
  | cons b l ih =>
    have hb : b.toNat ≤ 1 := Bool.toNat_le b
    have hmul : b.toNat * 2 ^ l.length ≤ 1 * 2 ^ l.length := Nat.mul_le_mul_right _ hb
    rw [binVal, List.length_cons, pow_succ]
    omega

theorem binVal_concat (l : List Bool) (b : Bool) : binVal (l ++ [b]) = 2 * binVal l + b.toNat := by
  induction l with
  | nil => simp [binVal]
  | cons a l ih =>
    rw [List.cons_append, binVal, binVal, ih, List.length_append, List.length_singleton, pow_succ]
    ring

/-- Strings of one length are ordered as the numbers they denote. -/
theorem binVal_order : ∀ {l l' : List Bool}, l.length = l'.length →
    (binVal l < binVal l' → l < l') ∧ (binVal l = binVal l' → l = l')
  | [], [], _ => by simp [binVal]
  | b :: l, b' :: l', hlen => by
    rw [List.length_cons, List.length_cons, Nat.add_right_cancel_iff] at hlen
    obtain ⟨hlt, heq⟩ := binVal_order hlen
    have hl := binVal_lt l
    have hl' := binVal_lt l'
    rw [binVal, binVal, hlen] at *
    -- the leading bits decide unless they are equal
    rcases b with _ | _ <;> rcases b' with _ | _ <;>
      simp only [Bool.toNat_false, Bool.toNat_true, zero_mul, one_mul, zero_add] at *
    · exact ⟨fun h => List.cons_lt_cons_iff.mpr (.inr ⟨rfl, hlt h⟩), fun h => by rw [heq h]⟩
    · exact ⟨fun _ => List.cons_lt_cons_iff.mpr (.inl (by decide)), fun h => by omega⟩
    · exact ⟨fun h => by omega, fun h => by omega⟩
    · exact ⟨fun h => List.cons_lt_cons_iff.mpr (.inr ⟨rfl, hlt (by omega)⟩),
        fun h => by rw [heq (by omega)]⟩

/-- A strict lexicographic comparison of strings of one length is settled within them. -/
theorem append_lt_append {α : Type} [LT α] : ∀ {l l' : List α}, l.length = l'.length → l < l' →
    ∀ r r' : List α, l ++ r < l' ++ r'
  | [], [], _, h, _, _ => by cases h
  | a :: l, a' :: l', hlen, h, r, r' => by
    rw [List.cons_lt_cons_iff] at h
    rw [List.cons_append, List.cons_append, List.cons_lt_cons_iff]
    rcases h with h | ⟨rfl, h⟩
    · exact .inl h
    · exact .inr ⟨rfl, append_lt_append (by simpa using hlen) h r r'⟩

end Rut.Lib
