import Mathlib

/-!
# Splitting and scanning

A list split at the elements of a kind, as a scanner meets the pieces: one run up to the next such
element, and what is behind it.
-/

namespace Rut.Lib.Splitting

open List

variable {α : Type} {p : α → Bool}

/-- The first piece, and the pieces behind it. -/
theorem splitOnP_eq_takeWhile (xs : List α) :
    xs.splitOnP p = xs.takeWhile (fun x => !p x) ::
      match xs.dropWhile (fun x => !p x) with
      | [] => []
      | _ :: rest => rest.splitOnP p := by
  induction xs with
  | nil => rfl
  | cons x xs ih =>
    rw [splitOnP_cons_eq_if_modifyHead]
    by_cases hx : p x = true
    · rw [if_pos hx, takeWhile_cons_of_neg (by simp [hx]),
        dropWhile_cons_of_neg (by simp [hx])]
    · have hx : p x = false := by simpa using hx
      rw [if_neg (by simp [hx]), ih, takeWhile_cons_of_pos (by simp [hx]),
        dropWhile_cons_of_pos (by simp [hx]), modifyHead_cons]

theorem infix_of_mem_splitOnP {xs piece : List α} (h : piece ∈ xs.splitOnP p) : piece <:+: xs := by
  induction hn : xs.length using Nat.strong_induction_on generalizing xs with
  | _ n ih =>
    rw [splitOnP_eq_takeWhile, mem_cons] at h
    rcases h with rfl | h
    · exact (List.takeWhile_prefix _).isInfix
    · have hsuffix : xs.dropWhile (fun x => !p x) <:+ xs := dropWhile_suffix _
      split at h
      · cases h
      · next rest hrest =>
        rw [hrest] at hsuffix
        have hlt : rest.length < n := hn ▸ hsuffix.length_le
        exact (ih _ hlt h rfl).trans ((suffix_cons _ _).trans hsuffix).isInfix

theorem not_of_dropWhile {xs rest : List α} {x : α} (h : xs.dropWhile p = x :: rest) : p x = false := by
  have hhead := head?_dropWhile_not p xs
  rw [h] at hhead
  simpa using hhead

/-- A pass over a text reads at least one of its elements. -/
theorem length_dropWhile_dropWhile_lt {q : α → Bool} {xs : List α} (hne : xs ≠ [])
    (hpq : ∀ x, q x = false → p x = true) :
    ((xs.dropWhile q).dropWhile p).length < xs.length := by
  have hle : (xs.dropWhile q).length ≤ xs.length := (dropWhile_suffix q).length_le
  cases hd : xs.dropWhile q with
  | nil => simpa using length_pos_iff.mpr hne
  | cons x rest =>
    rw [hd, length_cons] at hle
    rw [dropWhile_cons_of_pos (hpq x (not_of_dropWhile hd))]
    have : (rest.dropWhile p).length ≤ rest.length := (dropWhile_suffix p).length_le
    omega

end Rut.Lib.Splitting
