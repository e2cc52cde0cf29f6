import Mathlib.Data.Nat.Digits.Lemmas

/-!
# Numerals

The digits of a number with the most significant one first, as they are written and
read, zero being written as one digit.
-/

namespace Numeral

variable (b : Nat)

def value (l : List Nat) : Nat := l.foldl (fun v d => b * v + d) 0

def digits (n : Nat) : List Nat :=
  if n = 0 then [0] else (Nat.digits b n).reverse

theorem value_eq_ofDigits (l : List Nat) : value b l = Nat.ofDigits b l.reverse := by
  rw [Nat.ofDigits_eq_foldr, List.foldr_reverse]
  unfold value
  congr 1
  funext v d
  exact Nat.add_comm _ _

theorem value_digits (n : Nat) : value b (digits b n) = n := by
  unfold digits
  by_cases h : n = 0
  · rw [if_pos h, h]
    rfl
  · rw [if_neg h, value_eq_ofDigits, List.reverse_reverse]
    exact Nat.ofDigits_digits b n

theorem digits_ne_nil (n : Nat) : digits b n ≠ [] := by
  unfold digits
  by_cases h : n = 0
  · rw [if_pos h]
    exact List.cons_ne_nil _ _
  · rw [if_neg h, Ne, List.reverse_eq_nil_iff]
    exact Nat.digits_ne_nil_iff_ne_zero.mpr h

variable {b} in
theorem lt_of_mem_digits (hb : 1 < b) {n d : Nat} (h : d ∈ digits b n) : d < b := by
  unfold digits at h
  by_cases h0 : n = 0
  · rw [if_pos h0, List.mem_singleton] at h
    omega
  · rw [if_neg h0, List.mem_reverse] at h
    exact Nat.digits_lt_base hb h

end Numeral
