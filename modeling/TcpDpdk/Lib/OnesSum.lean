import Mathlib.Data.List.Basic

/-!
# One's complement sums

The checksum arithmetic of RFC 1071: bytes are paired into 16-bit words, a last
odd byte is padded with zero, and words are added with an end-around carry. Modulo
`65535` this is ordinary addition, so the sum of a list of bytes does not depend
on where in it an even-sized part stands, and a word that makes the sum a multiple
of `65535` makes it verify.
-/

namespace OnesSum

def addc (a b : Nat) : Nat := if a + b < 65536 then a + b else a + b - 65535

def sum : List (BitVec 8) → Nat
  | [] => 0
  | [a] => a.toNat
  | a :: b :: l => addc (a.toNat + 256 * b.toNat) (sum l)

def Verifies (l : List (BitVec 8)) : Prop := sum l = 65535

instance (l : List (BitVec 8)) : Decidable (Verifies l) := inferInstanceAs (Decidable (_ = _))

theorem addc_mod (a b : Nat) : addc a b % 65535 = (a + b) % 65535 := by
  unfold addc; split <;> omega

theorem addc_eq_zero {a b : Nat} : addc a b = 0 ↔ a = 0 ∧ b = 0 := by
  unfold addc; split <;> omega

theorem sum_le : ∀ l : List (BitVec 8), sum l ≤ 65535
  | [] => by simp [sum]
  | [a] => by have := a.isLt; simp only [sum]; omega
  | a :: b :: l => by
    have ha := a.isLt
    have hb := b.isLt
    have := sum_le l
    simp only [sum, addc]; split <;> omega

theorem sum_eq_zero : ∀ {l : List (BitVec 8)}, sum l = 0 → ∀ x ∈ l, x = 0
  | [], _, _, hx => nomatch hx
  | [a], h, x, hx => by
    rw [List.mem_singleton] at hx
    subst hx
    exact BitVec.eq_of_toNat_eq h
  | a :: b :: l, h, x, hx => by
    have h := addc_eq_zero.mp h
    have ha : a.toNat = 0 := by omega
    have hb : b.toNat = 0 := by omega
    rcases List.mem_cons.mp hx with rfl | hx
    · exact BitVec.eq_of_toNat_eq ha
    · rcases List.mem_cons.mp hx with rfl | hx
      · exact BitVec.eq_of_toNat_eq hb
      · exact sum_eq_zero h.2 x hx

theorem sum_append : ∀ l₁ l₂ : List (BitVec 8), l₁.length % 2 = 0 →
    sum (l₁ ++ l₂) % 65535 = (sum l₁ + sum l₂) % 65535
  | [], _, _ => by simp [sum]
  | [_], _, h => by simp at h
  | a :: b :: l₁, l₂, h => by
    have ih := sum_append l₁ l₂ (by simp only [List.length_cons] at h; omega)
    simp only [List.cons_append, sum]
    have e₁ := addc_mod (a.toNat + 256 * b.toNat) (sum (l₁ ++ l₂))
    have e₂ := addc_mod (a.toNat + 256 * b.toNat) (sum l₁)
    omega

/-- A sum that is a multiple of `65535` verifies, unless every byte is zero. -/
theorem verifies_iff {l : List (BitVec 8)} (h0 : ∃ x ∈ l, x ≠ 0) :
    Verifies l ↔ sum l % 65535 = 0 := by
  have hle := sum_le l
  have hne : sum l ≠ 0 := fun h => by
    obtain ⟨x, hx, hx0⟩ := h0
    exact hx0 (sum_eq_zero h x hx)
  unfold Verifies
  omega

theorem sum_exchange {l₁ m m' : List (BitVec 8)} (l₂ : List (BitVec 8)) (h₁ : l₁.length % 2 = 0)
    (hm : m.length % 2 = 0) (hm' : m'.length % 2 = 0) :
    (sum (l₁ ++ m ++ l₂) + sum m') % 65535 = (sum (l₁ ++ m' ++ l₂) + sum m) % 65535 := by
  have e₁ := sum_append (l₁ ++ m) l₂ (by rw [List.length_append]; omega)
  have e₂ := sum_append (l₁ ++ m') l₂ (by rw [List.length_append]; omega)
  have e₃ := sum_append l₁ m h₁
  have e₄ := sum_append l₁ m' h₁
  omega

theorem sum_fill {l₁ m : List (BitVec 8)} (l₂ : List (BitVec 8)) (h₁ : l₁.length % 2 = 0)
    (hm : m.length % 2 = 0) : sum (l₁ ++ m ++ l₂) % 65535 = (sum (l₁ ++ [0, 0] ++ l₂) + sum m) % 65535 := by
  have h := sum_exchange l₂ h₁ hm (show [0#8, 0#8].length % 2 = 0 from rfl)
  simpa [sum, addc] using h

end OnesSum
