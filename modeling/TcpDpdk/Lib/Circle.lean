import Mathlib.Data.BitVec
import Mathlib.Tactic.Ring

/-!
# Points on a circle of `2 ^ w` numbers

Sequence numbers of a fixed width have no order of their own, only a distance
from one to the next. `fwd a x` is that distance going forward from `a` to `x`;
`wlt a x` is the strict comparison of RFC 1323, which calls `a` smaller when `x`
lies less than half the circle ahead of it. `between_iff` turns a pair of such
comparisons with widened ends into membership of the closed arc from `a` to `b`.
-/

namespace Circle

variable {w : Nat}

def fwd (a x : BitVec w) : Nat := (x - a).toNat

def wlt (a x : BitVec w) : Prop := 2 ^ (w - 1) < (a - x).toNat

theorem fwd_lt (a x : BitVec w) : fwd a x < 2 ^ w := (x - a).isLt

@[simp] theorem fwd_self (a : BitVec w) : fwd a a = 0 := by simp [fwd]

theorem fwd_eq_zero {a x : BitVec w} : fwd a x = 0 ↔ x = a := by
  constructor
  · intro h
    have h0 : x - a = 0 := BitVec.eq_of_toNat_eq (by simpa [fwd] using h)
    exact sub_eq_zero.mp h0
  · rintro rfl; exact fwd_self x

theorem fwd_inj {a x y : BitVec w} (h : fwd a x = fwd a y) : x = y :=
  sub_left_injective (BitVec.eq_of_toNat_eq h : x - a = y - a)

theorem fwd_add (a : BitVec w) {n : Nat} (hn : n < 2 ^ w) : fwd a (a + BitVec.ofNat w n) = n := by
  unfold fwd
  rw [add_sub_cancel_left, BitVec.toNat_ofNat, Nat.mod_eq_of_lt hn]

theorem fwd_trans (a x y : BitVec w) : fwd a y = (fwd a x + fwd x y) % 2 ^ w := by
  have e : y - a = (x - a) + (y - x) := by ring
  unfold fwd
  rw [e, BitVec.toNat_add]

theorem fwd_trans_cases (a x y : BitVec w) :
    fwd a x + fwd x y = fwd a y ∨ fwd a x + fwd x y = fwd a y + 2 ^ w := by
  have h1 := fwd_lt a x
  have h2 := fwd_lt x y
  rw [fwd_trans a x y]
  rcases Nat.lt_or_ge (fwd a x + fwd x y) (2 ^ w) with h | h
  · exact Or.inl (Nat.mod_eq_of_lt h).symm
  · apply Or.inr
    rw [Nat.mod_eq_sub_mod h, Nat.mod_eq_of_lt (by omega)]
    omega

theorem fwd_one (hw : 0 < w) (x : BitVec w) : fwd x (x + 1#w) = 1 :=
  fwd_add x (Nat.one_lt_two_pow (Nat.ne_of_gt hw))

theorem wlt_irrefl (a : BitVec w) : ¬wlt a a := by
  unfold wlt
  rw [sub_self]
  exact Nat.not_lt_zero _

theorem wlt_add_right (a x k : BitVec w) : wlt (a + k) (x + k) ↔ wlt a x := by
  unfold wlt
  rw [add_sub_add_right_eq_sub]

section
variable (hw : 0 < w)
include hw

theorem half_add_half : 2 ^ (w - 1) + 2 ^ (w - 1) = 2 ^ w := by
  obtain ⟨v, rfl⟩ := Nat.exists_eq_succ_of_ne_zero (Nat.ne_of_gt hw)
  rw [Nat.succ_sub_one, Nat.pow_succ]; omega

theorem wlt_iff (a x : BitVec w) : wlt a x ↔ 0 < fwd a x ∧ fwd a x < 2 ^ (w - 1) := by
  have hM := half_add_half hw
  have hd : (a - x).toNat = (2 ^ w - fwd a x) % 2 ^ w := by
    have e : a - x = -(x - a) := by ring
    rw [e, BitVec.toNat_neg]; rfl
  have hlt := fwd_lt a x
  unfold wlt
  rw [hd]
  rcases Nat.eq_zero_or_pos (fwd a x) with h0 | h0
  · rw [h0]; simp
  · rw [Nat.mod_eq_of_lt (by omega)]; omega

theorem wlt_asymm {a x : BitVec w} (h : wlt a x) : ¬wlt x a := by
  have hM := half_add_half hw
  have c := fwd_trans_cases a x a
  rw [fwd_self] at c
  rw [wlt_iff hw] at h ⊢
  omega

/-- On an arc short of half the circle the comparison is the order along the arc. -/
theorem wlt_arc {s a b : BitVec w} {n : Nat} (hn : n < 2 ^ (w - 1)) (ha : fwd s a ≤ n)
    (hb : fwd s b ≤ n) : wlt a b ↔ fwd s a < fwd s b := by
  have hM := half_add_half hw
  have c := fwd_trans_cases s a b
  have hlt := fwd_lt a b
  rw [wlt_iff hw]
  omega

theorem wlt_trans {s a b c : BitVec w} {n : Nat} (hn : n < 2 ^ (w - 1)) (ha : fwd s a ≤ n)
    (hb : fwd s b ≤ n) (hc : fwd s c ≤ n) (hab : wlt a b) (hbc : wlt b c) : wlt a c := by
  rw [wlt_arc hw hn ha hb] at hab
  rw [wlt_arc hw hn hb hc] at hbc
  exact (wlt_arc hw hn ha hc).mpr (hab.trans hbc)

/-- Both strict comparisons, against the points just outside the arc from `a`
to `b`, say that `x` lies on the arc, when the arc is short of half the circle
by more than one. -/
theorem between_iff {a b x : BitVec w} (h : fwd a b + 1 < 2 ^ (w - 1)) :
    wlt (a - 1#w) x ∧ wlt x (b + 1#w) ↔ fwd a x ≤ fwd a b := by
  have hM := half_add_half hw
  have ha : fwd (a - 1#w) a = 1 := by
    have := fwd_one hw (a - 1#w)
    rwa [sub_add_cancel] at this
  have hb := fwd_one hw b
  have hx := fwd_lt a x
  -- each distance below is one of two values, according to where the turn is completed
  have c1 := fwd_trans_cases (a - 1#w) a x
  have c2 := fwd_trans_cases a x (b + 1#w)
  have c3 := fwd_trans_cases a b (b + 1#w)
  have l1 := fwd_lt (a - 1#w) x
  have l2 := fwd_lt x (b + 1#w)
  have l3 := fwd_lt a (b + 1#w)
  rw [wlt_iff hw, wlt_iff hw]
  omega

/-- The far end itself passes when the arc is short of half the circle by more than one. -/
theorem between_end {a b : BitVec w} (hw1 : 1 < w) :
    wlt (a - 1#w) b ∧ wlt b (b + 1#w) ↔ fwd a b + 1 < 2 ^ (w - 1) := by
  have hM := half_add_half hw
  have ha : fwd (a - 1#w) a = 1 := by
    have := fwd_one hw (a - 1#w)
    rwa [sub_add_cancel] at this
  have hb := fwd_one hw b
  have h2 : 2 ≤ 2 ^ (w - 1) := by
    have := Nat.pow_le_pow_right (n := 2) (by decide) (show 1 ≤ w - 1 by omega)
    omega
  have hlt := fwd_lt a b
  have c := fwd_trans_cases (a - 1#w) a b
  have l := fwd_lt (a - 1#w) b
  rw [wlt_iff hw, wlt_iff hw]
  omega

end

end Circle
