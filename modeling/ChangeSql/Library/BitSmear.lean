/-
Numbers whose set bits are spread to all lower places.

Doubling the reach with each shift, six shifts are enough for 64 bits. What
comes out is one less than a power of two, which is how the next power of two
and the binary logarithm are found without a loop.
-/

import Mathlib.Data.Nat.Bitwise
import Mathlib.Data.Nat.Log
import Mathlib.Data.Nat.Size

namespace ChangeSql.BitSmear

/-- Bit `k` of the second number is set when one of the `width` bits of the
first from place `k` on is. -/
def Spread (width x y : Nat) : Prop :=
  ∀ k, y.testBit k = true ↔ ∃ j < width, x.testBit (k + j) = true

theorem Spread.refl (x : Nat) : Spread 1 x x := by
  intro k
  constructor
  · intro bit
    exact ⟨0, Nat.one_pos, bit⟩
  · rintro ⟨j, small, bit⟩
    rw [Nat.lt_one_iff.mp small] at bit
    exact bit

theorem Spread.shift {width x y : Nat} (spread : Spread width x y) :
    Spread (width + width) x (y ||| y >>> width) := by
  intro k
  rw [Nat.testBit_or, Nat.testBit_shiftRight, Bool.or_eq_true, spread, spread]
  constructor
  · rintro (⟨j, small, bit⟩ | ⟨j, small, bit⟩)
    · exact ⟨j, Nat.lt_add_right width small, bit⟩
    · refine ⟨width + j, Nat.add_lt_add_left small width, ?_⟩
      rw [← Nat.add_assoc, Nat.add_comm k width]
      exact bit
  · rintro ⟨j, small, bit⟩
    by_cases near : j < width
    · exact Or.inl ⟨j, near, bit⟩
    · refine Or.inr ⟨j - width, by omega, ?_⟩
      rw [show width + k + (j - width) = k + j by omega]
      exact bit

def smear (x : Nat) : Nat :=
  let x := x ||| x >>> 1
  let x := x ||| x >>> 2
  let x := x ||| x >>> 4
  let x := x ||| x >>> 8
  let x := x ||| x >>> 16
  x ||| x >>> 32

theorem spread_smear (x : Nat) : Spread 64 x (smear x) :=
  (Spread.refl x).shift.shift.shift.shift.shift.shift

theorem smear_eq {x : Nat} (small : x < 2 ^ 64) : smear x = 2 ^ x.size - 1 := by
  apply Nat.eq_of_testBit_eq
  intro k
  rw [Nat.testBit_two_pow_sub_one, Bool.eq_iff_iff, decide_eq_true_iff, Nat.lt_size,
    spread_smear x k]
  constructor
  · rintro ⟨j, _, bit⟩
    exact Nat.le_trans (Nat.pow_le_pow_right Nat.two_pos (Nat.le_add_right k j))
      (Nat.ge_two_pow_of_testBit bit)
  · intro large
    rcases Nat.exists_ge_and_testBit_of_ge_two_pow large with ⟨i, late, bit⟩
    have bounded : i < 64 := by
      by_contra beyond
      have tooLarge := Nat.ge_two_pow_of_testBit bit
      have power := Nat.pow_le_pow_right Nat.two_pos (Nat.le_of_not_lt beyond)
      omega
    refine ⟨i - k, by omega, ?_⟩
    rw [Nat.add_sub_cancel' late]
    exact bit

theorem size_eq {x : Nat} (some : x ≠ 0) : x.size = Nat.log 2 x + 1 := by
  have bound (n : Nat) : n < x.size ↔ n ≤ Nat.log 2 x := by
    rw [Nat.lt_size, Nat.le_log_iff_pow_le Nat.one_lt_two some]
  have here := bound (Nat.log 2 x)
  have behind := bound (Nat.log 2 x + 1)
  omega

/-- The highest set bit alone. -/
theorem smear_sub_half {x : Nat} (some : x ≠ 0) (small : x < 2 ^ 64) :
    smear x - smear x >>> 1 = 2 ^ Nat.log 2 x := by
  rw [smear_eq small, size_eq some, Nat.shiftRight_one, Nat.pow_succ]
  have positive := Nat.two_pow_pos (Nat.log 2 x)
  omega

theorem smear_pred_add_one {x : Nat} (some : x ≠ 0) (small : x ≤ 2 ^ 64) :
    smear (x - 1) + 1 = 2 ^ Nat.clog 2 x := by
  have positive := Nat.two_pow_pos (x - 1).size
  rw [smear_eq (by omega), Nat.sub_add_cancel positive]
  congr 1
  have bound (n : Nat) : (x - 1).size ≤ n ↔ Nat.clog 2 x ≤ n := by
    rw [Nat.size_le, Nat.clog_le_iff_le_pow Nat.one_lt_two]
    omega
  have first := bound (x - 1).size
  have second := bound (Nat.clog 2 x)
  omega

end ChangeSql.BitSmear
