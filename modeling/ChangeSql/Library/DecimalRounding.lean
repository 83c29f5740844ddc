/-
Rounding to a number of significant decimal digits.

The last place that is kept is a power of ten that depends on the magnitude of
the number. Halves go up. What is rounded is a non-negative rational number.
-/

import Mathlib.Algebra.Order.Floor.Ring
import Mathlib.Data.Int.Log
import Mathlib.Data.Rat.Floor
import Mathlib.Tactic.FieldSimp
import Mathlib.Tactic.NormNum
import Mathlib.Tactic.Ring

namespace ChangeSql.DecimalRounding

/-- The integer nearest to `x`, and of two the larger one. -/
def roundHalfUp (x : ℚ) : ℤ :=
  ⌊x + 1 / 2⌋

/-- The place of the last of so many significant digits. -/
def lastPlace (digits : ℕ) (x : ℚ) : ℚ :=
  10 ^ (Int.log 10 x + 1 - digits)

def roundSignificant (digits : ℕ) (x : ℚ) : ℚ :=
  roundHalfUp (x / lastPlace digits x) * lastPlace digits x

/-! ### The nearest integer -/

theorem roundHalfUp_add (n : ℕ) {rest : ℚ} (nonneg : 0 ≤ rest) (small : rest < 1) :
    roundHalfUp (n + rest) = n + if 1 / 2 ≤ rest then 1 else 0 := by
  unfold roundHalfUp
  rw [Int.floor_eq_iff]
  by_cases half : 1 / 2 ≤ rest
  · rw [if_pos half]
    push_cast
    constructor
    · linarith
    · linarith
  · rw [not_le] at half
    rw [if_neg (not_le.mpr half)]
    push_cast
    constructor
    · linarith
    · linarith

theorem roundHalfUp_natCast (n : ℕ) : roundHalfUp n = n := by
  have whole := roundHalfUp_add n (le_refl (0 : ℚ)) (by norm_num)
  norm_num at whole
  exact whole

/-! ### The last place -/

theorem log_eq {x : ℚ} {place : ℤ} (least : 10 ^ place ≤ x) (less : x < 10 ^ (place + 1)) :
    Int.log 10 x = place := by
  have positive : 0 < x := lt_of_lt_of_le (zpow_pos (by norm_num) place) least
  have lower : place ≤ Int.log 10 x := (Int.zpow_le_iff_le_log (by decide) positive).mp least
  have upper : Int.log 10 x < place + 1 := (Int.lt_zpow_iff_log_lt (by decide) positive).mp less
  omega

variable {digits lead : ℕ} {rest : ℚ}

theorem lastPlace_eq (place : ℤ) (least : 10 ^ digits ≤ lead) (less : lead < 10 ^ (digits + 1))
    (nonneg : 0 ≤ rest) (small : rest < 1) :
    lastPlace (digits + 1) ((lead + rest) * 10 ^ place) = 10 ^ place := by
  have unit : (0 : ℚ) < 10 ^ place := zpow_pos (by norm_num) place
  have leadLeast : (10 : ℚ) ^ digits ≤ lead := by exact_mod_cast least
  have leadLess : (lead : ℚ) + 1 ≤ 10 ^ (digits + 1) := by exact_mod_cast less
  have logIs : Int.log 10 ((lead + rest) * 10 ^ place) = digits + place := by
    apply log_eq
    · rw [zpow_add₀ (by norm_num), zpow_natCast]
      exact mul_le_mul_of_nonneg_right (by linarith) unit.le
    · rw [add_right_comm, zpow_add₀ (by norm_num)]
      exact mul_lt_mul_of_pos_right (by exact_mod_cast lt_of_lt_of_le (by linarith) leadLess) unit
  unfold lastPlace
  rw [logIs]
  congr 1
  push_cast
  ring

theorem roundSignificant_eq (place : ℤ) (least : 10 ^ digits ≤ lead)
    (less : lead < 10 ^ (digits + 1)) (nonneg : 0 ≤ rest) (small : rest < 1) :
    roundSignificant (digits + 1) ((lead + rest) * 10 ^ place) =
      (lead + if 1 / 2 ≤ rest then 1 else 0) * 10 ^ place := by
  have unit : (10 : ℚ) ^ place ≠ 0 := zpow_ne_zero place (by norm_num)
  unfold roundSignificant
  rw [lastPlace_eq place least less nonneg small, mul_div_cancel_right₀ _ unit,
    roundHalfUp_add lead nonneg small]
  push_cast
  rfl

theorem roundSignificant_short {n : ℕ} (place : ℤ) (short : n < 10 ^ (digits + 1)) :
    roundSignificant (digits + 1) (n * 10 ^ place) = n * 10 ^ place := by
  rcases Nat.eq_zero_or_pos n with rfl | positive
  · unfold roundSignificant
    rw [Nat.cast_zero, zero_mul, zero_div, ← Nat.cast_zero, roundHalfUp_natCast]
    norm_num
  · -- as many zeros behind the number as it has digits less than that
    have few : Nat.log 10 n ≤ digits := Nat.lt_succ_iff.mp (Nat.log_lt_of_lt_pow (by omega) short)
    obtain ⟨zeros, digitsIs⟩ := Nat.exists_eq_add_of_le few
    have least : 10 ^ digits ≤ n * 10 ^ zeros := by
      rw [digitsIs, Nat.pow_add]
      exact Nat.mul_le_mul_right _ (Nat.pow_log_le_self 10 (by omega))
    have less : n * 10 ^ zeros < 10 ^ (digits + 1) := by
      rw [digitsIs, Nat.add_right_comm, Nat.pow_add]
      exact Nat.mul_lt_mul_of_pos_right (Nat.lt_pow_succ_log_self (by decide) n)
        (Nat.pow_pos (by decide))
    have shifted : (n : ℚ) * 10 ^ place = ((n * 10 ^ zeros : ℕ) + 0) * 10 ^ (place - zeros) := by
      rw [zpow_sub₀ (by norm_num), zpow_natCast, add_zero]
      push_cast
      field_simp
    rw [shifted, roundSignificant_eq (place - zeros) least less le_rfl (by norm_num)]
    norm_num

/-! ### Order and distance -/

theorem roundHalfUp_mono {x y : ℚ} (le : x ≤ y) : roundHalfUp x ≤ roundHalfUp y :=
  Int.floor_le_floor (by linarith)

theorem abs_roundHalfUp_sub_le (x : ℚ) : |roundHalfUp x - x| ≤ 1 / 2 := by
  have lower := Int.floor_le (x + 1 / 2)
  have upper := Int.lt_floor_add_one (x + 1 / 2)
  unfold roundHalfUp
  rw [abs_le]
  constructor
  · linarith
  · linarith

theorem lastPlace_pos (digits : ℕ) (x : ℚ) : 0 < lastPlace digits x :=
  zpow_pos (by norm_num) _

/-- Rounding moves a number by half of its last place at most. -/
theorem abs_roundSignificant_sub_le (digits : ℕ) (x : ℚ) :
    |roundSignificant digits x - x| ≤ lastPlace digits x / 2 := by
  have unit := lastPlace_pos digits x
  have apart : roundSignificant digits x - x =
      (roundHalfUp (x / lastPlace digits x) - x / lastPlace digits x) * lastPlace digits x := by
    unfold roundSignificant
    field_simp
  rw [apart, abs_mul, abs_of_pos unit]
  have near := mul_le_mul_of_nonneg_right (abs_roundHalfUp_sub_le (x / lastPlace digits x)) unit.le
  linarith

theorem pow_mul_lastPlace (digits : ℕ) (x : ℚ) :
    10 ^ digits * lastPlace digits x = 10 ^ (Int.log 10 x + 1) := by
  unfold lastPlace
  rw [← zpow_natCast, ← zpow_add₀ (by norm_num)]
  congr 1
  omega

theorem roundSignificant_le (digits : ℕ) (x : ℚ) :
    roundSignificant digits x ≤ 10 ^ (Int.log 10 x + 1) := by
  have unit := lastPlace_pos digits x
  have less := Int.lt_zpow_succ_log_self (b := 10) (by decide) x
  rw [Nat.cast_ofNat, ← pow_mul_lastPlace digits x, ← div_lt_iff₀ unit] at less
  have rounded := roundHalfUp_mono less.le
  have whole := roundHalfUp_natCast (10 ^ digits)
  push_cast at whole
  rw [whole] at rounded
  rw [← pow_mul_lastPlace digits x]
  apply mul_le_mul_of_nonneg_right _ unit.le
  exact_mod_cast rounded

theorem le_roundSignificant {x : ℚ} (digits : ℕ) (positive : 0 < x) :
    10 ^ Int.log 10 x ≤ roundSignificant (digits + 1) x := by
  have unit := lastPlace_pos (digits + 1) x
  have place : (10 : ℚ) ^ digits * lastPlace (digits + 1) x = 10 ^ Int.log 10 x := by
    unfold lastPlace
    rw [← zpow_natCast, ← zpow_add₀ (by norm_num)]
    congr 1
    push_cast
    ring
  have least := Int.zpow_log_le_self (b := 10) (by decide) positive
  rw [Nat.cast_ofNat, ← place, ← le_div_iff₀ unit] at least
  have rounded := roundHalfUp_mono least
  have whole := roundHalfUp_natCast (10 ^ digits)
  push_cast at whole
  rw [whole] at rounded
  rw [← place]
  apply mul_le_mul_of_nonneg_right _ unit.le
  exact_mod_cast rounded

/-- What is rounded has so many digits, or is the next power of ten. -/
theorem roundSignificant_idem {x : ℚ} (digits : ℕ) (nonneg : 0 ≤ x) :
    roundSignificant (digits + 1) (roundSignificant (digits + 1) x) =
      roundSignificant (digits + 1) x := by
  have unit := lastPlace_pos (digits + 1) x
  have whole : 0 ≤ roundHalfUp (x / lastPlace (digits + 1) x) := by
    have rounded := roundHalfUp_mono (div_nonneg nonneg unit.le)
    have zero := roundHalfUp_natCast 0
    push_cast at zero
    rwa [zero] at rounded
  have bounded : roundHalfUp (x / lastPlace (digits + 1) x) ≤ (10 : ℤ) ^ (digits + 1) := by
    have rounded := roundSignificant_le (digits + 1) x
    rw [← pow_mul_lastPlace (digits + 1) x] at rounded
    exact_mod_cast le_of_mul_le_mul_right rounded unit
  rcases Int.eq_ofNat_of_zero_le whole with ⟨n, count⟩
  have kept : roundSignificant (digits + 1) x = n * 10 ^ (Int.log 10 x + 1 - (digits + 1 : ℕ)) := by
    unfold roundSignificant
    rw [count, Int.cast_natCast]
    rfl
  rw [count] at bounded
  have few : n ≤ 10 ^ (digits + 1) := by exact_mod_cast bounded
  rw [kept]
  rcases few.lt_or_eq with less | power
  · exact roundSignificant_short _ less
  · have single : (n : ℚ) * 10 ^ (Int.log 10 x + 1 - (digits + 1 : ℕ)) =
        (1 : ℕ) * 10 ^ (Int.log 10 x + 1) := by
      rw [← pow_mul_lastPlace (digits + 1) x, power]
      unfold lastPlace
      push_cast
      ring
    rw [single]
    exact roundSignificant_short _ (Nat.one_lt_pow (Nat.succ_ne_zero digits) (by decide))

/-- Rounding keeps the order, also of numbers that are cut at different places. -/
theorem roundSignificant_mono {x y : ℚ} (digits : ℕ) (nonneg : 0 ≤ x) (le : x ≤ y) :
    roundSignificant (digits + 1) x ≤ roundSignificant (digits + 1) y := by
  rcases nonneg.eq_or_lt with rfl | positive
  · rcases le.eq_or_lt with rfl | positive
    · exact le_rfl
    · have zero : roundSignificant (digits + 1) ((0 : ℕ) * 10 ^ (0 : ℤ)) = (0 : ℕ) * 10 ^ (0 : ℤ) :=
        roundSignificant_short 0 (by positivity)
      rw [Nat.cast_zero, zero_mul] at zero
      rw [zero]
      exact (zpow_nonneg (by norm_num) _).trans (le_roundSignificant digits positive)
  · have larger := positive.trans_le le
    rcases (Int.log_mono_right positive le : Int.log 10 x ≤ Int.log 10 y).eq_or_lt with
      same | less
    · have place : lastPlace (digits + 1) x = lastPlace (digits + 1) y := by
        unfold lastPlace
        rw [same]
      have unit := lastPlace_pos (digits + 1) y
      unfold roundSignificant
      rw [place]
      apply mul_le_mul_of_nonneg_right _ unit.le
      exact_mod_cast roundHalfUp_mono (div_le_div_of_nonneg_right le unit.le)
    · calc roundSignificant (digits + 1) x
          ≤ 10 ^ (Int.log 10 x + 1) := roundSignificant_le _ x
        _ ≤ 10 ^ Int.log 10 y := zpow_le_zpow_right₀ (by norm_num) less
        _ ≤ roundSignificant (digits + 1) y := le_roundSignificant digits larger

end ChangeSql.DecimalRounding
