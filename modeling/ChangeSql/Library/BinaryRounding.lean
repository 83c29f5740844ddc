/-
Rounding to a binary floating-point format.

Magnitudes are counted in units of the smallest positive one, so a format with
no upper end is a precision: the representable numbers are those with no more
significant bits than that. What is rounded is a fraction of two natural
numbers, and all distances are compared without dividing.
-/

import Mathlib.Algebra.Group.Nat.Defs

namespace ChangeSql.BinaryRounding

/-- The integer nearest to `num / den`, and of two the even one. -/
def roundEven (num den : Nat) : Nat :=
  if 2 * (num % den) < den then num / den
  else if den < 2 * (num % den) then num / den + 1
  else if num / den % 2 = 0 then num / den
  else num / den + 1

/-- The distance between representable numbers with as many bits as `n`. -/
def spacing (precision n : Nat) : Nat :=
  2 ^ (n.log2 + 1 - precision)

/-- All bits of `n` behind the first ones are zero. -/
def Representable (precision n : Nat) : Prop :=
  spacing precision n ∣ n

instance (precision n : Nat) : Decidable (Representable precision n) :=
  inferInstanceAs (Decidable (spacing precision n ∣ n))

/-- The representable number nearest to `num / den`, and of two the one with
an even last bit. -/
def round (precision num den : Nat) : Nat :=
  roundEven num (den * spacing precision (num / den)) * spacing precision (num / den)

def away (num den a : Nat) : Nat :=
  (num - a * den) + (a * den - num)

variable {precision num den x : Nat}

/-! ### The nearest integer -/

theorem roundEven_nearest (positive : 0 < den) (num other : Nat) :
    away num den (roundEven num den) ≤ away num den other := by
  have split := Nat.div_add_mod num den
  have small := Nat.mod_lt num positive
  have next : (num / den + 1) * den = num / den * den + den := Nat.succ_mul _ _
  rw [Nat.mul_comm] at split
  have sides : other * den ≤ num / den * den ∨ num / den * den + den ≤ other * den := by
    rcases Nat.lt_or_ge (num / den) other with above | below
    · right
      rw [← next]
      exact Nat.mul_le_mul_right den above
    · left
      exact Nat.mul_le_mul_right den below
  unfold away roundEven
  split
  · omega
  · split
    · omega
    · split
      · omega
      · omega

theorem roundEven_le (num den : Nat) : roundEven num den ≤ num / den + 1 := by
  unfold roundEven
  split
  · omega
  · split
    · omega
    · split
      · omega
      · omega

theorem roundEven_add_mul (positive : 0 < den) (num n : Nat) (even : n % 2 = 0) :
    roundEven (num + n * den) den = roundEven num den + n := by
  have parity : (num / den + n) % 2 = num / den % 2 := by omega
  unfold roundEven
  rw [Nat.add_mul_mod_self_right, Nat.add_mul_div_right num n positive, parity]
  split
  · rfl
  · split
    · omega
    · split
      · rfl
      · omega

theorem roundEven_lt {bound : Nat} (positive : 0 < den)
    (below : 2 * num < (2 * bound - 1) * den) : roundEven num den < bound := by
  have split := Nat.div_add_mod num den
  have small := Nat.mod_lt num positive
  rw [Nat.mul_comm] at split
  have some : 0 < bound := by
    rcases Nat.eq_zero_or_pos bound with rfl | some
    · omega
    · exact some
  have twice : (2 * bound - 1) * den + den = 2 * (bound * den) := by
    rw [← Nat.succ_mul, ← Nat.mul_assoc]
    congr 1
    omega
  rcases Nat.lt_or_ge (num / den + 1) bound with far | near
  · exact Nat.lt_of_le_of_lt (roundEven_le num den) far
  · have under : bound * den ≤ (num / den + 1) * den := Nat.mul_le_mul_right den near
    rw [Nat.succ_mul] at under
    have inside : num / den * den < bound * den := by omega
    have floor : num / den < bound := Nat.lt_of_mul_lt_mul_right inside
    have last : bound = num / den + 1 := by omega
    have top : bound * den = num / den * den + den := by
      rw [last, Nat.succ_mul]
    unfold roundEven
    rw [if_pos (by omega)]
    exact floor

/-- Rounding to a fine unit and cutting off behind a coarse one is the same as
cutting off at once, when the fraction is far enough from the next integer. -/
theorem roundEven_mul_div {coarse : Nat} (positive : 0 < den) (even : 2 ∣ coarse)
    (room : den < 2 * coarse * (den - num % den)) :
    roundEven (num * coarse) den / coarse = num / den := by
  have small := Nat.mod_lt num positive
  have some : 0 < coarse := by
    rcases Nat.eq_zero_or_pos coarse with rfl | some
    · omega
    · exact some
  have split : num * coarse = num % den * coarse + num / den * coarse * den := by
    have parts := Nat.mod_add_div num den
    calc num * coarse
        = (num % den + den * (num / den)) * coarse := by rw [parts]
      _ = num % den * coarse + num / den * coarse * den := by
          rw [Nat.add_mul, Nat.mul_comm den, Nat.mul_right_comm]
  have inside : 2 * (num % den * coarse) < (2 * coarse - 1) * den := by
    rw [Nat.sub_one_mul]
    rw [Nat.mul_sub] at room
    have same : 2 * (num % den * coarse) = 2 * coarse * (num % den) := by
      rw [Nat.mul_comm (num % den), Nat.mul_assoc]
    omega
  have carried : num / den * coarse % 2 = 0 :=
    Nat.mod_eq_zero_of_dvd (Nat.dvd_mul_left_of_dvd even (num / den))
  rw [split, roundEven_add_mul positive _ _ carried, Nat.add_mul_div_right _ _ some,
    Nat.div_eq_of_lt (roundEven_lt positive inside), Nat.zero_add]

/-! ### Spacings -/

theorem log2_mono {n m : Nat} (le : n ≤ m) : n.log2 ≤ m.log2 := by
  rcases Nat.eq_zero_or_pos n with rfl | positive
  · rw [Nat.log2_zero]
    exact Nat.zero_le _
  · rw [Nat.le_log2 (by omega)]
    exact Nat.le_trans (Nat.log2_self_le (by omega)) le

theorem spacing_pos (precision n : Nat) : 0 < spacing precision n :=
  Nat.two_pow_pos _

theorem spacing_dvd {n m : Nat} (le : n.log2 ≤ m.log2) :
    spacing precision n ∣ spacing precision m :=
  Nat.pow_dvd_pow 2 (by omega)

theorem Representable.dvd {n m : Nat} (representable : Representable precision m)
    (le : n.log2 ≤ m.log2) : spacing precision n ∣ m :=
  Nat.dvd_trans (spacing_dvd le) representable

theorem spacing_dvd_two_pow {n k : Nat} (some : 0 < precision) (le : n.log2 ≤ k) :
    spacing precision n ∣ 2 ^ k :=
  Nat.pow_dvd_pow 2 (by omega)

theorem representable_of_dvd {n m : Nat} (some : 0 < precision) (divides : spacing precision n ∣ m)
    (le : m ≤ 2 ^ (n.log2 + 1)) : Representable precision m := by
  rcases Nat.eq_or_lt_of_le le with rfl | inside
  · exact spacing_dvd_two_pow some (Nat.le_of_eq Nat.log2_two_pow)
  · rcases Nat.eq_zero_or_pos m with rfl | positive
    · exact Nat.dvd_zero _
    · have fewer : m.log2 < n.log2 + 1 := (Nat.log2_lt (Nat.ne_of_gt positive)).mpr inside
      exact Nat.dvd_trans (spacing_dvd (by omega)) divides

theorem Representable.dvd_or_lt {a : Nat} (representable : Representable precision a) (n : Nat) :
    spacing precision n ∣ a ∨ a < 2 ^ n.log2 := by
  rcases Nat.lt_or_ge a (2 ^ n.log2) with below | above
  · exact Or.inr below
  · left
    apply representable.dvd
    rw [Nat.le_log2]
    · exact above
    · intro zero
      have two := Nat.two_pow_pos n.log2
      omega

theorem spacing_zero (some : 0 < precision) : spacing precision 0 = 1 := by
  unfold spacing
  rw [Nat.log2_zero, show 0 + 1 - precision = 0 by omega, Nat.pow_zero]

/-! ### The nearest representable number -/

theorem mul_add_le_of_dvd {step a b : Nat} (first : step ∣ a) (second : step ∣ b) (lt : a < b) :
    a + step ≤ b := by
  obtain ⟨k, rfl⟩ := first
  obtain ⟨l, rfl⟩ := second
  have less : k < l := Nat.lt_of_mul_lt_mul_left lt
  rw [← Nat.mul_succ]
  exact Nat.mul_le_mul_left step less

theorem round_representable (some : 0 < precision) (num den : Nat) :
    Representable precision (round precision num den) := by
  have step := spacing_pos precision (num / den)
  apply representable_of_dvd some (Nat.dvd_mul_left _ _)
  have atMost := roundEven_le num (den * spacing precision (num / den))
  rw [← Nat.div_div_eq_div_mul] at atMost
  have floor : num / den < 2 ^ ((num / den).log2 + 1) := Nat.lt_log2_self
  have lower := Nat.div_mul_le_self (num / den) (spacing precision (num / den))
  have room := mul_add_le_of_dvd
    (Nat.dvd_mul_left (spacing precision (num / den)) (num / den / spacing precision (num / den)))
    (spacing_dvd_two_pow some (Nat.le_succ (num / den).log2)) (Nat.lt_of_le_of_lt lower floor)
  calc round precision num den
      ≤ (num / den / spacing precision (num / den) + 1) * spacing precision (num / den) :=
        Nat.mul_le_mul_right _ atMost
    _ = num / den / spacing precision (num / den) * spacing precision (num / den) +
          spacing precision (num / den) := Nat.succ_mul _ _
    _ ≤ 2 ^ ((num / den).log2 + 1) := room

theorem round_zero (precision den : Nat) : round precision 0 den = 0 := by
  unfold round roundEven
  rw [Nat.zero_mod, Nat.zero_div, Nat.zero_div]
  split
  · exact Nat.zero_mul _
  · split
    · omega
    · exact Nat.zero_mul _

theorem away_mul (num den step a : Nat) : away num (den * step) a = away num den (a * step) := by
  unfold away
  rw [Nat.mul_comm den step, Nat.mul_assoc]

/-- No representable number is nearer. -/
theorem round_nearest (some : 0 < precision) (positive : 0 < den) {a : Nat}
    (representable : Representable precision a) :
    away num den (round precision num den) ≤ away num den a := by
  have scaled : 0 < den * spacing precision (num / den) :=
    Nat.mul_pos positive (spacing_pos precision (num / den))
  have multiple {b : Nat} (divides : spacing precision (num / den) ∣ b) :
      away num den (round precision num den) ≤ away num den b := by
    obtain ⟨k, rfl⟩ := divides
    have nearest := roundEven_nearest scaled num k
    rw [away_mul, away_mul] at nearest
    rw [Nat.mul_comm (spacing precision (num / den)) k]
    exact nearest
  rcases Nat.eq_zero_or_pos (num / den) with zero | floor
  · apply multiple
    rw [zero, spacing_zero some]
    exact Nat.one_dvd a
  · rcases representable.dvd_or_lt (num / den) with divides | below
    · exact multiple divides
    · -- the start of the binade lies between the two
      have start := multiple (spacing_dvd_two_pow some (Nat.le_refl _))
      have inside : 2 ^ (num / den).log2 * den ≤ num := by
        rw [← Nat.le_div_iff_mul_le positive]
        exact Nat.log2_self_le (by omega)
      have further : a * den ≤ 2 ^ (num / den).log2 * den :=
        Nat.mul_le_mul_right den (Nat.le_of_lt below)
      unfold away at start ⊢
      omega

/-! ### Rounding back up -/

theorem two_pow_dvd_mod {i k n : Nat} (divides : 2 ^ i ∣ n) : 2 ^ i ∣ n % 2 ^ k := by
  rcases Nat.le_total i k with le | ge
  · exact (Nat.dvd_mod_iff (Nat.pow_dvd_pow 2 le)).mpr divides
  · rw [Nat.mod_eq_zero_of_dvd (Nat.dvd_trans (Nat.pow_dvd_pow 2 ge) divides)]
    exact Nat.dvd_zero _

/-- The representable numbers below `x` end at this distance from it. -/
def gapBelow (precision x : Nat) : Nat :=
  spacing precision (x - 1)

theorem Representable.gapBelow_dvd (representable : Representable precision x) :
    gapBelow precision x ∣ x :=
  representable.dvd (log2_mono (Nat.sub_le x 1))

theorem Representable.add_gapBelow_le (some : 0 < precision) {a : Nat}
    (first : Representable precision a) (second : Representable precision x) (lt : a < x) :
    a + gapBelow precision x ≤ x := by
  have divides := second.gapBelow_dvd
  rcases Nat.eq_zero_or_pos (x - 1) with zero | positive
  · unfold gapBelow at divides ⊢
    rw [zero, spacing_zero some]
    exact lt
  · rcases first.dvd_or_lt (x - 1) with also | below
    · exact mul_add_le_of_dvd also divides lt
    · have start : 2 ^ (x - 1).log2 ≤ x - 1 := Nat.log2_self_le (by omega)
      have room := mul_add_le_of_dvd (spacing_dvd_two_pow some (Nat.le_refl (x - 1).log2)) divides
        (by omega)
      change _ + gapBelow precision x ≤ x at room
      omega

theorem Representable.sub_gapBelow (some : 0 < precision) (positive : 0 < x)
    (representable : Representable precision x) :
    Representable precision (x - gapBelow precision x) := by
  have divides := representable.gapBelow_dvd
  apply representable_of_dvd some (Nat.dvd_sub divides (Nat.dvd_refl _))
  have bounded : x - 1 < 2 ^ ((x - 1).log2 + 1) := Nat.lt_log2_self
  have step := spacing_pos precision (x - 1)
  change x - spacing precision (x - 1) ≤ _
  omega

/-- A fraction that is not above the representable number `x` is rounded to it
exactly when it is in the upper half of the gap below `x`. -/
theorem round_eq_iff (some : 0 < precision) (positive : 0 < den) (filled : 0 < x)
    (representable : Representable precision x) (below : num ≤ x * den)
    (noTie : 2 * (x * den - num) ≠ gapBelow precision x * den) :
    round precision num den = x ↔ 2 * (x * den - num) < gapBelow precision x * den := by
  have gap : 0 < gapBelow precision x := spacing_pos precision (x - 1)
  have rounded := round_representable some num den
  constructor
  · intro isRounded
    have nearest : away num den (round precision num den) ≤ _ :=
      round_nearest some positive (representable.sub_gapBelow some filled)
    have divides := Nat.le_of_dvd filled representable.gapBelow_dvd
    have smaller : (x - gapBelow precision x) * den + gapBelow precision x * den = x * den := by
      rw [← Nat.add_mul, Nat.sub_add_cancel divides]
    have step : 0 < gapBelow precision x * den := Nat.mul_pos gap positive
    rw [isRounded] at nearest
    unfold away at nearest
    omega
  · intro upper
    have nearest : away num den (round precision num den) ≤ _ :=
      round_nearest some positive representable
    rcases Nat.lt_trichotomy (round precision num den) x with less | same | more
    · have room := rounded.add_gapBelow_le some representable less
      have scaled := Nat.mul_le_mul_right den room
      rw [Nat.add_mul] at scaled
      unfold away at nearest
      omega
    · exact same
    · have scaled := Nat.mul_le_mul_right den (show x + 1 ≤ round precision num den from more)
      rw [Nat.add_mul] at scaled
      unfold away at nearest
      omega

end ChangeSql.BinaryRounding
