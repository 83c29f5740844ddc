/-
What `normalize_float` keeps of a number.

Cutting off goes towards zero, so the text is at most the number. It is read
back as the number when less than half of the gap below it was cut off.
-/

import ChangeSql.FloatText
import Mathlib.Tactic.IntervalCases

namespace ChangeSql

open BinaryRounding DecimalDigits

namespace Binary32

def places (x : Binary32) : Nat :=
  placesLeft x.negative (x.units / 2 ^ 149)

/-- What lies behind the first `places` of the number is less than half of the
distance to the next number towards zero. -/
def Survives (x : Binary32) : Prop :=
  2 * (x.units * 10 ^ x.places % 2 ^ 149) < 10 ^ x.places * gapBelow 24 x.units

instance (x : Binary32) : Decidable x.Survives :=
  inferInstanceAs (Decidable (_ < _))

def cutOff (x : Binary32) : Numeral where
  negative := x.negative
  digits := x.units * 10 ^ x.places / 2 ^ 149
  places := x.places

/-! ### Cutting off and rounding do not meet half way -/

private theorem spacing_mul_dvd_mod (x : Binary32) (places : Nat) :
    spacing 24 x.units * 2 ^ places ∣ x.units * 10 ^ places % 2 ^ 149 := by
  have divides : spacing 24 x.units * 2 ^ places ∣ x.units * 10 ^ places :=
    Nat.mul_dvd_mul x.representable (pow_dvd_pow_of_dvd (by decide) places)
  unfold spacing at divides ⊢
  rw [← Nat.pow_add] at divides ⊢
  exact two_pow_dvd_mod divides

private theorem mod_ne_half_gap (x : Binary32) (places : Nat) :
    2 * (x.units * 10 ^ places % 2 ^ 149) ≠ gapBelow 24 x.units * 10 ^ places := by
  intro tie
  have finer : gapBelow 24 x.units ∣ spacing 24 x.units :=
    spacing_dvd (log2_mono (Nat.sub_le _ 1))
  have ⟨k, remainder⟩ : gapBelow 24 x.units * 2 ^ places ∣ x.units * 10 ^ places % 2 ^ 149 :=
    Nat.dvd_trans (Nat.mul_dvd_mul_right finer _) (x.spacing_mul_dvd_mod places)
  have positive : 0 < gapBelow 24 x.units * 2 ^ places :=
    Nat.mul_pos (spacing_pos 24 _) (Nat.two_pow_pos places)
  have ten : (10 : Nat) ^ places = 2 ^ places * 5 ^ places := by
    rw [← Nat.mul_pow]
  have equal : gapBelow 24 x.units * 2 ^ places * (2 * k) =
      gapBelow 24 x.units * 2 ^ places * 5 ^ places := by
    calc gapBelow 24 x.units * 2 ^ places * (2 * k)
        = 2 * (gapBelow 24 x.units * 2 ^ places * k) := Nat.mul_left_comm _ _ _
      _ = 2 * (x.units * 10 ^ places % 2 ^ 149) := by rw [remainder]
      _ = gapBelow 24 x.units * 10 ^ places := tie
      _ = gapBelow 24 x.units * 2 ^ places * 5 ^ places := by rw [ten, Nat.mul_assoc]
  have odd : 5 ^ places % 2 = 1 := by
    rw [Nat.pow_mod]
    exact congrArg (· % 2) (Nat.one_pow places)
  have even := Nat.eq_of_mul_eq_mul_left positive equal
  omega

/-! ### The expansion never rounds up into a place that is kept -/

/-- A number is `Clear` of the next decimal with this many places when the
expansion to 18 places does not reach it. -/
def Clear (x : Binary32) (places : Nat) : Prop :=
  2 ^ 149 < 2 * 10 ^ (18 - places) * (2 ^ 149 - x.units * 10 ^ places % 2 ^ 149)

private theorem Clear.scaled18_div {x : Binary32} {places : Nat} (clear : x.Clear places)
    (few : places ≤ 8) : x.scaled18 / 10 ^ (18 - places) = x.units * 10 ^ places / 2 ^ 149 := by
  have shift : x.units * 10 ^ 18 = x.units * 10 ^ places * 10 ^ (18 - places) := by
    rw [Nat.mul_assoc, ← Nat.pow_add, Nat.add_sub_cancel' (by omega)]
  have even : 2 ∣ 10 ^ (18 - places) :=
    Nat.dvd_trans (by decide : 2 ∣ 10 ^ 1) (Nat.pow_dvd_pow 10 (by omega))
  unfold scaled18
  rw [shift]
  exact roundEven_mul_div (Nat.two_pow_pos 149) even clear

private theorem clear_of_mod_lt {x : Binary32} {places : Nat}
    (small : x.units * 10 ^ places % 2 ^ 149 < 2 ^ 148) : x.Clear places := by
  have coarse : 1 ≤ 10 ^ (18 - places) := Nat.pow_pos (by decide)
  have half : 2 ^ 148 < 2 ^ 149 - x.units * 10 ^ places % 2 ^ 149 := by omega
  calc 2 ^ 149
      < 2 * 1 * (2 ^ 149 - x.units * 10 ^ places % 2 ^ 149) := by omega
    _ ≤ 2 * 10 ^ (18 - places) * (2 ^ 149 - x.units * 10 ^ places % 2 ^ 149) :=
        Nat.mul_le_mul_right _ (Nat.mul_le_mul_left 2 coarse)

/-- Large numbers have few binary places, and those that are cut off with a
decimal place are far from the next one. -/
theorem clear_of_large {x : Binary32} {places : Nat} (few : places ≤ 8)
    (large : 2 ^ 130 ≤ x.units) : x.Clear places := by
  have bits : 130 ≤ x.units.log2 := (Nat.le_log2 (by omega)).mpr large
  have coarser : 2 ^ (107 + places) ∣ x.units * 10 ^ places % 2 ^ 149 := by
    apply Nat.dvd_trans _ (x.spacing_mul_dvd_mod places)
    rw [Nat.pow_add]
    exact Nat.mul_dvd_mul_right (Nat.pow_dvd_pow 2 (by omega)) _
  have room := mul_add_le_of_dvd coarser (Nat.pow_dvd_pow 2 (show 107 + places ≤ 149 by omega))
    (Nat.mod_lt _ (Nat.two_pow_pos 149))
  have enough : 2 ^ 149 < 2 * 10 ^ (18 - places) * 2 ^ (107 + places) := by
    interval_cases places <;> norm_num
  calc 2 ^ 149
      < 2 * 10 ^ (18 - places) * 2 ^ (107 + places) := enough
    _ ≤ 2 * 10 ^ (18 - places) * (2 ^ 149 - x.units * 10 ^ places % 2 ^ 149) :=
        Nat.mul_le_mul_left _ (Nat.le_sub_of_add_le' room)

/-- Without the powers of two that the number and the denominator share, a
number that is not clear is a multiple of a power of five closely below a
multiple of a power of two. -/
theorem close_of_not_clear {x : Binary32} {places shift bits m : Nat} (close : ¬ x.Clear places)
    (split : x.units = 2 ^ shift * m) (width : shift + places + bits = 149) :
    ∃ n r, n * 2 ^ bits = m * 5 ^ places + r ∧ 2 * 10 ^ (18 - places) * r ≤ 2 ^ bits := by
  have positive : 0 < 2 ^ (shift + places) := Nat.two_pow_pos _
  have power : 2 ^ 149 = 2 ^ (shift + places) * 2 ^ bits := by rw [← Nat.pow_add, width]
  have product : x.units * 10 ^ places = 2 ^ (shift + places) * (m * 5 ^ places) := by
    rw [split, show (10 : Nat) = 2 * 5 from rfl, Nat.mul_pow, Nat.pow_add, Nat.mul_mul_mul_comm]
  have inside := Nat.mod_lt (m * 5 ^ places) (Nat.two_pow_pos bits)
  have whole := Nat.mod_add_div (m * 5 ^ places) (2 ^ bits)
  unfold Clear at close
  rw [product, power, Nat.mul_mod_mul_left, ← Nat.mul_sub, Nat.mul_left_comm,
    Nat.mul_lt_mul_left positive, Nat.not_lt] at close
  apply Exists.intro (m * 5 ^ places / 2 ^ bits + 1)
  apply Exists.intro (2 ^ bits - m * 5 ^ places % 2 ^ bits)
  constructor
  · rw [Nat.add_mul, Nat.one_mul, Nat.mul_comm (_ / _)]
    omega
  · exact close

/-- All fractions with a significand of 24 bits that come close to a decimal
of seven or eight places from below would show up here. -/
theorem no_close_significand : ∀ places, places = 7 ∨ places = 8 →
    ∀ bits < 45, 35 ≤ bits → ∀ n < 192, 2 ^ 23 * 5 ^ places ≤ n * 2 ^ bits →
      n * 2 ^ bits < 2 ^ 24 * 5 ^ places →
        2 ^ bits < 2 * 10 ^ (18 - places) * (n * 2 ^ bits % 5 ^ places) := by
  intro places either
  rcases either with rfl | rfl
  · decide +kernel
  · decide +kernel

private theorem no_close_multiple {places bits m n r : Nat} (either : places = 7 ∨ places = 8)
    (narrow : bits < 45) (wide : 35 ≤ bits) (lower : 2 ^ 23 ≤ m) (upper : m < 2 ^ 24)
    (multiple : n * 2 ^ bits = m * 5 ^ places + r)
    (near : 2 * 10 ^ (18 - places) * r ≤ 2 ^ bits) : False := by
  have most : 2 ^ bits < 2 ^ 45 := Nat.pow_lt_pow_right (by decide) narrow
  have least : 2 ^ 35 ≤ 2 ^ bits := Nat.pow_le_pow_right (by decide) wide
  have remainder : r < 5 ^ places := by
    rcases either with rfl | rfl
    · omega
    · omega
  have bounded : n * 2 ^ bits < 2 ^ 24 * 5 ^ places := by
    calc n * 2 ^ bits
        < m * 5 ^ places + 5 ^ places := by omega
      _ = (m + 1) * 5 ^ places := (Nat.succ_mul _ _).symm
      _ ≤ 2 ^ 24 * 5 ^ places := Nat.mul_le_mul_right _ upper
  have count : n < 192 := by
    have fewer : n * 2 ^ 35 ≤ n * 2 ^ bits := Nat.mul_le_mul_left n least
    rcases either with rfl | rfl
    · omega
    · omega
  have aboveStart : 2 ^ 23 * 5 ^ places ≤ n * 2 ^ bits := by
    rw [multiple]
    exact Nat.le_trans (Nat.mul_le_mul_right _ lower) (Nat.le_add_right _ _)
  have far := no_close_significand places either bits narrow wide n count aboveStart bounded
  rw [multiple, Nat.mul_add_mod', Nat.mod_eq_of_lt remainder] at far
  omega

private theorem Ordinary.significand {x : Binary32} (ordinary : x.Ordinary) (some : 0 < x.units) :
    ∃ shift m, x.units.log2 = shift + 23 ∧ x.units = 2 ^ shift * m ∧ 2 ^ 23 ≤ m ∧ m < 2 ^ 24 := by
  have ⟨m, split⟩ := x.representable
  have normal : 2 ^ 23 ≤ x.units := by
    rcases ordinary with zero | normal
    · omega
    · exact normal
  have bits : 23 ≤ x.units.log2 := (Nat.le_log2 (by omega)).mpr normal
  have log : x.units.log2 = x.units.log2 + 1 - 24 + 23 := by omega
  have lower : 2 ^ x.units.log2 ≤ x.units := Nat.log2_self_le (by omega)
  have upper : x.units < 2 ^ (x.units.log2 + 1) := Nat.lt_log2_self
  have positive : 0 < 2 ^ (x.units.log2 + 1 - 24) := Nat.two_pow_pos _
  change x.units = 2 ^ (x.units.log2 + 1 - 24) * m at split
  have atLeast : 2 ^ 23 ≤ m := by
    apply Nat.le_of_mul_le_mul_left _ positive
    rw [← split, ← Nat.pow_add, ← log]
    exact lower
  have below : m < 2 ^ 24 := by
    apply Nat.lt_of_mul_lt_mul_left (a := 2 ^ (x.units.log2 + 1 - 24))
    rw [← split, ← Nat.pow_add, show x.units.log2 + 1 - 24 + 24 = x.units.log2 + 1 by omega]
    exact upper
  exact ⟨x.units.log2 + 1 - 24, m, log, split, atLeast, below⟩

/-- Below `2 ^ -19` all places are kept, and most numbers have no carry for
their size. The others have one of a few exponents. -/
theorem clear_of_small {x : Binary32} {places : Nat} (ordinary : x.Ordinary)
    (few : places = 0 ∨ places = 7 ∨ places = 8) (small : x.units < 2 ^ 130) :
    x.Clear places := by
  rcases Nat.lt_or_ge (x.units * 10 ^ places) (2 ^ 148) with low | high
  · exact clear_of_mod_lt (Nat.lt_of_le_of_lt (Nat.mod_le _ _) low)
  · have either : places = 7 ∨ places = 8 := by
      rcases few with rfl | either
      · rw [Nat.pow_zero, Nat.mul_one] at high
        omega
      · exact either
    have large : 2 ^ 121 ≤ x.units := by
      rcases either with rfl | rfl
      · omega
      · omega
    have ⟨shift, m, log, split, lower, upper⟩ := ordinary.significand (by omega)
    have atLeast : 121 ≤ x.units.log2 := (Nat.le_log2 (by omega)).mpr large
    have atMost : x.units.log2 < 130 := (Nat.log2_lt (by omega)).mpr small
    have width : shift + places + (149 - (shift + places)) = 149 := by omega
    by_contra close
    have ⟨n, r, multiple, near⟩ := close_of_not_clear close split width
    exact no_close_multiple either (by omega) (by omega) lower upper multiple near

private theorem Ordinary.clear_whole {x : Binary32} (ordinary : x.Ordinary) : x.Clear 0 := by
  rcases Nat.lt_or_ge x.units (2 ^ 130) with small | large
  · exact clear_of_small ordinary (Or.inl rfl) small
  · exact clear_of_large (Nat.zero_le 8) large

private theorem Ordinary.clear_places {x : Binary32} (ordinary : x.Ordinary) :
    x.Clear x.places := by
  rcases Nat.lt_or_ge x.units (2 ^ 130) with small | large
  · have fraction : x.units / 2 ^ 149 = 0 := Nat.div_eq_of_lt (by omega)
    have most : x.places = 8 - x.negative.toNat := by
      unfold places placesLeft
      rw [fraction, Nat.log_zero_right, Nat.sub_zero]
    apply clear_of_small ordinary _ small
    have sign := Bool.toNat_le x.negative
    omega
  · exact clear_of_large (placesLeft_le _ _) large

/-! ### The text of a number -/

def keyText (x : Binary32) : Bytes :=
  trimNumeral (x.formatFixed18.length - 10) x.formatFixed18

private theorem Ordinary.parse_keyText {x : Binary32} (ordinary : x.Ordinary) :
    parseNumeral x.keyText = some x.cutOff := by
  have whole : x.scaled18 / 10 ^ 18 = x.units / 2 ^ 149 := by
    have clear := ordinary.clear_whole.scaled18_div (Nat.zero_le 8)
    rw [Nat.pow_zero, Nat.mul_one] at clear
    exact clear
  have kept := ordinary.clear_places.scaled18_div (placesLeft_le _ _)
  have digits := value_decimal_padded x.places (18 - x.places) x.scaled18
  rw [show x.places + (18 - x.places) = 18 from
    Nat.add_sub_cancel' (Nat.le_trans (placesLeft_le _ _) (by decide)), kept] at digits
  have text : x.keyText = signText x.negative ++ decimal (x.scaled18 / 10 ^ 18) ++
      dot :: padded x.places (x.scaled18 % 10 ^ 18 / 10 ^ (18 - x.places)) := by
    unfold places
    rw [← whole]
    exact trimNumeral_expansion x.negative _ _
  have someDigit : decimal (x.scaled18 / 10 ^ 18) ≠ [] := by
    intro none
    have length := decimal_length (x.scaled18 / 10 ^ 18)
    rw [none, List.length_nil] at length
    omega
  rw [text, parseNumeral_digits x.negative someDigit (isDigit_decimal _)
    (isDigit_padded _ _), digits, padded_length]
  rfl

private theorem nearest_cutOff_iff (x : Binary32) : nearest x.cutOff = some x ↔ x.Survives := by
  have number : nearest x.cutOff = some x ↔
      round 24 (x.units * 10 ^ x.places / 2 ^ 149 * 2 ^ 149) (10 ^ x.places) = x.units := by
    rw [nearest_eq_some_iff]
    exact and_iff_right rfl
  have den : 0 < 10 ^ x.places := Nat.pow_pos (by decide)
  rw [number]
  rcases Nat.eq_zero_or_pos x.units with zero | filled
  · have written : round 24 (x.units * 10 ^ x.places / 2 ^ 149 * 2 ^ 149) (10 ^ x.places) =
        x.units := by
      rw [zero, Nat.zero_mul, Nat.zero_div, Nat.zero_mul, round_zero]
    have survives : x.Survives := by
      unfold Survives
      rw [zero, Nat.zero_mul, Nat.zero_mod]
      exact Nat.mul_pos den (spacing_pos 24 _)
    exact iff_of_true written survives
  · have whole := Nat.mod_add_div (x.units * 10 ^ x.places) (2 ^ 149)
    have lost : x.units * 10 ^ x.places - x.units * 10 ^ x.places / 2 ^ 149 * 2 ^ 149 =
        x.units * 10 ^ x.places % 2 ^ 149 := by omega
    have below := Nat.div_mul_le_self (x.units * 10 ^ x.places) (2 ^ 149)
    have noTie := x.mod_ne_half_gap x.places
    rw [← lost] at noTie
    rw [round_eq_iff (by decide) den filled x.representable below noTie, lost,
      Nat.mul_comm (gapBelow _ _)]
    exact Iff.rfl

private theorem survives_of_binade {x : Binary32} (exponent : Nat)
    (binade : 2 ^ (exponent + 23) ≤ x.units - 1)
    (wide : 2 ^ 150 ≤ 10 ^ x.places * 2 ^ exponent) : x.Survives := by
  have bits : exponent + 23 ≤ (x.units - 1).log2 := by
    have some := Nat.two_pow_pos (exponent + 23)
    exact (Nat.le_log2 (by omega)).mpr binade
  have gap : 2 ^ exponent ≤ gapBelow 24 x.units := Nat.pow_le_pow_right (by decide) (by omega)
  have lost := Nat.mod_lt (x.units * 10 ^ x.places) (Nat.two_pow_pos 149)
  have scaled := Nat.mul_le_mul_left (10 ^ x.places) gap
  unfold Survives
  omega

/-- A positive number from a quarter on has nine significant digits in its
text, or so few binary places that less is enough. -/
theorem survives_of_quarter_le {x : Binary32} (positive : x.negative = false)
    (large : 2 ^ 147 ≤ x.units) : x.Survives := by
  have kept : x.places = 8 - Nat.log 10 (x.units / 2 ^ 149) := by
    unfold places placesLeft
    rw [positive, Bool.toNat_false, Nat.sub_zero]
  rcases Nat.lt_or_ge x.units (2 ^ 149) with fraction | number
  · rw [Nat.div_eq_of_lt fraction, Nat.log_zero_right, Nat.sub_zero] at kept
    rcases Nat.eq_or_lt_of_le large with quarter | above
    · unfold Survives
      rw [kept, ← quarter]
      decide +kernel
    · apply survives_of_binade 124 (by omega)
      rw [kept]
      decide
  · have whole : x.units / 2 ^ 149 ≠ 0 := by
      have one := (Nat.one_le_div_iff (Nat.two_pow_pos 149)).mpr number
      omega
    have power : 10 ^ Nat.log 10 (x.units / 2 ^ 149) * 2 ^ 149 ≤ x.units :=
      (Nat.le_div_iff_mul_le (Nat.two_pow_pos 149)).mp (Nat.pow_log_le_self 10 whole)
    generalize Nat.log 10 (x.units / 2 ^ 149) = digits at kept power
    rcases Nat.lt_or_ge digits 8 with few | many
    · -- ten thirds stand in for the binary logarithm of ten
      have binade : 2 ^ (125 + 10 * digits / 3 + 23) ≤ x.units - 1 := by
        interval_cases digits <;> omega
      have wide : 2 ^ 150 ≤ 10 ^ x.places * 2 ^ (125 + 10 * digits / 3) := by
        rw [kept]
        interval_cases digits <;> norm_num
      exact survives_of_binade _ binade wide
    · apply survives_of_binade 152
      · have wide := Nat.pow_le_pow_right (show 0 < 10 by decide) many
        omega
      · rw [kept, Nat.sub_eq_zero_of_le many]
        decide

end Binary32

/-- The decimal strings for which `stof` gives zero or a normal number. -/
structure ReadsAs (text : Bytes) (x : Binary32) : Prop where
  nearest : ∃ numeral, parseNumeral text = some numeral ∧ Binary32.nearest numeral = some x
  ordinary : x.Ordinary

/-- `normalize_float` leaves a number as it is, and does so again. -/
def KeepsValue (runtime : Runtime) (text : Bytes) : Prop :=
  ∃ normalized, normalizeFloat runtime text = .ok normalized ∧
    runtime.stof normalized = runtime.stof text ∧
    normalizeFloat runtime normalized = .ok normalized

private theorem normalizeFloat_of_stof {text : Bytes} {x : Binary32}
    (read : (binary32Runtime other xxh3).stof text = some x) :
    normalizeFloat (binary32Runtime other xxh3) text = .ok x.keyText := by
  unfold normalizeFloat
  rw [read]
  rfl

theorem ReadsAs.stof {text : Bytes} {x : Binary32} (reads : ReadsAs text x) :
    (binary32Runtime other xxh3).stof text = some x := by
  have ⟨numeral, parsed, nearest⟩ := reads.nearest
  rw [stof_of_numeral parsed]
  exact nearest

private theorem ReadsAs.stof_keyText_iff {text : Bytes} {x : Binary32} (reads : ReadsAs text x) :
    (binary32Runtime other xxh3).stof x.keyText = some x ↔ x.Survives := by
  rw [stof_of_numeral reads.ordinary.parse_keyText]
  exact x.nearest_cutOff_iff

private theorem ReadsAs.keepsValue_iff {text : Bytes} {x : Binary32} (reads : ReadsAs text x) :
    KeepsValue (binary32Runtime other xxh3) text ↔ x.Survives := by
  have read : (binary32Runtime other xxh3).stof text = some x := reads.stof
  have once := normalizeFloat_of_stof read
  constructor
  · intro ⟨normalized, result, same, _⟩
    rw [once] at result
    cases result
    rw [read] at same
    exact reads.stof_keyText_iff.mp same
  · intro survives
    have again : (binary32Runtime other xxh3).stof x.keyText = some x :=
      reads.stof_keyText_iff.mpr survives
    exact ⟨x.keyText, once, again.trans read.symm, normalizeFloat_of_stof again⟩

/-- Only small and negative numbers are not kept. -/
theorem ReadsAs.keepsValue_of_quarter_le {text : Bytes} {x : Binary32} (reads : ReadsAs text x)
    (positive : x.negative = false) (large : 2 ^ 147 ≤ x.units) :
    KeepsValue (binary32Runtime other xxh3) text :=
  reads.keepsValue_iff.mpr (Binary32.survives_of_quarter_le positive large)

/-- For two float values of a key: normalising keeps both, settles after the
first time and tells them apart, exactly when neither of them loses half of
the gap below it to the ten characters. -/
theorem normalizeFloat_keeps_iff (other : Bytes → Option Binary32) (xxh3 : List Bytes → UInt64)
    {first second : Bytes} {x y : Binary32} (firstReads : ReadsAs first x)
    (secondReads : ReadsAs second y) :
    (KeepsValue (binary32Runtime other xxh3) first ∧
        KeepsValue (binary32Runtime other xxh3) second ∧
        (normalizeFloat (binary32Runtime other xxh3) first =
          normalizeFloat (binary32Runtime other xxh3) second → x = y)) ↔
      x.Survives ∧ y.Survives := by
  rw [firstReads.keepsValue_iff, secondReads.keepsValue_iff]
  constructor
  · intro ⟨firstSurvives, secondSurvives, _⟩
    exact ⟨firstSurvives, secondSurvives⟩
  · intro ⟨firstSurvives, secondSurvives⟩
    have apart : normalizeFloat (binary32Runtime other xxh3) first =
        normalizeFloat (binary32Runtime other xxh3) second → x = y := by
      intro alike
      rw [normalizeFloat_of_stof firstReads.stof, normalizeFloat_of_stof secondReads.stof] at alike
      have sameText : x.keyText = y.keyText := Except.ok.inj alike
      have back : (binary32Runtime other xxh3).stof x.keyText = some x :=
        firstReads.stof_keyText_iff.mpr firstSurvives
      rw [sameText, secondReads.stof_keyText_iff.mpr secondSurvives] at back
      exact (Option.some.inj back).symm
    exact ⟨firstSurvives, secondSurvives, apart⟩

/-- The number of the sources' own trial, 10.135204300235847. -/
def trialFloat : Binary32 where
  negative := false
  units := 10627532 * 2 ^ 129
  representable := by decide +kernel
  finite := by decide +kernel

/-- -1.1 -/
def negativeFloat : Binary32 where
  negative := true
  units := 9227469 * 2 ^ 126
  representable := by decide +kernel
  finite := by decide +kernel

private theorem readsAs_trialFloat : ReadsAs (ascii "10.135204300235847") trialFloat where
  nearest := ⟨⟨false, 10135204300235847, 15⟩, by decide +kernel, by decide +kernel⟩
  ordinary := by decide +kernel

private theorem readsAs_negativeFloat : ReadsAs (ascii "-1.1") negativeFloat where
  nearest := ⟨⟨true, 11, 1⟩, by decide +kernel, by decide +kernel⟩
  ordinary := by decide +kernel

theorem normalizeFloat_keeps_iff_trialFloat :
    KeepsValue (binary32Runtime (fun _ => none) fun _ => 0) (ascii "10.135204300235847") ∧
      KeepsValue (binary32Runtime (fun _ => none) fun _ => 0) (ascii "-1.1") := by
  have survive : trialFloat.Survives ∧ negativeFloat.Survives :=
    ⟨Binary32.survives_of_quarter_le rfl (by decide), by decide +kernel⟩
  have ⟨first, second, _⟩ :=
    (normalizeFloat_keeps_iff (fun _ => none) (fun _ => 0) readsAs_trialFloat
      readsAs_negativeFloat).mpr survive
  exact ⟨first, second⟩

/-- 0.000123456 -/
def smallFloat : Binary32 where
  negative := false
  units := 8483832 * 2 ^ 113
  representable := by decide +kernel
  finite := by decide +kernel

/-- 0.000123451 -/
def smallerFloat : Binary32 where
  negative := false
  units := 8483488 * 2 ^ 113
  representable := by decide +kernel
  finite := by decide +kernel

/-- Two small keys keep five digits each, which are the same and stand for
neither of them. -/
theorem normalizeFloat_not_keeps_smallFloat :
    ReadsAs (ascii "0.000123456") smallFloat ∧ ReadsAs (ascii "0.000123451") smallerFloat ∧
      ¬ KeepsValue (binary32Runtime (fun _ => none) fun _ => 0) (ascii "0.000123456") ∧
      ¬ (normalizeFloat (binary32Runtime (fun _ => none) fun _ => 0) (ascii "0.000123456") =
          normalizeFloat (binary32Runtime (fun _ => none) fun _ => 0) (ascii "0.000123451") →
        smallFloat = smallerFloat) := by
  have firstReads : ReadsAs (ascii "0.000123456") smallFloat :=
    { nearest := ⟨⟨false, 123456, 9⟩, by decide +kernel, by decide +kernel⟩
      ordinary := by decide +kernel }
  have secondReads : ReadsAs (ascii "0.000123451") smallerFloat :=
    { nearest := ⟨⟨false, 123451, 9⟩, by decide +kernel, by decide +kernel⟩
      ordinary := by decide +kernel }
  have alike : smallFloat.keyText = smallerFloat.keyText := by decide +kernel
  have lost : ¬ smallFloat.Survives := by decide +kernel
  have different : smallFloat ≠ smallerFloat := by decide +kernel
  have notKept : ¬ KeepsValue (binary32Runtime (fun _ => none) fun _ => 0)
      (ascii "0.000123456") := by
    intro kept
    exact lost (firstReads.keepsValue_iff.mp kept)
  have merged : ¬ (normalizeFloat (binary32Runtime (fun _ => none) fun _ => 0)
      (ascii "0.000123456") =
        normalizeFloat (binary32Runtime (fun _ => none) fun _ => 0) (ascii "0.000123451") →
      smallFloat = smallerFloat) := by
    intro apart
    apply different
    apply apart
    rw [normalizeFloat_of_stof firstReads.stof, normalizeFloat_of_stof secondReads.stof, alike]
  exact ⟨firstReads, secondReads, notKept, merged⟩

end ChangeSql
