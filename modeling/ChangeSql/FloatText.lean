/-
The texts of floating-point numbers.

`std::stof` on a decimal string is the nearest binary32 number, and the
format `{:.18f}` is the expansion of a number to 18 places; both are exact
here. What `normalize_float` makes of a number is then the expansion, cut off
behind a number of places that depends on the sign and on the integer part.
-/

import ChangeSql.Library.BinaryRounding
import ChangeSql.Library.DecimalDigits
import ChangeSql.Schema

namespace ChangeSql

open BinaryRounding DecimalDigits

abbrev minus : Byte := 45

/-- A decimal string: the digits on both sides of the dot as one number, and
how many of them are behind the dot. -/
structure Numeral where
  negative : Bool
  digits : Nat
  places : Nat
  deriving DecidableEq, Repr

def parseMagnitude (negative : Bool) (text : Bytes) : Option Numeral :=
  let whole := text.takeWhile isDigit
  match text.dropWhile isDigit with
  | [] => if whole = [] then none else some ⟨negative, value whole, 0⟩
  | byte :: fraction =>
      if byte = dot ∧ fraction.all isDigit ∧ whole ++ fraction ≠ [] then
        some ⟨negative, value (whole ++ fraction), fraction.length⟩
      else none

def parseNumeral : Bytes → Option Numeral
  | [] => none
  | byte :: text =>
      if byte = minus then parseMagnitude true text else parseMagnitude false (byte :: text)

/-- A finite binary32 number, its magnitude counted in units of `2 ^ -149`. -/
structure Binary32 where
  negative : Bool
  units : Nat
  representable : Representable 24 units
  finite : units < 2 ^ 277
  deriving DecidableEq, Repr

namespace Binary32

def nearest (numeral : Numeral) : Option Binary32 :=
  let units := round 24 (numeral.digits * 2 ^ 149) (10 ^ numeral.places)
  if finite : units < 2 ^ 277 then
    some
      { negative := numeral.negative
        units := units
        representable := round_representable (by decide) _ _
        finite := finite }
  else none

def Ordinary (x : Binary32) : Prop :=
  x.units = 0 ∨ 2 ^ 23 ≤ x.units

instance (x : Binary32) : Decidable x.Ordinary :=
  inferInstanceAs (Decidable (x.units = 0 ∨ 2 ^ 23 ≤ x.units))

def signText (negative : Bool) : Bytes :=
  if negative then [minus] else []

def scaled18 (x : Binary32) : Nat :=
  roundEven (x.units * 10 ^ 18) (2 ^ 149)

/-- `fmt::format("{:.18f}", x)`. -/
def formatFixed18 (x : Binary32) : Bytes :=
  signText x.negative ++ decimal (x.scaled18 / 10 ^ 18) ++
    dot :: padded 18 (x.scaled18 % 10 ^ 18)

theorem nearest_eq_some_iff {numeral : Numeral} {x : Binary32} :
    nearest numeral = some x ↔
      numeral.negative = x.negative ∧
        round 24 (numeral.digits * 2 ^ 149) (10 ^ numeral.places) = x.units := by
  unfold nearest
  constructor
  · intro found
    dsimp only at found
    split at found
    · have same := Option.some.inj found
      rw [← same]
      exact ⟨rfl, rfl⟩
    · cases found
  · intro same
    have ⟨sign, units⟩ := same
    cases x with
    | mk negative magnitude representable finite =>
        dsimp only at sign units
        subst sign units
        dsimp only
        rw [dif_pos finite]

end Binary32

/-- The runtime with binary32 arithmetic. `other` is what `stof` makes of the
texts that are no decimal strings. -/
def binary32Runtime (other : Bytes → Option Binary32) (xxh3 : List Bytes → UInt64) : Runtime where
  Float32 := Binary32
  stof text :=
    match parseNumeral text with
    | some numeral => Binary32.nearest numeral
    | none => other text
  formatFixed18 := Binary32.formatFixed18
  xxh3 := xxh3

variable {other : Bytes → Option Binary32} {xxh3 : List Bytes → UInt64}

theorem stof_of_numeral {text : Bytes} {numeral : Numeral} (parsed : parseNumeral text = some numeral) :
    (binary32Runtime other xxh3).stof text = Binary32.nearest numeral := by
  change (match parseNumeral text with
    | some numeral => Binary32.nearest numeral
    | none => other text) = _
  rw [parsed]

/-! ### Parsing what was printed -/

private theorem isDigit_dot : isDigit dot = false := rfl

private theorem isDigit_minus : isDigit minus = false := rfl

private theorem parseMagnitude_digits (negative : Bool) {whole fraction : Bytes}
    (someDigit : whole ≠ []) (wholeDigits : ∀ byte ∈ whole, isDigit byte = true)
    (fractionDigits : ∀ byte ∈ fraction, isDigit byte = true) :
    parseMagnitude negative (whole ++ dot :: fraction) =
      some ⟨negative, value (whole ++ fraction), fraction.length⟩ := by
  have front : (whole ++ dot :: fraction).takeWhile isDigit = whole := by
    rw [List.takeWhile_append_of_pos wholeDigits, List.takeWhile_cons_of_neg (by decide)]
    exact List.append_nil whole
  have back : (whole ++ dot :: fraction).dropWhile isDigit = dot :: fraction := by
    rw [List.dropWhile_append_of_pos wholeDigits, List.dropWhile_cons_of_neg (by decide)]
  unfold parseMagnitude
  dsimp only
  rw [front, back]
  dsimp only
  rw [if_pos]
  have notEmpty : whole ++ fraction ≠ [] := by
    intro empty
    exact someDigit (List.append_eq_nil_iff.mp empty).1
  exact ⟨rfl, List.all_eq_true.mpr fractionDigits, notEmpty⟩

private theorem parseNumeral_signText (negative : Bool) {byte : Byte} {text : Bytes}
    (first : isDigit byte = true) :
    parseNumeral (Binary32.signText negative ++ byte :: text) =
      parseMagnitude negative (byte :: text) := by
  cases negative with
  | true => rfl
  | false =>
      have unsigned : byte ≠ minus := by
        intro isMinus
        rw [isMinus, isDigit_minus] at first
        cases first
      change (if byte = minus then _ else _) = _
      rw [if_neg unsigned]

theorem parseNumeral_digits (negative : Bool) {whole fraction : Bytes}
    (someDigit : whole ≠ []) (wholeDigits : ∀ byte ∈ whole, isDigit byte = true)
    (fractionDigits : ∀ byte ∈ fraction, isDigit byte = true) :
    parseNumeral (Binary32.signText negative ++ whole ++ dot :: fraction) =
      some ⟨negative, value (whole ++ fraction), fraction.length⟩ := by
  rw [List.append_assoc, ← parseMagnitude_digits negative someDigit wholeDigits fractionDigits]
  cases whole with
  | nil => contradiction
  | cons byte rest =>
      apply parseNumeral_signText
      exact wholeDigits byte (List.mem_cons_self)

/-! ### Cutting off -/

private theorem trimNumeral_digits (front : Bytes) {fraction : Bytes}
    (digits : ∀ byte ∈ fraction, isDigit byte = true) (excess : Nat) :
    trimNumeral excess (front ++ dot :: fraction) =
      front ++ dot :: fraction.take (fraction.length - excess) := by
  induction excess generalizing fraction with
  | zero =>
      rw [Nat.sub_zero, List.take_length]
      rfl
  | succ excess ih =>
      rcases List.eq_nil_or_concat fraction with rfl | ⟨init, last, rfl⟩
      · unfold trimNumeral
        rw [if_pos List.getLast?_concat, List.take_nil]
      · rw [List.concat_eq_append] at digits ⊢
        have lastDigit : isDigit last = true := digits last (by simp)
        have initDigits : ∀ byte ∈ init, isDigit byte = true := by
          intro byte member
          exact digits byte (List.mem_append_left _ member)
        have noDot : ¬ some last = some dot := by
          intro isDot
          rw [Option.some.inj isDot, isDigit_dot] at lastDigit
          cases lastDigit
        have shape : front ++ dot :: (init ++ [last]) = (front ++ dot :: init) ++ [last] := by
          rw [List.append_assoc, List.cons_append]
        unfold trimNumeral
        rw [shape, List.getLast?_concat, if_neg noDot, List.dropLast_concat, ih initDigits,
          List.length_append, List.length_singleton, Nat.add_sub_add_right,
          List.take_append_of_le_length (Nat.sub_le _ _)]

namespace Binary32

/-- How many places the ten characters of a key leave for a number whose
integer part is `whole`. -/
def placesLeft (negative : Bool) (whole : Nat) : Nat :=
  8 - negative.toNat - Nat.log 10 whole

theorem placesLeft_le (negative : Bool) (whole : Nat) : placesLeft negative whole ≤ 8 := by
  unfold placesLeft
  omega

private theorem signText_length (negative : Bool) :
    (signText negative).length = negative.toNat := by
  cases negative with
  | true => rfl
  | false => rfl

theorem trimNumeral_expansion (negative : Bool) (whole fraction : Nat) :
    trimNumeral ((signText negative ++ decimal whole ++ dot :: padded 18 fraction).length - 10)
        (signText negative ++ decimal whole ++ dot :: padded 18 fraction) =
      signText negative ++ decimal whole ++
        dot :: padded (placesLeft negative whole)
          (fraction / 10 ^ (18 - placesLeft negative whole)) := by
  have few := placesLeft_le negative whole
  have kept : 18 - ((signText negative ++ decimal whole ++ dot :: padded 18 fraction).length - 10) =
      placesLeft negative whole := by
    unfold placesLeft
    rw [List.length_append, List.length_append, List.length_cons, signText_length, decimal_length,
      padded_length]
    omega
  have cut := padded_take (placesLeft negative whole) (18 - placesLeft negative whole) fraction
  rw [show placesLeft negative whole + (18 - placesLeft negative whole) = 18 by omega] at cut
  rw [trimNumeral_digits _ (isDigit_padded 18 fraction), padded_length, kept, cut]

end Binary32

end ChangeSql
