/-
Decimal digits of natural numbers, as bytes.

`padded` has a fixed number of digits and drops what does not fit on the left.
Cutting it off on the right divides by a power of ten.
-/

import Mathlib.Algebra.Group.Nat.Defs
import Mathlib.Data.Nat.Log

namespace ChangeSql.DecimalDigits

def isDigit (byte : UInt8) : Bool :=
  48 ≤ byte ∧ byte ≤ 57

def digit (n : Nat) : UInt8 :=
  UInt8.ofNat (48 + n % 10)

def padded : Nat → Nat → List UInt8
  | 0, _ => []
  | width + 1, n => padded width (n / 10) ++ [digit n]

def decimal (n : Nat) : List UInt8 :=
  padded (Nat.log 10 n + 1) n

def value (digits : List UInt8) : Nat :=
  digits.foldl (fun n byte => 10 * n + (byte.toNat - 48)) 0

variable {width n : Nat}

theorem padded_succ (width n : Nat) : padded (width + 1) n = padded width (n / 10) ++ [digit n] :=
  rfl

theorem digit_toNat (n : Nat) : (digit n).toNat = 48 + n % 10 := by
  unfold digit
  rw [UInt8.toNat_ofNat']
  omega

theorem isDigit_digit (n : Nat) : isDigit (digit n) = true := by
  have value := digit_toNat n
  unfold isDigit
  rw [decide_eq_true_iff, UInt8.le_iff_toNat_le, UInt8.le_iff_toNat_le, value]
  change 48 ≤ 48 + n % 10 ∧ 48 + n % 10 ≤ 57
  omega

theorem padded_length (width n : Nat) : (padded width n).length = width := by
  induction width generalizing n with
  | zero => rfl
  | succ width ih =>
      rw [padded_succ, List.length_append, ih, List.length_singleton]

theorem isDigit_padded (width n : Nat) : ∀ byte ∈ padded width n, isDigit byte = true := by
  induction width generalizing n with
  | zero =>
      intro byte member
      cases member
  | succ width ih =>
      intro byte member
      rw [padded_succ] at member
      rcases List.mem_append.mp member with earlier | isLast
      · exact ih (n / 10) byte earlier
      · rw [List.mem_singleton.mp isLast]
        exact isDigit_digit n

theorem isDigit_decimal (n : Nat) : ∀ byte ∈ decimal n, isDigit byte = true :=
  isDigit_padded _ n

theorem decimal_length (n : Nat) : (decimal n).length = Nat.log 10 n + 1 :=
  padded_length _ n

theorem value_snoc (digits : List UInt8) (byte : UInt8) :
    value (digits ++ [byte]) = 10 * value digits + (byte.toNat - 48) :=
  List.foldl_append

theorem value_padded (width n : Nat) : value (padded width n) = n % 10 ^ width := by
  induction width generalizing n with
  | zero =>
      rw [Nat.pow_zero, Nat.mod_one]
      rfl
  | succ width ih =>
      rw [padded_succ, value_snoc, ih, digit_toNat, Nat.pow_succ', Nat.mod_mul]
      omega

theorem value_decimal (n : Nat) : value (decimal n) = n := by
  unfold decimal
  rw [value_padded]
  exact Nat.mod_eq_of_lt (Nat.lt_pow_succ_log_self (by decide) n)

theorem padded_append (width more n : Nat) :
    padded width (n / 10 ^ more) ++ padded more n = padded (width + more) n := by
  induction more generalizing n with
  | zero =>
      rw [Nat.pow_zero, Nat.div_one]
      exact List.append_nil _
  | succ more ih =>
      have further : n / 10 ^ (more + 1) = n / 10 / 10 ^ more := by
        rw [Nat.pow_succ', Nat.div_div_eq_div_mul]
      rw [further, padded_succ more, ← List.append_assoc, ih, ← Nat.add_assoc, padded_succ]

theorem padded_take (width more n : Nat) :
    (padded (width + more) n).take width = padded width (n / 10 ^ more) := by
  rw [← padded_append]
  exact List.take_left' (padded_length width _)

theorem foldl_value (start : Nat) (digits : List UInt8) :
    digits.foldl (fun n byte => 10 * n + (byte.toNat - 48)) start =
      start * 10 ^ digits.length + value digits := by
  induction digits generalizing start with
  | nil => exact (Nat.mul_one start).symm
  | cons byte rest ih =>
      have first : value (byte :: rest) = (byte.toNat - 48) * 10 ^ rest.length + value rest := by
        rw [← ih]
        unfold value
        rw [List.foldl_cons, Nat.mul_zero, Nat.zero_add]
      rw [List.foldl_cons, ih, first, List.length_cons, Nat.pow_succ', Nat.add_mul, Nat.add_assoc,
        ← Nat.mul_assoc, Nat.mul_comm 10 start]

theorem value_append (front back : List UInt8) :
    value (front ++ back) = value front * 10 ^ back.length + value back := by
  rw [← foldl_value]
  exact List.foldl_append

theorem value_cons (byte : UInt8) (digits : List UInt8) :
    value (byte :: digits) = (byte.toNat - 48) * 10 ^ digits.length + value digits := by
  have first : value [byte] = byte.toNat - 48 := by
    unfold value
    rw [List.foldl_cons, Nat.mul_zero, Nat.zero_add, List.foldl_nil]
  rw [← List.singleton_append, value_append, first]

theorem isDigit_bounds {byte : UInt8} (digit : isDigit byte = true) :
    48 ≤ byte.toNat ∧ byte.toNat ≤ 57 := by
  unfold isDigit at digit
  rw [decide_eq_true_iff, UInt8.le_iff_toNat_le, UInt8.le_iff_toNat_le] at digit
  exact digit

theorem value_lt {digits : List UInt8} (allDigits : ∀ byte ∈ digits, isDigit byte = true) :
    value digits < 10 ^ digits.length := by
  induction digits with
  | nil => exact Nat.one_pos
  | cons byte digits ih =>
      rw [List.forall_mem_cons] at allDigits
      have bounds := isDigit_bounds allDigits.1
      have later := ih allDigits.2
      rw [value_cons, List.length_cons, Nat.pow_succ']
      calc (byte.toNat - 48) * 10 ^ digits.length + value digits
          < (byte.toNat - 48) * 10 ^ digits.length + 1 * 10 ^ digits.length := by omega
        _ = (byte.toNat - 48 + 1) * 10 ^ digits.length := (Nat.add_mul _ _ _).symm
        _ ≤ 10 * 10 ^ digits.length := Nat.mul_le_mul_right _ (by omega)

theorem le_value {first : UInt8} (digits : List UInt8) (some : 49 ≤ first.toNat) :
    10 ^ digits.length ≤ value (first :: digits) := by
  rw [value_cons]
  calc 10 ^ digits.length
      = 1 * 10 ^ digits.length := (Nat.one_mul _).symm
    _ ≤ (first.toNat - 48) * 10 ^ digits.length := Nat.mul_le_mul_right _ (by omega)
    _ ≤ (first.toNat - 48) * 10 ^ digits.length + value digits := Nat.le_add_right _ _

theorem value_decimal_padded (width more n : Nat) :
    value (decimal (n / 10 ^ (width + more)) ++
        padded width (n % 10 ^ (width + more) / 10 ^ more)) = n / 10 ^ more := by
  rw [value_append, value_decimal, padded_length, value_padded, Nat.add_comm width, Nat.pow_add,
    Nat.mod_mul_right_div_self, Nat.mod_mod, ← Nat.div_div_eq_div_mul]
  exact Nat.div_add_mod' _ _

/-! ### The order of the bytes -/

theorem append_lt_append_iff {front other rest last : List UInt8}
    (size : front.length = other.length) :
    front ++ rest < other ++ last ↔ front < other ∨ front = other ∧ rest < last := by
  induction front generalizing other with
  | nil =>
      rw [List.length_eq_zero_iff.mp size.symm]
      simp
  | cons byte front ih =>
      rcases List.exists_cons_of_length_eq_add_one size.symm with ⟨first, other, rfl⟩
      rw [List.cons_append, List.cons_append, List.cons_lt_cons_iff, List.cons_lt_cons_iff,
        ih (Nat.succ.inj size), List.cons.injEq]
      constructor
      · rintro (less | ⟨same, less | ⟨sameFront, less⟩⟩)
        · exact Or.inl (Or.inl less)
        · exact Or.inl (Or.inr ⟨same, less⟩)
        · exact Or.inr ⟨⟨same, sameFront⟩, less⟩
      · rintro ((less | ⟨same, less⟩) | ⟨⟨same, sameFront⟩, less⟩)
        · exact Or.inl less
        · exact Or.inr ⟨same, Or.inl less⟩
        · exact Or.inr ⟨same, Or.inr ⟨sameFront, less⟩⟩

theorem padded_inj {m : Nat} (small : n < 10 ^ width) (otherSmall : m < 10 ^ width) :
    padded width n = padded width m ↔ n = m := by
  constructor
  · intro same
    have values := congrArg value same
    rw [value_padded, value_padded, Nat.mod_eq_of_lt small, Nat.mod_eq_of_lt otherSmall] at values
    exact values
  · exact congrArg (padded width)

theorem padded_lt_iff {m : Nat} (small : n < 10 ^ width) (otherSmall : m < 10 ^ width) :
    padded width n < padded width m ↔ n < m := by
  induction width generalizing n m with
  | zero =>
      rw [Nat.pow_zero, Nat.lt_one_iff] at small otherSmall
      rw [small, otherSmall]
      exact iff_of_false (List.not_lt_nil _) (Nat.lt_irrefl 0)
  | succ width ih =>
      have front : n / 10 < 10 ^ width := by omega
      have otherFront : m / 10 < 10 ^ width := by omega
      have size : (padded width (n / 10)).length = (padded width (m / 10)).length := by
        rw [padded_length, padded_length]
      have lastDigit : [digit n] < [digit m] ↔ n % 10 < m % 10 := by
        rw [List.cons_lt_cons_iff, UInt8.lt_iff_toNat_lt, digit_toNat, digit_toNat]
        simp
      rw [padded_succ, padded_succ, append_lt_append_iff size, ih front otherFront,
        padded_inj front otherFront, lastDigit]
      omega

theorem padded_append_lt_iff {m : Nat} {rest last : List UInt8} (small : n < 10 ^ width)
    (otherSmall : m < 10 ^ width) :
    padded width n ++ rest < padded width m ++ last ↔ n < m ∨ n = m ∧ rest < last := by
  have size : (padded width n).length = (padded width m).length := by
    rw [padded_length, padded_length]
  rw [append_lt_append_iff size, padded_lt_iff small otherSmall, padded_inj small otherSmall]

end ChangeSql.DecimalDigits
