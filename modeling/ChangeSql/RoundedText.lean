/-
The number that `represent_float` denotes.

The digits of a string are cut behind the sixth significant one. What is kept
is counted up by one if what is dropped is a half or more. The carry stops at
a digit that is no nine, in front of the dot or behind it, or passes them all.
-/

import ChangeSql.Library.DecimalRounding
import ChangeSql.RepresentFloat
import Mathlib.Data.List.Induction
import Mathlib.Data.List.TakeWhile

namespace ChangeSql

open DecimalDigits DecimalRounding

structure DecimalText where
  whole : Bytes
  fraction : Option Bytes
  someDigit : whole ≠ []
  wholeDigits : ∀ byte ∈ whole, isDigit byte = true
  fractionDigits : ∀ digits, fraction = some digits → ∀ byte ∈ digits, isDigit byte = true

def significant (digits : Bytes) : Nat :=
  (digits.dropWhile fun byte => byte = zero).length

namespace DecimalText

def tail : Option Bytes → Bytes
  | none => []
  | some digits => dot :: digits

def text (number : DecimalText) : Bytes :=
  number.whole ++ tail number.fraction

def decimals (number : DecimalText) : Bytes :=
  number.fraction.getD []

def digits (number : DecimalText) : Bytes :=
  number.whole ++ number.decimals

def value (number : DecimalText) : ℚ :=
  DecimalDigits.value number.digits / 10 ^ number.decimals.length

end DecimalText

/-! ### Carrying over digits -/

theorem digit_ne_dot {byte : Byte} (digit : isDigit byte = true) : byte ≠ dot := by
  rintro rfl
  cases digit

theorem isDigit_succ {byte : Byte} (digit : isDigit byte = true) (noNine : byte ≠ nine) :
    isDigit (byte + 1) = true ∧ (byte + 1).toNat - 48 = byte.toNat - 48 + 1 := by
  have bounds := isDigit_bounds digit
  have less : byte.toNat ≠ 57 := fun same => noNine (UInt8.toNat_inj.mp same)
  have next : (byte + 1).toNat = byte.toNat + 1 := by
    rw [UInt8.toNat_add]
    change (byte.toNat + 1) % 256 = _
    omega
  unfold isDigit
  rw [decide_eq_true_iff, UInt8.le_iff_toNat_le, UInt8.le_iff_toNat_le, next]
  change (48 ≤ _ ∧ _ ≤ 57) ∧ _
  omega

theorem carryLoop_at (dotPos : Nat) (front post : Bytes) (char : Byte) (finish : Nat) :
    carryLoop dotPos (front.length + 1) (front ++ char :: post) finish =
      if char = dot then
        carryLoop dotPos front.length (front ++ char :: post)
          (if finish = front.length + 1 then finish - 1 else finish)
      else if char = nine then
        if front.length > dotPos then
          carryLoop dotPos front.length (front ++ char :: post) (finish - 1)
        else carryLoop dotPos front.length (front ++ zero :: post) finish
      else ⟨front ++ (char + 1) :: post, finish, false⟩ := by
  have read : (front ++ char :: post).getD front.length 0 = char := by
    rw [List.getD_eq_getElem?_getD, List.getElem?_append_right (Nat.le_refl _), Nat.sub_self]
    rfl
  have written (byte : Byte) : (front ++ char :: post).set front.length byte =
      front ++ byte :: post := by
    rw [List.set_append_right _ _ (Nat.le_refl _), Nat.sub_self]
    rfl
  rw [carryLoop, read, written, written]

def withCarry (carry : Bool) (digits : Bytes) : Bytes :=
  if carry then one :: digits else digits

private theorem withCarry_append (carry : Bool) (digits rest : Bytes) :
    withCarry carry (digits ++ rest) = withCarry carry digits ++ rest := by
  cases carry with
  | false => rfl
  | true => rfl

private theorem withCarry_ne_nil (carry : Bool) {digits : Bytes} (some : digits ≠ []) :
    withCarry carry digits ≠ [] := by
  cases carry with
  | false => exact some
  | true => exact List.cons_ne_nil _ _

theorem isDigit_withCarry (carry : Bool) {digits : Bytes}
    (allDigits : ∀ byte ∈ digits, isDigit byte = true) :
    ∀ byte ∈ withCarry carry digits, isDigit byte = true := by
  cases carry with
  | false => exact allDigits
  | true => exact List.forall_mem_cons.mpr ⟨rfl, allDigits⟩

/-- The digits of the next number, with a one in front if there is a carry. -/
structure CountedUp (digits next : Bytes) (carry : Bool) : Prop where
  size : next.length = digits.length
  allDigits : ∀ byte ∈ next, isDigit byte = true
  value : value (withCarry carry next) = value digits + 1
  nines : carry = true ↔ ∀ byte ∈ digits, byte = nine

private theorem carryLoop_whole (dotPos : Nat) {digits : Bytes}
    (allDigits : ∀ byte ∈ digits, isDigit byte = true) (inside : digits.length ≤ dotPos)
    (post : Bytes) (finish : Nat) :
    ∃ next carry, CountedUp digits next carry ∧
      carryLoop dotPos digits.length (digits ++ post) finish = ⟨next ++ post, finish, carry⟩ := by
  induction digits using List.reverseRecOn generalizing post with
  | nil =>
      refine ⟨[], true, ⟨rfl, nofun, rfl, ?_⟩, rfl⟩
      exact ⟨fun _ => nofun, fun _ => rfl⟩
  | append_singleton digits last ih =>
      have lastDigit : isDigit last = true := allDigits last (by simp)
      have noDot := digit_ne_dot lastDigit
      rw [List.length_append, List.length_singleton] at inside ⊢
      rw [List.append_assoc, List.singleton_append, carryLoop_at, if_neg noDot]
      by_cases isNine : last = nine
      · have before : ¬ digits.length > dotPos := by omega
        obtain ⟨next, carry, counted, ran⟩ := ih
          (fun byte member => allDigits byte (List.mem_append_left _ member)) (by omega)
          (zero :: post)
        rw [if_pos isNine, if_neg before, ran]
        refine ⟨next ++ [zero], carry, ⟨?_, ?_, ?_, ?_⟩, ?_⟩
        · simp [counted.size]
        · intro byte member
          rcases List.mem_append.mp member with earlier | isLast
          · exact counted.allDigits byte earlier
          · rw [List.mem_singleton.mp isLast]
            rfl
        · rw [withCarry_append, value_snoc, counted.value, value_snoc, isNine]
          change 10 * (value digits + 1) + 0 = 10 * value digits + 9 + 1
          omega
        · rw [counted.nines, List.forall_mem_append, List.forall_mem_singleton]
          exact ⟨fun nines => ⟨nines, isNine⟩, fun nines => nines.1⟩
        · rw [List.append_assoc]
          rfl
      · have ⟨nextDigit, counted⟩ := isDigit_succ lastDigit isNine
        rw [if_neg isNine]
        refine ⟨digits ++ [last + 1], false, ⟨?_, ?_, ?_, ?_⟩, ?_⟩
        · simp
        · rw [List.forall_mem_append, List.forall_mem_singleton]
          rw [List.forall_mem_append] at allDigits
          exact ⟨allDigits.1, nextDigit⟩
        · change value (digits ++ [last + 1]) = _
          rw [value_snoc, value_snoc, counted]
          rfl
        · constructor
          · nofun
          · intro nines
            exact absurd (nines last (by simp)) isNine
        · rw [List.append_assoc]
          rfl

/-- Behind the dot the nines are cut off, until a digit can be counted up or
the loop comes to what is in front. -/
theorem carryLoop_fraction (dotPos : Nat) {front : Bytes} (behind : dotPos < front.length)
    {digits : Bytes} (allDigits : ∀ byte ∈ digits, isDigit byte = true) (post : Bytes) :
    ((∀ byte ∈ digits, byte = nine) ∧
      carryLoop dotPos (front.length + digits.length) (front ++ digits ++ post)
          (front.length + digits.length) =
        carryLoop dotPos front.length (front ++ digits ++ post) front.length) ∨
    ((¬ ∀ byte ∈ digits, byte = nine) ∧
      ∃ next rest,
        carryLoop dotPos (front.length + digits.length) (front ++ digits ++ post)
            (front.length + digits.length) =
          ⟨front ++ next ++ rest, front.length + next.length, false⟩ ∧
        (∀ byte ∈ next, isDigit byte = true) ∧
        ∃ cut, digits.length = next.length + cut ∧
          value next * 10 ^ cut = value digits + 1) := by
  induction digits using List.reverseRecOn generalizing post with
  | nil => exact Or.inl ⟨nofun, rfl⟩
  | append_singleton digits last ih =>
      rw [List.forall_mem_append, List.forall_mem_singleton] at allDigits
      have noDot := digit_ne_dot allDigits.2
      have joined : front ++ (digits ++ [last]) ++ post = front ++ digits ++ last :: post := by
        simp
      have size : front.length + (digits ++ [last]).length = (front ++ digits).length + 1 := by
        rw [List.length_append, List.length_append, List.length_singleton, Nat.add_assoc]
      have far : (front ++ digits).length > dotPos := by
        rw [List.length_append]
        omega
      rw [joined, size, carryLoop_at, if_neg noDot, if_pos far, Nat.add_sub_cancel,
        List.forall_mem_append, List.forall_mem_singleton]
      by_cases isNine : last = nine
      · rw [if_pos isNine, List.length_append]
        rcases ih allDigits.1 (last :: post) with
          ⟨nines, ran⟩ | ⟨noNines, next, rest, ran, nextDigits, cut, sizes, counted⟩
        · exact Or.inl ⟨⟨nines, isNine⟩, ran⟩
        · refine Or.inr ⟨fun nines => noNines nines.1, next, rest, ran, nextDigits, cut + 1, ?_, ?_⟩
          · rw [List.length_append, List.length_singleton, sizes, Nat.add_assoc]
          · rw [Nat.pow_succ, ← Nat.mul_assoc, counted, value_snoc, isNine]
            change (value digits + 1) * 10 = 10 * value digits + 9 + 1
            omega
      · have ⟨nextDigit, counted⟩ := isDigit_succ allDigits.2 isNine
        rw [if_neg isNine]
        refine Or.inr ⟨fun nines => isNine nines.2, digits ++ [last + 1], post, ?_, ?_, 0, ?_, ?_⟩
        · simp [Nat.add_assoc]
        · rw [List.forall_mem_append, List.forall_mem_singleton]
          exact ⟨allDigits.1, nextDigit⟩
        · simp
        · rw [Nat.pow_zero, Nat.mul_one, value_snoc, value_snoc, counted]
          rfl

/-! ### The sixth digit -/

def scanned (digits : Bytes) (i dotPos : Nat) : DigitScan :=
  { digitCnt := significant digits
    i := i
    dotPos := dotPos
    leadingZero := digits.all fun byte => byte = zero }

theorem significant_of_zeros {digits : Bytes} (zeros : ∀ byte ∈ digits, byte = zero)
    (rest : Bytes) : significant (digits ++ rest) = significant rest := by
  unfold significant
  rw [List.dropWhile_append_of_pos]
  intro byte member
  exact decide_eq_true (zeros byte member)

theorem significant_append {digits : Bytes} (some : ¬ ∀ byte ∈ digits, byte = zero)
    (rest : Bytes) : significant (digits ++ rest) = significant digits + rest.length := by
  unfold significant
  rw [List.dropWhile_append, if_neg, List.length_append]
  intro none
  rw [List.isEmpty_iff, List.dropWhile_eq_nil_iff] at none
  exact some fun byte member => of_decide_eq_true (none byte member)

private theorem step_scanned (digits : Bytes) (i dotPos : Nat) {char : Byte}
    (digit : isDigit char = true) :
    (scanned digits i dotPos).step char = scanned (digits ++ [char]) (i + 1) dotPos := by
  by_cases zeros : ∀ byte ∈ digits, byte = zero
  · have leading : (digits.all fun byte => byte = zero) = true := by simpa using zeros
    have count : significant (digits ++ [char]) = significant digits + significant [char] := by
      have none := significant_of_zeros zeros []
      rw [significant_of_zeros zeros, ← List.append_nil digits, none]
      exact (Nat.zero_add _).symm
    have stillLeading : ((digits ++ [char]).all fun byte => byte = zero) =
        decide (char = zero) := by
      rw [List.all_append, leading]
      simp
    unfold DigitScan.step scanned
    rw [count, stillLeading]
    by_cases isZero : char = zero
    · simp [leading, isZero, significant]
    · simp [isZero, digit, significant]
  · have leading : (digits.all fun byte => byte = zero) = false := by
      rw [Bool.eq_false_iff]
      simpa using zeros
    unfold DigitScan.step scanned
    rw [significant_append zeros]
    by_cases isZero : char = zero
    · simp [leading, isZero]
    · simp [leading, isZero, digit]

private theorem significant_snoc_le (digits : Bytes) (last : Byte) :
    significant (digits ++ [last]) ≤ significant digits + 1 := by
  by_cases zeros : ∀ byte ∈ digits, byte = zero
  · rw [significant_of_zeros zeros]
    exact ((List.dropWhile_sublist _).length_le).trans (Nat.le_add_left 1 _)
  · rw [significant_append zeros]
    exact Nat.le_refl _

private theorem scanDigits_done {scan : DigitScan} (done : ¬ scan.digitCnt < 6) (rest : Bytes) :
    scanDigits rest scan = scan := by
  cases rest with
  | nil => rfl
  | cons char rest => exact if_neg done

private theorem scanDigits_digits {digits : Bytes}
    (allDigits : ∀ byte ∈ digits, isDigit byte = true)
    (rest earlier : Bytes) (i dotPos : Nat) (few : significant earlier ≤ 6) :
    (∃ front back, digits = front ++ back ∧ significant (earlier ++ front) = 6 ∧
      scanDigits (digits ++ rest) (scanned earlier i dotPos) =
        scanned (earlier ++ front) (i + front.length) dotPos) ∨
    (significant (earlier ++ digits) < 6 ∧
      scanDigits (digits ++ rest) (scanned earlier i dotPos) =
        scanDigits rest (scanned (earlier ++ digits) (i + digits.length) dotPos)) := by
  induction digits generalizing earlier i with
  | nil =>
      rw [List.append_nil]
      rcases Nat.lt_or_eq_of_le few with less | six
      · exact Or.inr ⟨less, rfl⟩
      · refine Or.inl ⟨[], [], rfl, ?_, ?_⟩
        · rw [List.append_nil]
          exact six
        · rw [List.append_nil]
          exact scanDigits_done (Nat.not_lt_of_le six.ge) _
  | cons char digits ih =>
      rw [List.forall_mem_cons] at allDigits
      rcases Nat.lt_or_eq_of_le few with less | six
      · have next : scanDigits (char :: digits ++ rest) (scanned earlier i dotPos) =
            scanDigits (digits ++ rest) (scanned (earlier ++ [char]) (i + 1) dotPos) := by
          rw [← step_scanned earlier i dotPos allDigits.1]
          exact if_pos less
        have bounded := significant_snoc_le earlier char
        have shift (front : Bytes) : i + (char :: front).length = i + 1 + front.length := by
          rw [List.length_cons]
          omega
        rcases ih allDigits.2 (earlier ++ [char]) (i + 1) (by omega) with
          ⟨front, back, split, six, stopped⟩ | ⟨passed, further⟩
        · refine Or.inl ⟨char :: front, back, ?_, ?_, ?_⟩
          · rw [split, List.cons_append]
          · rw [List.append_cons]
            exact six
          · rw [next, stopped, ← List.append_cons, shift]
        · refine Or.inr ⟨?_, ?_⟩
          · rw [List.append_cons]
            exact passed
          · rw [next, further, ← List.append_cons, shift]
      · refine Or.inl ⟨[], char :: digits, rfl, ?_, ?_⟩
        · rw [List.append_nil]
          exact six
        · rw [List.append_nil]
          exact scanDigits_done (Nat.not_lt_of_le six.ge) _

/-! ### What is kept and what is dropped -/

open DecimalText (tail)

def halfOrMore (dropped : Bytes) : Bool :=
  dropped.head?.any atLeastFive

/-- The digits are cut behind the sixth significant one, if there is one. -/
def Cuts (kept dropped : Bytes) : Prop :=
  significant kept = 6 ∨ (significant kept < 6 ∧ dropped = [])

private theorem findDot_digits {dotPos j : Nat} {digits : Bytes}
    (allDigits : ∀ byte ∈ digits, isDigit byte = true) {fraction : Option Bytes}
    (size : fraction = none → dotPos = j + digits.length) :
    findDot dotPos j (digits ++ tail fraction) = j + digits.length := by
  induction digits generalizing j with
  | nil =>
      cases fraction with
      | none => exact size rfl
      | some decimals => rfl
  | cons char digits ih =>
      rw [List.forall_mem_cons] at allDigits
      rw [List.length_cons] at size ⊢
      rw [List.cons_append, findDot, if_neg (digit_ne_dot allDigits.1), ih allDigits.2]
      · omega
      · intro none
        rw [size none]
        omega

theorem roundsUp_append (front rest : Bytes) :
    roundsUp (front ++ rest) front.length = roundsUp rest 0 := by
  induction front with
  | nil => rfl
  | cons first front ih => exact ih

theorem roundsUp_digits {digits : Bytes} (allDigits : ∀ byte ∈ digits, isDigit byte = true)
    (fraction : Option Bytes) :
    roundsUp (digits ++ tail fraction) 0 = halfOrMore (digits ++ fraction.getD []) := by
  cases digits with
  | nil =>
      cases fraction with
      | none => rfl
      | some decimals =>
          cases decimals with
          | nil => rfl
          | cons char decimals => rfl
  | cons char digits =>
      have noDot := digit_ne_dot (allDigits char List.mem_cons_self)
      simp [roundsUp, halfOrMore, noDot]

theorem roundsUp_behind (front : Bytes) {back : Bytes}
    (backDigits : ∀ byte ∈ back, isDigit byte = true) :
    roundsUp (front ++ back) front.length = halfOrMore back := by
  have decides := roundsUp_digits backDigits none
  rw [tail, Option.getD_none, List.append_nil] at decides
  rw [roundsUp_append, decides]

private theorem zeroFill_append (count : Nat) (front rest : Bytes) (inside : count ≤ rest.length) :
    zeroFill count front.length (front ++ rest) =
      front ++ List.replicate count zero ++ rest.drop count := by
  induction count generalizing front rest with
  | zero => simp [zeroFill]
  | succ count ih =>
      cases rest with
      | nil => cases inside
      | cons first rest =>
          have written : (front ++ first :: rest).set front.length zero =
              (front ++ [zero]) ++ rest := by
            rw [List.set_append_right _ _ (Nat.le_refl _), Nat.sub_self, List.append_assoc]
            rfl
          have size : front.length + 1 = (front ++ [zero]).length := by
            rw [List.length_append, List.length_singleton]
          rw [zeroFill, written, size, ih (front ++ [zero]) rest (Nat.le_of_succ_le_succ inside),
            List.replicate_succ, List.append_assoc front]
          rfl

theorem cutAt_whole (front back rest : Bytes) (carry : Bool) {dotPos : Nat}
    (size : dotPos = front.length + back.length) :
    cutAt dotPos ⟨front ++ (back ++ rest), front.length, carry⟩ =
      front ++ List.replicate back.length zero := by
  have before : ¬ front.length > dotPos := by omega
  have count : dotPos - front.length = back.length := by omega
  have inside : back.length ≤ (back ++ rest).length := by
    rw [List.length_append]
    exact Nat.le_add_right _ _
  unfold cutAt
  rw [if_neg before, count, zeroFill_append _ _ _ inside]
  apply List.take_left'
  rw [List.length_append, List.length_replicate, size]

theorem cutAt_fraction {front : Bytes} (rest : Bytes) (carry : Bool) {dotPos : Nat}
    (behind : dotPos < front.length) : cutAt dotPos ⟨front ++ rest, front.length, carry⟩ = front := by
  unfold cutAt
  rw [if_pos behind]
  exact List.take_left

/-! ### The string that is returned -/

def DecimalText.natural (whole : Bytes) (someDigit : whole ≠ [])
    (wholeDigits : ∀ byte ∈ whole, isDigit byte = true) : DecimalText :=
  { whole := whole
    fraction := none
    someDigit := someDigit
    wholeDigits := wholeDigits
    fractionDigits := nofun }

private theorem DecimalText.natural_value {whole : Bytes} (someDigit : whole ≠ [])
    (wholeDigits : ∀ byte ∈ whole, isDigit byte = true) :
    (natural whole someDigit wholeDigits).value = DecimalDigits.value whole := by
  change (DecimalDigits.value (whole ++ []) : ℚ) / 10 ^ 0 = _
  rw [List.append_nil, pow_zero, div_one]

/-- The kept digits, counted up if the others are a half or more, as a number
with the place of the last kept digit. -/
def keptValue (number : DecimalText) (kept dropped : Bytes) : ℚ :=
  ((value kept + (halfOrMore dropped).toNat : ℕ) : ℚ) * 10 ^ dropped.length /
    10 ^ number.decimals.length

structure Rounds (number : DecimalText) (kept dropped : Bytes) : Prop where
  digits : number.digits = kept ++ dropped
  cuts : Cuts kept dropped
  result : ∃ rounded : DecimalText, representFloat number.text = rounded.text ∧
    rounded.value = keptValue number kept dropped
  carry : (carriedDigits number.text).2.carry = true ↔
    halfOrMore dropped = true ∧ ∀ byte ∈ kept, byte = nine

private theorem carriedDigits_eq {n : Bytes} {scan : DigitScan} {dotPos : Nat}
    (scanIs : scanDigits n (.start n.length) = scan) (position : dotPosition n scan = dotPos) :
    carriedDigits n = (dotPos, carryUp dotPos scan.i n) := by
  rw [← position, ← scanIs]
  rfl

theorem representFloat_eq {n : Bytes} {dotPos : Nat} {carried : Carried}
    (both : carriedDigits n = (dotPos, carried)) :
    representFloat n = withCarry carried.carry (cutAt dotPos carried) := by
  unfold representFloat
  rw [both]
  rfl

theorem carryUp_whole {front back : Bytes} (allDigits : ∀ byte ∈ front ++ back, isDigit byte = true)
    (fraction : Option Bytes) {dotPos : Nat} (size : dotPos = front.length + back.length) :
    ∃ next carry,
      carryUp dotPos front.length (front ++ (back ++ tail fraction)) =
        ⟨next ++ (back ++ tail fraction), next.length, carry⟩ ∧
      next.length = front.length ∧ (∀ byte ∈ next, isDigit byte = true) ∧
      value (withCarry carry next) =
        value front + (halfOrMore (back ++ fraction.getD [])).toNat ∧
      (carry = true ↔
        halfOrMore (back ++ fraction.getD []) = true ∧ ∀ byte ∈ front, byte = nine) := by
  rw [List.forall_mem_append] at allDigits
  have up := roundsUp_append front (back ++ tail fraction)
  rw [roundsUp_digits allDigits.2] at up
  unfold carryUp
  rw [up]
  cases halfOrMore (back ++ fraction.getD []) with
  | false => exact ⟨front, false, rfl, rfl, allDigits.1, rfl, by simp⟩
  | true =>
      obtain ⟨next, carry, counted, ran⟩ := carryLoop_whole dotPos allDigits.1 (by omega)
        (back ++ tail fraction) front.length
      refine ⟨next, carry, ?_, counted.size, counted.allDigits, counted.value, ?_⟩
      · rw [if_pos rfl, ran, counted.size]
      · rw [counted.nines]
        exact ⟨fun nines => ⟨rfl, nines⟩, fun both => both.2⟩

private theorem value_zeros (digits : Bytes) (count : Nat) :
    value (digits ++ List.replicate count zero) = value digits * 10 ^ count := by
  induction count with
  | zero => simp
  | succ count ih =>
      rw [List.replicate_succ', ← List.append_assoc, value_snoc, ih, Nat.pow_succ']
      change 10 * _ + 0 = _
      rw [Nat.add_zero, Nat.mul_left_comm]

theorem carriedDigits_whole (number : DecimalText) {front back : Bytes}
    (split : number.whole = front ++ back)
    (scan : scanDigits number.text (.start number.text.length) =
      scanned front front.length number.text.length) :
    carriedDigits number.text =
      (front.length + back.length,
        carryUp (front.length + back.length) front.length
          (front ++ (back ++ tail number.fraction))) := by
  have text : number.text = front ++ (back ++ tail number.fraction) := by
    unfold DecimalText.text
    rw [split, List.append_assoc]
  have allDigits : ∀ byte ∈ front ++ back, isDigit byte = true := split ▸ number.wholeDigits
  have position : dotPosition number.text (scanned front front.length number.text.length) =
      front.length + back.length := by
    have unseen : (scanned front front.length number.text.length).dotPos = number.text.length := rfl
    unfold dotPosition
    rw [if_pos unseen]
    change findDot number.text.length front.length (number.text.drop front.length) = _
    rw [text, List.drop_left]
    rw [List.forall_mem_append] at allDigits
    apply findDot_digits allDigits.2
    intro none
    rw [none, List.length_append, List.length_append]
    rfl
  rw [carriedDigits_eq scan position, ← text]
  rfl

private theorem rounds_whole (number : DecimalText) {front back : Bytes}
    (split : number.whole = front ++ back) (cuts : Cuts front (back ++ number.decimals))
    (scan : scanDigits number.text (.start number.text.length) =
      scanned front front.length number.text.length) :
    Rounds number front (back ++ number.decimals) := by
  have allDigits : ∀ byte ∈ front ++ back, isDigit byte = true := split ▸ number.wholeDigits
  obtain ⟨next, carry, carried, size, nextDigits, counted, carries⟩ :=
    carryUp_whole allDigits number.fraction rfl
  have both := carriedDigits_whole number split scan
  rw [carried] at both
  have resultIs : representFloat number.text =
      withCarry carry (next ++ List.replicate back.length zero) := by
    rw [representFloat_eq both, cutAt_whole next back _ carry (by rw [size])]
  have someDigit : withCarry carry (next ++ List.replicate back.length zero) ≠ [] := by
    apply withCarry_ne_nil
    intro none
    have lengths := congrArg List.length none
    rw [List.length_append, List.length_replicate, size, List.length_nil] at lengths
    apply number.someDigit
    rw [← List.length_eq_zero_iff, split, List.length_append]
    exact lengths
  have zeroDigits : ∀ byte ∈ List.replicate back.length zero, isDigit byte = true := by
    intro byte member
    rw [List.eq_of_mem_replicate member]
    rfl
  have resultDigits :=
    isDigit_withCarry carry (List.forall_mem_append.mpr ⟨nextDigits, zeroDigits⟩)
  refine ⟨?_, cuts, ⟨.natural _ someDigit resultDigits, ?_, ?_⟩, ?_⟩
  · unfold DecimalText.digits
    rw [split, List.append_assoc]
  · rw [resultIs]
    exact (List.append_nil _).symm
  · have unit : (10 : ℚ) ^ number.decimals.length ≠ 0 := pow_ne_zero _ (by norm_num)
    unfold keptValue
    rw [DecimalText.natural_value, withCarry_append, value_zeros, counted, List.length_append,
      pow_add,
      ← mul_assoc, mul_div_cancel_right₀ _ unit]
    push_cast
    rfl
  · rw [both]
    exact carries

private theorem value_nines {digits : Bytes} (nines : ∀ byte ∈ digits, byte = nine) :
    value digits + 1 = 10 ^ digits.length := by
  induction digits using List.reverseRecOn with
  | nil => rfl
  | append_singleton digits last ih =>
      rw [List.forall_mem_append, List.forall_mem_singleton] at nines
      rw [value_snoc, nines.2, List.length_append, List.length_singleton, Nat.pow_succ,
        ← ih nines.1]
      change 10 * value digits + 9 + 1 = _
      omega

theorem carryUp_fraction {whole front back : Bytes}
    (wholeDigits : ∀ byte ∈ whole, isDigit byte = true)
    (frontDigits : ∀ byte ∈ front, isDigit byte = true)
    (backDigits : ∀ byte ∈ back, isDigit byte = true) :
    (¬ (halfOrMore back = true ∧ ∀ byte ∈ front, byte = nine) ∧
      ∃ next rest cut,
        carryUp whole.length (whole ++ [dot] ++ front).length (whole ++ [dot] ++ front ++ back) =
          ⟨whole ++ [dot] ++ next ++ rest, (whole ++ [dot] ++ next).length, false⟩ ∧
        (∀ byte ∈ next, isDigit byte = true) ∧ front.length = next.length + cut ∧
        value next * 10 ^ cut = value front + (halfOrMore back).toNat) ∨
    ((halfOrMore back = true ∧ ∀ byte ∈ front, byte = nine) ∧
      ∃ next carry, CountedUp whole next carry ∧
        carryUp whole.length (whole ++ [dot] ++ front).length (whole ++ [dot] ++ front ++ back) =
          ⟨next ++ (dot :: front ++ back), next.length, carry⟩) := by
  have up := roundsUp_behind (whole ++ [dot] ++ front) backDigits
  have behind : whole.length < (whole ++ [dot]).length := by
    rw [List.length_append]
    exact Nat.lt_succ_self _
  have size (next : Bytes) : (whole ++ [dot]).length + next.length =
      (whole ++ [dot] ++ next).length := List.length_append.symm
  unfold carryUp
  rw [up]
  cases halfOrMore back with
  | false =>
      refine Or.inl ⟨nofun, front, back, 0, rfl, frontDigits, rfl, ?_⟩
      rw [Nat.pow_zero, Nat.mul_one]
      rfl
  | true =>
      rw [if_pos rfl, ← size]
      rcases carryLoop_fraction whole.length behind frontDigits back with
        ⟨nines, ran⟩ | ⟨noNines, next, rest, ran, nextDigits, cut, sizes, counted⟩
      · obtain ⟨next, carry, counted, further⟩ := carryLoop_whole whole.length wholeDigits
          (Nat.le_refl _) (dot :: front ++ back) whole.length
        refine Or.inr ⟨⟨rfl, nines⟩, next, carry, counted, ?_⟩
        have shape : whole ++ [dot] ++ front ++ back = whole ++ dot :: (front ++ back) := by simp
        rw [ran, shape, List.length_append, List.length_singleton, carryLoop_at, if_pos rfl,
          if_pos rfl, Nat.add_sub_cancel, counted.size]
        exact further
      · refine Or.inl ⟨fun both => noNines both.2, next, rest, cut, ?_, nextDigits, sizes, counted⟩
        rw [ran, size]

theorem DecimalText.text_fraction {number : DecimalText} {front back : Bytes}
    (fraction : number.fraction = some (front ++ back)) :
    number.text = number.whole ++ [dot] ++ front ++ back := by
  unfold DecimalText.text
  rw [fraction]
  simp [tail]

theorem carriedDigits_fraction (number : DecimalText) {front back : Bytes}
    (fraction : number.fraction = some (front ++ back))
    (scan : scanDigits number.text (.start number.text.length) =
      scanned (number.whole ++ front) (number.whole ++ [dot] ++ front).length
        number.whole.length) :
    carriedDigits number.text =
      (number.whole.length,
        carryUp number.whole.length (number.whole ++ [dot] ++ front).length
          (number.whole ++ [dot] ++ front ++ back)) := by
  have text := number.text_fraction fraction
  have position : dotPosition number.text (scanned (number.whole ++ front)
      (number.whole ++ [dot] ++ front).length number.whole.length) = number.whole.length := by
    have seen : number.whole.length ≠ number.text.length := by
      rw [text]
      simp
    exact if_neg seen
  rw [carriedDigits_eq scan position, ← text]
  rfl

private theorem rounds_fraction (number : DecimalText) {front back : Bytes}
    (fraction : number.fraction = some (front ++ back)) (cuts : Cuts (number.whole ++ front) back)
    (scan : scanDigits number.text (.start number.text.length) =
      scanned (number.whole ++ front) (number.whole ++ [dot] ++ front).length
        number.whole.length) :
    Rounds number (number.whole ++ front) back := by
  have decimals : number.decimals = front ++ back := by
    unfold DecimalText.decimals
    rw [fraction]
    rfl
  have allDigits := number.fractionDigits _ fraction
  rw [List.forall_mem_append] at allDigits
  have kept : keptValue number (number.whole ++ front) back =
      ((value (number.whole ++ front) + (halfOrMore back).toNat : ℕ) : ℚ) / 10 ^ front.length := by
    have unit : (10 : ℚ) ^ back.length ≠ 0 := pow_ne_zero _ (by norm_num)
    unfold keptValue
    rw [decimals, List.length_append, pow_add, mul_div_mul_right _ _ unit]
  have both := carriedDigits_fraction number fraction scan
  have digits : number.digits = number.whole ++ front ++ back := by
    unfold DecimalText.digits
    rw [decimals, List.append_assoc]
  rcases carryUp_fraction number.wholeDigits allDigits.1 allDigits.2 with
    ⟨below, next, rest, cut, carried, nextDigits, sizes, counted⟩ |
      ⟨above, next, carry, counted, carried⟩
  · rw [carried] at both
    refine ⟨digits, cuts, ⟨⟨number.whole, some next, number.someDigit, number.wholeDigits, ?_⟩,
      ?_, ?_⟩, ?_⟩
    · rintro digits ⟨rfl⟩
      exact nextDigits
    · rw [representFloat_eq both, cutAt_fraction]
      · exact List.append_assoc _ _ _
      · rw [List.append_assoc, List.length_append]
        exact Nat.lt_add_of_pos_right (Nat.succ_pos _)
    · have scaled : value (number.whole ++ front) + (halfOrMore back).toNat =
          value (number.whole ++ next) * 10 ^ cut := by
        rw [value_append, value_append, Nat.add_assoc, ← counted, sizes, Nat.pow_add, Nat.add_mul,
          Nat.mul_assoc]
      have unit : (10 : ℚ) ^ cut ≠ 0 := pow_ne_zero _ (by norm_num)
      rw [kept, scaled, sizes, pow_add]
      push_cast
      rw [mul_div_mul_right _ _ unit]
      rfl
    · rw [both]
      constructor
      · nofun
      · intro up
        rw [List.forall_mem_append] at up
        exact absurd ⟨up.1, up.2.2⟩ below
  · rw [carried] at both
    have resultIs : representFloat number.text = withCarry carry next := by
      have cut := cutAt_whole next [] (dot :: front ++ back) carry counted.size.symm
      rw [List.nil_append, List.length_nil, List.replicate_zero, List.append_nil] at cut
      rw [representFloat_eq both, cut]
    have next_ne_nil : next ≠ [] := by
      intro none
      apply number.someDigit
      rw [← List.length_eq_zero_iff, ← counted.size, none, List.length_nil]
    have someDigit := withCarry_ne_nil carry next_ne_nil
    have resultDigits := isDigit_withCarry carry counted.allDigits
    refine ⟨digits, cuts, ⟨.natural _ someDigit resultDigits, ?_, ?_⟩, ?_⟩
    · rw [resultIs]
      exact (List.append_nil _).symm
    · have scaled : value (number.whole ++ front) + (halfOrMore back).toNat =
          (value number.whole + 1) * 10 ^ front.length := by
        rw [above.1, value_append, Bool.toNat_true, Nat.add_assoc, value_nines above.2,
          Nat.add_mul, Nat.one_mul]
      have unit : (10 : ℚ) ^ front.length ≠ 0 := pow_ne_zero _ (by norm_num)
      rw [kept, scaled, DecimalText.natural_value, counted.value]
      push_cast
      rw [mul_div_cancel_right₀ _ unit]
    · rw [both]
      change carry = true ↔ _
      rw [counted.nines, List.forall_mem_append]
      exact ⟨fun nines => ⟨above.1, nines, above.2⟩, fun all => all.2.1⟩

/-- Where the scan stops: at the sixth significant digit, in front of the dot
or behind it, or at the end. -/
inductive Stops (number : DecimalText) : Bytes → Bytes → Prop where
  | whole {front back : Bytes} (split : number.whole = front ++ back)
      (cuts : significant front = 6 ∨
        (significant front < 6 ∧ back = [] ∧ number.fraction = none))
      (scan : scanDigits number.text (.start number.text.length) =
        scanned front front.length number.text.length) :
      Stops number front (back ++ number.decimals)
  | fraction {front back : Bytes} (passed : significant number.whole < 6)
      (fraction : number.fraction = some (front ++ back))
      (cuts : Cuts (number.whole ++ front) back)
      (scan : scanDigits number.text (.start number.text.length) =
        scanned (number.whole ++ front) (number.whole ++ [dot] ++ front).length
          number.whole.length) :
      Stops number (number.whole ++ front) back

theorem exists_stops (number : DecimalText) : ∃ kept dropped, Stops number kept dropped := by
  have start : DigitScan.start number.text.length = scanned [] 0 number.text.length := rfl
  rcases scanDigits_digits number.wholeDigits (tail number.fraction) [] 0 number.text.length
    (Nat.zero_le 6) with ⟨front, back, split, six, stopped⟩ | ⟨passed, further⟩
  · refine ⟨front, _, .whole split (Or.inl six) ?_⟩
    rw [Nat.zero_add] at stopped
    exact stopped
  · rw [List.nil_append, Nat.zero_add] at further
    cases fraction : number.fraction with
    | none =>
        refine ⟨number.whole, _, .whole (List.append_nil _).symm
          (Or.inr ⟨passed, rfl, fraction⟩) ?_⟩
        rw [start]
        refine further.trans ?_
        rw [fraction]
        rfl
    | some decimals =>
        have atDot : scanDigits number.text (.start number.text.length) =
            scanDigits (decimals ++ []) (scanned number.whole (number.whole.length + 1)
              number.whole.length) := by
          rw [start, List.append_nil]
          refine further.trans ?_
          rw [fraction]
          exact if_pos passed
        rcases scanDigits_digits (number.fractionDigits _ fraction) [] number.whole
            (number.whole.length + 1) number.whole.length passed.le with
          ⟨front, back, split, six, stopped⟩ | ⟨few, further⟩
        · refine ⟨_, _, .fraction passed (fraction.trans (congrArg some split))
            (Or.inl six) ?_⟩
          rw [atDot, stopped, List.length_append, List.length_append]
          rfl
        · have whole : number.fraction = some (decimals ++ []) := by
            rw [fraction, List.append_nil]
          refine ⟨_, _, .fraction passed whole (Or.inr ⟨few, rfl⟩) ?_⟩
          rw [atDot, further, List.length_append, List.length_append]
          rfl

theorem Stops.rounds {number : DecimalText} {kept dropped : Bytes}
    (stops : Stops number kept dropped) : Rounds number kept dropped := by
  cases stops with
  | whole split cuts scan =>
      apply rounds_whole number split _ scan
      rcases cuts with six | ⟨few, none, noDot⟩
      · exact Or.inl six
      · refine Or.inr ⟨few, ?_⟩
        unfold DecimalText.decimals
        rw [none, noDot]
        rfl
  | fraction _ fraction cuts scan => exact rounds_fraction number fraction cuts scan

private theorem exists_rounds (number : DecimalText) :
    ∃ kept dropped, Rounds number kept dropped := by
  rcases exists_stops number with ⟨kept, dropped, stops⟩
  exact ⟨kept, dropped, stops.rounds⟩

/-! ### Six significant digits -/

private theorem value_dropZeros (digits : Bytes) :
    value (digits.dropWhile fun byte => byte = zero) = value digits := by
  induction digits with
  | nil => rfl
  | cons first digits ih =>
      by_cases isZero : first = zero
      · have skipped : (first :: digits).dropWhile (fun byte => byte = zero) =
            digits.dropWhile fun byte => byte = zero :=
          List.dropWhile_cons_of_pos (decide_eq_true isZero)
        rw [skipped, ih, value_cons, isZero]
        change _ = 0 * _ + _
        rw [Nat.zero_mul, Nat.zero_add]
      · rw [List.dropWhile_cons_of_neg (by simpa using isZero)]

private theorem value_lt_significant {digits : Bytes}
    (allDigits : ∀ byte ∈ digits, isDigit byte = true) :
    value digits < 10 ^ significant digits := by
  rw [← value_dropZeros]
  apply value_lt
  intro byte member
  exact allDigits byte ((List.dropWhile_sublist _).mem member)

private theorem le_value_significant {digits : Bytes}
    (allDigits : ∀ byte ∈ digits, isDigit byte = true)
    {size : Nat} (sizeIs : significant digits = size + 1) : 10 ^ size ≤ value digits := by
  rw [← value_dropZeros]
  unfold significant at sizeIs
  cases rest : digits.dropWhile fun byte => byte = zero with
  | nil =>
      rw [rest] at sizeIs
      cases sizeIs
  | cons first others =>
      rw [rest, List.length_cons, Nat.add_right_cancel_iff] at sizeIs
      have inside : first ∈ digits := (List.dropWhile_sublist _).mem (rest ▸ List.mem_cons_self)
      have bounds := isDigit_bounds (allDigits first inside)
      have noZero : first ≠ zero := by
        have some : digits.dropWhile (fun byte => byte = zero) ≠ [] := by
          rw [rest]
          exact List.cons_ne_nil _ _
        have stopped := List.head_dropWhile_not _ some
        simpa [rest] using stopped
      have different : first.toNat ≠ 48 := fun same => noZero (UInt8.toNat_inj.mp same)
      rw [← sizeIs]
      exact le_value others (by omega)

/-- The first digit that is dropped says on which side of a half the rest is. -/
theorem half_le_iff {dropped : Bytes} (allDigits : ∀ byte ∈ dropped, isDigit byte = true) :
    (1 : ℚ) / 2 ≤ value dropped / 10 ^ dropped.length ↔ halfOrMore dropped = true := by
  have unit : (0 : ℚ) < 10 ^ dropped.length := pow_pos (by norm_num) _
  rw [div_le_div_iff₀ (by norm_num) unit]
  cases dropped with
  | nil => simp [value, halfOrMore]
  | cons first others =>
      rw [List.forall_mem_cons] at allDigits
      have bounds := isDigit_bounds allDigits.1
      have small := value_lt allDigits.2
      have isHalf : halfOrMore (first :: others) = true ↔ 5 ≤ first.toNat - 48 := by
        unfold halfOrMore
        rw [List.head?_cons, Option.any_some, atLeastFive, decide_eq_true_iff,
          UInt8.le_iff_toNat_le, UInt8.lt_iff_toNat_lt]
        change 53 ≤ _ ∧ _ < 128 ↔ _
        omega
      rw [isHalf]
      norm_cast
      rw [value_cons, List.length_cons, Nat.pow_succ]
      constructor
      · intro half
        by_contra low
        have few : (first.toNat - 48) * 10 ^ others.length ≤ 4 * 10 ^ others.length :=
          Nat.mul_le_mul_right _ (by omega)
        omega
      · intro high
        have many : 5 * 10 ^ others.length ≤ (first.toNat - 48) * 10 ^ others.length :=
          Nat.mul_le_mul_right _ high
        omega

theorem DecimalText.isDigit_digits (number : DecimalText) :
    ∀ byte ∈ number.digits, isDigit byte = true := by
  refine List.forall_mem_append.mpr ⟨number.wholeDigits, ?_⟩
  unfold decimals
  cases fraction : number.fraction with
  | none => nofun
  | some digits => exact number.fractionDigits digits fraction

private theorem roundSignificant_value (number : DecimalText)
    (few : significant number.digits ≤ 6) :
    roundSignificant 6 number.value = number.value := by
  have small : value number.digits < 10 ^ (5 + 1) :=
    Nat.lt_of_lt_of_le (value_lt_significant number.isDigit_digits) (Nat.pow_le_pow_right (by decide) few)
  have scaled : number.value = value number.digits * 10 ^ (-(number.decimals.length : ℤ)) := by
    rw [zpow_neg, zpow_natCast, ← div_eq_mul_inv]
    rfl
  rw [scaled]
  exact roundSignificant_short _ small

/-- The digits that are kept, counted up or not, are the rounded value. -/
theorem Rounds.keptValue_eq {number : DecimalText} {kept dropped : Bytes}
    (rounds : Rounds number kept dropped) :
    keptValue number kept dropped = roundSignificant 6 number.value := by
  have allDigits := rounds.digits ▸ number.isDigit_digits
  rw [List.forall_mem_append] at allDigits
  have unit : (10 : ℚ) ^ dropped.length ≠ 0 := pow_ne_zero _ (by norm_num)
  rcases rounds.cuts with six | ⟨few, none⟩
  · have least : 10 ^ 5 ≤ value kept := le_value_significant allDigits.1 six
    have less := value_lt_significant allDigits.1
    rw [six] at less
    have small : (value dropped : ℚ) / 10 ^ dropped.length < 1 := by
      rw [div_lt_one (pow_pos (by norm_num) _)]
      exact_mod_cast value_lt allDigits.2
    have nonneg : (0 : ℚ) ≤ value dropped / 10 ^ dropped.length :=
      div_nonneg (Nat.cast_nonneg _) (pow_nonneg (by norm_num) _)
    have split : number.value = (value kept + value dropped / 10 ^ dropped.length) *
        10 ^ ((dropped.length : ℤ) - number.decimals.length) := by
      unfold DecimalText.value
      rw [rounds.digits, value_append, zpow_sub₀ (by norm_num), zpow_natCast, zpow_natCast]
      push_cast
      field_simp
    rw [split, roundSignificant_eq _ least less nonneg small]
    unfold keptValue
    rw [zpow_sub₀ (by norm_num), zpow_natCast, zpow_natCast, ← mul_div_assoc]
    congr 2
    rw [if_congr (half_le_iff allDigits.2) rfl rfl]
    cases halfOrMore dropped with
    | false => simp
    | true => simp
  · have digits := rounds.digits
    rw [none, List.append_nil] at digits
    rw [roundSignificant_value number (by rw [digits]; exact few.le), none]
    unfold keptValue DecimalText.value
    rw [digits]
    simp [halfOrMore]

/-- The result is again such a string, and its value is that of the string
rounded half up to six significant digits, which is the value itself where the
string has no more. -/
theorem representFloat_rounds (number : DecimalText) :
    ∃ rounded : DecimalText, representFloat number.text = rounded.text ∧
      rounded.value = roundSignificant 6 number.value ∧
      (significant number.digits ≤ 6 → rounded.value = number.value) := by
  obtain ⟨kept, dropped, rounds⟩ := exists_rounds number
  obtain ⟨rounded, same, valueIs⟩ := rounds.result
  have rightValue : rounded.value = roundSignificant 6 number.value :=
    valueIs.trans rounds.keptValue_eq
  refine ⟨rounded, same, rightValue, ?_⟩
  intro few
  rw [rightValue, roundSignificant_value number few]

example : representFloat (ascii "99.99995") = ascii "100" := by decide

/-! ### A sign in front -/

/-- Six nines in front of a digit that rounds them up. -/
def NinesUp (digits : Bytes) : Prop :=
  ∃ next, digits.take 7 = List.replicate 6 nine ++ [next] ∧ five ≤ next

private theorem significant_of_first {digits : Bytes}
    (first : ∀ byte, digits.head? = some byte → byte ≠ zero) :
    significant digits = digits.length := by
  cases digits with
  | nil => rfl
  | cons byte digits =>
      unfold significant
      rw [List.dropWhile_cons_of_neg (by simpa using first byte rfl)]

private theorem Rounds.carry_iff {number : DecimalText} {kept dropped : Bytes}
    (rounds : Rounds number kept dropped) :
    (carriedDigits number.text).2.carry = true ↔ NinesUp number.digits := by
  have allDigits := rounds.digits ▸ number.isDigit_digits
  rw [List.forall_mem_append] at allDigits
  rw [rounds.carry, rounds.digits]
  constructor
  · rintro ⟨half, nines⟩
    cases dropped with
    | nil => cases half
    | cons next others =>
        have size : significant kept = kept.length := by
          apply significant_of_first
          intro byte isFirst
          rw [nines byte (List.mem_of_head? isFirst)]
          decide
        have six : kept.length = 6 := by
          rcases rounds.cuts with six | ⟨_, none⟩
          · exact size.symm.trans six
          · cases none
        have keptIs := List.eq_replicate_iff.mpr ⟨six, nines⟩
        refine ⟨next, ?_, ?_⟩
        · rw [keptIs]
          rfl
        · unfold halfOrMore atLeastFive at half
          rw [List.head?_cons, Option.any_some, decide_eq_true_iff] at half
          exact half.1
  · rintro ⟨next, taken, high⟩
    have sizes := congrArg List.length taken
    rw [List.length_take] at sizes
    change min 7 (kept ++ dropped).length = 7 at sizes
    have size : significant kept = kept.length := by
      apply significant_of_first
      intro byte isFirst
      cases kept with
      | nil => cases isFirst
      | cons first kept =>
          cases isFirst
          rw [(List.cons.inj taken).1]
          decide
    have six : kept.length = 6 := by
      rcases rounds.cuts with six | ⟨few, none⟩
      · exact size.symm.trans six
      · rw [none, List.append_nil] at sizes
        omega
    rw [List.take_append, List.take_of_length_le (by omega), six] at taken
    obtain ⟨keptIs, droppedIs⟩ := List.append_inj taken (six.trans List.length_replicate.symm)
    cases dropped with
    | nil => cases droppedIs
    | cons first others =>
        have same : first = next := (List.cons.inj droppedIs).1
        have bounds := isDigit_bounds (allDigits.2 first List.mem_cons_self)
        refine ⟨?_, fun byte member => List.eq_of_mem_replicate (keptIs ▸ member)⟩
        unfold halfOrMore atLeastFive
        rw [List.head?_cons, Option.any_some, decide_eq_true_iff, same]
        refine ⟨high, ?_⟩
        rw [← same, UInt8.lt_iff_toNat_lt]
        exact Nat.lt_of_le_of_lt bounds.2 (by decide)

/-- The sign is kept unless six nines in front are rounded up. -/
theorem representFloat_minus_text_iff (number : DecimalText) :
    representFloat (minus :: number.text) = minus :: representFloat number.text ↔
      ¬ NinesUp number.digits := by
  obtain ⟨kept, dropped, rounds⟩ := exists_rounds number
  rw [representFloat_minus_iff, ← rounds.carry_iff, Bool.not_eq_true]

def ninesText : DecimalText :=
  { whole := List.replicate 6 nine
    fraction := some [five]
    someDigit := List.cons_ne_nil _ _
    wholeDigits := by decide
    fractionDigits := by
      rintro digits ⟨rfl⟩
      decide }

/-- `-999999.5` becomes `.000000`. -/
theorem representFloat_not_minus_ninesText :
    representFloat (minus :: ninesText.text) ≠ minus :: representFloat ninesText.text := by
  decide

end ChangeSql
