/-
Six significant digits of a decimal string, `represent_float` of `utils.cpp`.

The positions are natural numbers. The `int`s of the source hold them as long
as the string has less than 2^31 bytes, and `end_iter`, which goes down to -1,
is the argument of `carryLoop` less one.
-/

import ChangeSql.FloatText

namespace ChangeSql

open DecimalDigits

abbrev zero : Byte := 48
abbrev one : Byte := 49
abbrev five : Byte := 53
abbrev nine : Byte := 57

structure DigitScan where
  digitCnt : Nat
  i : Nat
  dotPos : Nat
  leadingZero : Bool
  deriving DecidableEq, Repr

def DigitScan.start (size : Nat) : DigitScan :=
  { digitCnt := 0
    i := 0
    dotPos := size
    leadingZero := true }

def DigitScan.step (scan : DigitScan) (char : Byte) : DigitScan :=
  if char = zero then
    { scan with
      digitCnt := if scan.leadingZero then scan.digitCnt else scan.digitCnt + 1
      i := scan.i + 1 }
  else if isDigit char then
    { scan with
      digitCnt := scan.digitCnt + 1
      leadingZero := false
      i := scan.i + 1 }
  else if char = dot then
    { scan with
      dotPos := scan.i
      i := scan.i + 1 }
  else { scan with i := scan.i + 1 }

/-- The loop that looks for the sixth digit, on what is left of the string. -/
def scanDigits : Bytes → DigitScan → DigitScan
  | [], scan => scan
  | char :: rest, scan =>
      if scan.digitCnt < 6 then scanDigits rest (scan.step char) else scan

/-- The loop that looks for a dot from position `j` on. -/
def findDot (dotPos j : Nat) : Bytes → Nat
  | [] => dotPos
  | char :: rest => if char = dot then j else findDot dotPos (j + 1) rest

/-- `n[i] >= '5'`, where `char` is signed. -/
def atLeastFive (char : Byte) : Bool :=
  five ≤ char ∧ char < 128

/-- The condition under which the digits in front of `i` are counted up. -/
def roundsUp (n : Bytes) (i : Nat) : Bool :=
  n[i]?.any atLeastFive || (n[i]? = some dot && n[i + 1]?.any atLeastFive)

structure Carried where
  n : Bytes
  finish : Nat
  carry : Bool
  deriving DecidableEq, Repr

/-- The loop that carries a one into the string, for the positions in front of
its first number. A nine is zeroed in front of the dot and cut off behind it. -/
def carryLoop (dotPos : Nat) : Nat → Bytes → Nat → Carried
  | 0, n, finish => ⟨n, finish, true⟩
  | endIter + 1, n, finish =>
      let char := n.getD endIter 0
      if char = dot then
        carryLoop dotPos endIter n (if finish = endIter + 1 then finish - 1 else finish)
      else if char = nine then
        if endIter > dotPos then carryLoop dotPos endIter n (finish - 1)
        else carryLoop dotPos endIter (n.set endIter zero) finish
      else ⟨n.set endIter (char + 1), finish, false⟩

/-- The loop that writes zeros from position `t` on. -/
def zeroFill : Nat → Nat → Bytes → Bytes
  | 0, _, n => n
  | count + 1, t, n => zeroFill count (t + 1) (n.set t zero)

/-- The string without what is behind the last place. -/
def cutAt (dotPos : Nat) (carried : Carried) : Bytes :=
  if carried.finish > dotPos then carried.n.take carried.finish
  else (zeroFill (dotPos - carried.finish) carried.finish carried.n).take dotPos

/-- The position of the dot, or the size of a string without one. -/
def dotPosition (n : Bytes) (scan : DigitScan) : Nat :=
  if scan.dotPos = n.length then findDot scan.dotPos scan.i (n.drop scan.i) else scan.dotPos

/-- The string with its first `i` bytes counted up if what follows says so. -/
def carryUp (dotPos i : Nat) (n : Bytes) : Carried :=
  if roundsUp n i then carryLoop dotPos i n i else ⟨n, i, false⟩

def carriedDigits (n : Bytes) : Nat × Carried :=
  let scan := scanDigits n (.start n.length)
  (dotPosition n scan, carryUp (dotPosition n scan) scan.i n)

def representFloat (numberStr : Bytes) : Bytes :=
  let (dotPos, carried) := carriedDigits numberStr
  let n := cutAt dotPos carried
  if carried.carry then one :: n else n

/-! ### A sign in front -/

def DigitScan.shift (scan : DigitScan) : DigitScan :=
  { scan with
    i := scan.i + 1
    dotPos := scan.dotPos + 1 }

private theorem DigitScan.step_shift (scan : DigitScan) (char : Byte) :
    scan.shift.step char = (scan.step char).shift := by
  unfold step
  split
  · rfl
  · split
    · rfl
    · split
      · rfl
      · rfl

private theorem scanDigits_shift (n : Bytes) (scan : DigitScan) :
    scanDigits n scan.shift = (scanDigits n scan).shift := by
  induction n generalizing scan with
  | nil => rfl
  | cons char rest ih =>
      have count : scan.shift.digitCnt = scan.digitCnt := rfl
      unfold scanDigits
      rw [count, scan.step_shift, ih]
      split
      · rfl
      · rfl

private theorem scanDigits_minus (n : Bytes) :
    scanDigits (minus :: n) (.start (minus :: n).length) = (scanDigits n (.start n.length)).shift :=
  scanDigits_shift n (.start n.length)

private theorem findDot_shift (dotPos j : Nat) (n : Bytes) :
    findDot (dotPos + 1) (j + 1) n = findDot dotPos j n + 1 := by
  induction n generalizing j with
  | nil => rfl
  | cons char rest ih =>
      unfold findDot
      rw [ih]
      split
      · rfl
      · rfl

private theorem roundsUp_cons (first : Byte) (n : Bytes) (i : Nat) :
    roundsUp (first :: n) (i + 1) = roundsUp n i :=
  rfl

/-- The carry loop does not reach the byte in front unless it passes all
others. It then counts that byte up. -/
theorem carryLoop_cons {first : Byte} (noDot : first ≠ dot) (noNine : first ≠ nine)
    (dotPos : Nat) {k finish : Nat} (inside : k ≤ finish) (n : Bytes) :
    carryLoop (dotPos + 1) (k + 1) (first :: n) (finish + 1) =
      let carried := carryLoop dotPos k n finish
      ⟨(if carried.carry then first + 1 else first) :: carried.n, carried.finish + 1, false⟩ := by
  induction k generalizing n finish with
  | zero =>
      unfold carryLoop
      simp [noDot, noNine]
  | succ k ih =>
      have char : (first :: n).getD (k + 1) 0 = n.getD k 0 := rfl
      unfold carryLoop
      dsimp only
      rw [char]
      by_cases isDot : n.getD k 0 = dot
      · have moved : (if finish + 1 = k + 1 + 1 then finish + 1 - 1 else finish + 1) =
            (if finish = k + 1 then finish - 1 else finish) + 1 := by
          split_ifs <;> omega
        have further : k ≤ if finish = k + 1 then finish - 1 else finish := by
          split_ifs <;> omega
        rw [if_pos isDot, if_pos isDot, moved, ih further]
      · rw [if_neg isDot, if_neg isDot]
        by_cases isNine : n.getD k 0 = nine
        · rw [if_pos isNine, if_pos isNine]
          by_cases behind : k > dotPos
          · have moved : finish + 1 - 1 = finish - 1 + 1 := by omega
            rw [if_pos (Nat.succ_lt_succ behind), if_pos behind, moved, ih (by omega)]
          · rw [if_neg (fun shifted => behind (Nat.lt_of_succ_lt_succ shifted)), if_neg behind,
              List.set_cons_succ, ih (by omega)]
        · rw [if_neg isNine, if_neg isNine, List.set_cons_succ]
          rfl

private theorem zeroFill_cons (first : Byte) (count t : Nat) (n : Bytes) :
    zeroFill count (t + 1) (first :: n) = first :: zeroFill count t n := by
  induction count generalizing t n with
  | zero => rfl
  | succ count ih =>
      unfold zeroFill
      rw [List.set_cons_succ, ih]

private theorem cutAt_cons (first : Byte) (dotPos : Nat) (carried : Carried) (carry : Bool) :
    cutAt (dotPos + 1) ⟨first :: carried.n, carried.finish + 1, carry⟩ =
      first :: cutAt dotPos carried := by
  unfold cutAt
  simp only [zeroFill_cons, List.take_succ_cons, gt_iff_lt, Nat.add_lt_add_iff_right,
    Nat.add_sub_add_right]
  split
  · rfl
  · rfl

private theorem dotPosition_cons (first : Byte) (n : Bytes) (scan : DigitScan) :
    dotPosition (first :: n) scan.shift = dotPosition n scan + 1 := by
  have sizes : scan.shift.dotPos = (first :: n).length ↔ scan.dotPos = n.length :=
    Nat.add_right_cancel_iff
  have rest : (first :: n).drop scan.shift.i = n.drop scan.i := rfl
  unfold dotPosition
  simp only [sizes, rest]
  split
  · exact findDot_shift scan.dotPos scan.i _
  · rfl

/-- A carry that passes all digits turns the sign into a dot. -/
theorem carryUp_minus (dotPos i : Nat) (n : Bytes) :
    carryUp (dotPos + 1) (i + 1) (minus :: n) =
      ⟨(if (carryUp dotPos i n).carry then dot else minus) :: (carryUp dotPos i n).n,
        (carryUp dotPos i n).finish + 1, false⟩ := by
  unfold carryUp
  rw [roundsUp_cons]
  split
  · exact carryLoop_cons (by decide) (by decide) dotPos (Nat.le_refl i) n
  · rfl

private theorem representFloat_minus (n : Bytes) :
    representFloat (minus :: n) =
      (if (carriedDigits n).2.carry then dot else minus) ::
        cutAt (carriedDigits n).1 (carriedDigits n).2 := by
  unfold representFloat carriedDigits
  rw [scanDigits_minus]
  generalize scanDigits n (.start n.length) = scan
  have position := dotPosition_cons minus n scan
  have carried := carryUp_minus (dotPosition n scan) scan.i n
  dsimp only
  rw [position]
  change (if (carryUp _ (scan.i + 1) _).carry then _ else cutAt _ (carryUp _ (scan.i + 1) _)) = _
  rw [carried]
  exact cutAt_cons _ _ _ _

/-- The sign is kept unless a carry passes all digits. -/
theorem representFloat_minus_iff (n : Bytes) :
    representFloat (minus :: n) = minus :: representFloat n ↔
      (carriedDigits n).2.carry = false := by
  rw [representFloat_minus]
  unfold representFloat
  cases carried : (carriedDigits n).2.carry with
  | false => simp [carried]
  | true => simp [carried]

end ChangeSql
