/-
What `represent_float` leaves alone, and how far it moves a number.

The string that is returned has no digit behind the sixth significant one but
zeros in front of the dot. So the function does not change its own results. It
keeps the order of the numbers, and none is moved by more than half a unit of
its sixth digit.
-/

import ChangeSql.RoundedText

namespace ChangeSql

open DecimalDigits DecimalRounding
open DecimalText (tail)

/-! ### Strings with six significant digits -/

/-- There is no dot, or not more than six significant digits around it, of
which one or more can stand behind it. -/
inductive Settled (number : DecimalText) : Prop where
  | natural (noDot : number.fraction = none)
  | fraction (passed : significant number.whole < 6) (few : significant number.digits ≤ 6)

private theorem significant_le_append (digits rest : Bytes) :
    significant digits ≤ significant (digits ++ rest) := by
  by_cases zeros : ∀ byte ∈ digits, byte = zero
  · have none := significant_of_zeros zeros []
    rw [List.append_nil] at none
    rw [none]
    exact Nat.zero_le _
  · rw [significant_append zeros]
    exact Nat.le_add_right _ _

private theorem value_eq_zero {digits : Bytes} (allDigits : ∀ byte ∈ digits, isDigit byte = true)
    (none : value digits = 0) : ∀ byte ∈ digits, byte = zero := by
  induction digits with
  | nil => nofun
  | cons first digits ih =>
      rw [List.forall_mem_cons] at allDigits ⊢
      rw [value_cons, Nat.add_eq_zero_iff, Nat.mul_eq_zero] at none
      have bounds := isDigit_bounds allDigits.1
      have unit : 10 ^ digits.length ≠ 0 := pow_ne_zero _ (by decide)
      refine ⟨UInt8.toNat_inj.mp ?_, ih allDigits.2 none.2⟩
      change first.toNat = 48
      have front := none.1.resolve_right unit
      omega

private theorem Rounds.dropped_zeros {number : DecimalText} {kept dropped : Bytes}
    (rounds : Rounds number kept dropped) (fixed : roundSignificant 6 number.value = number.value) :
    halfOrMore dropped = false ∧ ∀ byte ∈ dropped, byte = zero := by
  have allDigits := rounds.digits ▸ number.isDigit_digits
  rw [List.forall_mem_append] at allDigits
  have small := value_lt allDigits.2
  have same := rounds.keptValue_eq.trans fixed
  have unit : (10 : ℚ) ^ number.decimals.length ≠ 0 := pow_ne_zero _ (by norm_num)
  unfold keptValue DecimalText.value at same
  rw [div_left_inj' unit, rounds.digits, value_append] at same
  have counted : (value kept + (halfOrMore dropped).toNat) * 10 ^ dropped.length =
      value kept * 10 ^ dropped.length + value dropped := by exact_mod_cast same
  rw [Nat.add_mul, Nat.add_left_cancel_iff] at counted
  cases half : halfOrMore dropped with
  | true =>
      rw [half, Bool.toNat_true, Nat.one_mul] at counted
      omega
  | false =>
      rw [half, Bool.toNat_false, Nat.zero_mul] at counted
      exact ⟨rfl, value_eq_zero allDigits.2 counted.symm⟩

private theorem carryUp_still {dotPos i : Nat} {n : Bytes} (still : roundsUp n i = false) :
    carryUp dotPos i n = ⟨n, i, false⟩ :=
  if_neg (Bool.eq_false_iff.mp still)

theorem Stops.unchanged {number : DecimalText} {kept dropped : Bytes}
    (stops : Stops number kept dropped) (small : halfOrMore dropped = false)
    (zeros : ∀ byte ∈ dropped, byte = zero) (settled : Settled number) :
    representFloat number.text = number.text := by
  cases stops with
  | @whole _ back split cuts scan =>
      have backDigits : ∀ byte ∈ back, isDigit byte = true :=
        (List.forall_mem_append.mp (split ▸ number.wholeDigits)).2
      have backZeros := (List.forall_mem_append.mp zeros).1
      have noDot : number.fraction = none := by
        cases settled with
        | natural noDot => exact noDot
        | fraction passed few =>
            rcases cuts with six | ⟨_, _, noDot⟩
            · have shorter := significant_le_append kept back
              rw [← split] at shorter
              omega
            · exact noDot
      have still : roundsUp (kept ++ (back ++ tail number.fraction)) kept.length = false := by
        rw [roundsUp_append, roundsUp_digits backDigits]
        exact small
      have both := carriedDigits_whole number split scan
      rw [carryUp_still still] at both
      have text : number.text = kept ++ back := by
        unfold DecimalText.text
        rw [noDot, split]
        exact List.append_nil _
      rw [representFloat_eq both, cutAt_whole kept back _ false rfl, text]
      exact congrArg (kept ++ ·) (List.eq_replicate_iff.mpr ⟨rfl, backZeros⟩).symm
  | @fraction front _ passed fraction cuts scan =>
      have empty : dropped = [] := by
        cases settled with
        | natural noDot =>
            rw [fraction] at noDot
            cases noDot
        | fraction _ few =>
            rcases cuts with six | ⟨_, empty⟩
            · have someDigit : ¬ ∀ byte ∈ number.whole ++ front, byte = zero := by
                intro allZeros
                have none := significant_of_zeros allZeros []
                rw [List.append_nil, six] at none
                cases none
              have digits : number.digits = number.whole ++ front ++ dropped := by
                unfold DecimalText.digits DecimalText.decimals
                rw [fraction]
                exact (List.append_assoc _ _ _).symm
              rw [digits, significant_append someDigit, six] at few
              exact List.length_eq_zero_iff.mp (by omega)
            · exact empty
      have still : roundsUp (number.whole ++ [dot] ++ front ++ dropped)
          (number.whole ++ [dot] ++ front).length = false := by
        rw [roundsUp_append, empty]
        rfl
      have both := carriedDigits_fraction number fraction scan
      rw [carryUp_still still] at both
      rw [representFloat_eq both, cutAt_fraction, number.text_fraction fraction, empty,
        List.append_nil]
      · rfl
      · simp

/-! ### The string that is returned -/

private theorem DecimalText.text_inj (number other : DecimalText)
    (same : number.text = other.text) :
    number.whole = other.whole ∧ number.fraction = other.fraction := by
  have front (number : DecimalText) : number.text.takeWhile isDigit = number.whole := by
    unfold text
    rw [List.takeWhile_append_of_pos number.wholeDigits]
    cases number.fraction with
    | none => exact List.append_nil _
    | some digits => exact List.append_nil _
  have sameWhole : number.whole = other.whole := by
    rw [← front number, same, front other]
  refine ⟨sameWhole, ?_⟩
  unfold text at same
  rw [sameWhole, List.append_cancel_left_eq] at same
  cases first : number.fraction with
  | none =>
      cases second : other.fraction with
      | none => rfl
      | some digits =>
          rw [first, second] at same
          cases same
  | some digits =>
      cases second : other.fraction with
      | none =>
          rw [first, second] at same
          cases same
      | some otherDigits =>
          rw [first, second] at same
          exact congrArg some (List.tail_eq_of_cons_eq same)

private theorem DecimalText.fraction_of_digits {number : DecimalText}
    (allDigits : ∀ byte ∈ number.text, isDigit byte = true) : number.fraction = none := by
  cases fraction : number.fraction with
  | none => rfl
  | some digits =>
      have isDot : dot ∈ number.text := by
        unfold text
        rw [fraction]
        exact List.mem_append_right _ List.mem_cons_self
      cases allDigits dot isDot

private theorem exists_nines {digits : Bytes} (some : ¬ ∀ byte ∈ digits, byte = nine) :
    ∃ init last count, digits = init ++ last :: List.replicate count nine ∧ last ≠ nine := by
  induction digits using List.reverseRecOn with
  | nil => exact absurd nofun some
  | append_singleton digits last ih =>
      by_cases isNine : last = nine
      · have others : ¬ ∀ byte ∈ digits, byte = nine := by
          intro nines
          exact some (List.forall_mem_append.mpr ⟨nines, List.forall_mem_singleton.mpr isNine⟩)
        rcases ih others with ⟨init, before, count, split, noNine⟩
        refine ⟨init, before, count + 1, ?_, noNine⟩
        rw [split, isNine, List.replicate_succ', List.append_assoc, List.cons_append]
      · exact ⟨digits, last, 0, rfl, isNine⟩

private theorem carryLoop_nines (dotPos : Nat) {front : Bytes} (behind : dotPos < front.length)
    (count : Nat) (post : Bytes) :
    carryLoop dotPos (front.length + count) (front ++ List.replicate count nine ++ post)
        (front.length + count) =
      carryLoop dotPos front.length (front ++ List.replicate count nine ++ post) front.length := by
  induction count generalizing post with
  | zero => rfl
  | succ count ih =>
      have size : front.length + (count + 1) = (front ++ List.replicate count nine).length + 1 := by
        rw [List.length_append, List.length_replicate, Nat.add_assoc]
      have far : (front ++ List.replicate count nine).length > dotPos := by
        rw [List.length_append]
        omega
      have shape : front ++ List.replicate (count + 1) nine ++ post =
          front ++ List.replicate count nine ++ nine :: post := by
        rw [List.replicate_succ', ← List.append_assoc, List.append_assoc _ [nine] post]
        rfl
      rw [size, shape, carryLoop_at, if_neg (by decide), if_pos rfl, if_pos far,
        Nat.add_sub_cancel, List.length_append, List.length_replicate]
      exact ih (nine :: post)

private theorem carryUp_nines {whole init back : Bytes} {last : Byte} (count : Nat)
    (lastDigit : isDigit last = true) (noNine : last ≠ nine)
    (backDigits : ∀ byte ∈ back, isDigit byte = true) (up : halfOrMore back = true) :
    carryUp whole.length (whole ++ [dot] ++ (init ++ last :: List.replicate count nine)).length
        (whole ++ [dot] ++ (init ++ last :: List.replicate count nine) ++ back) =
      ⟨whole ++ [dot] ++ (init ++ [last + 1]) ++ (List.replicate count nine ++ back),
        (whole ++ [dot] ++ (init ++ [last + 1])).length, false⟩ := by
  have counted := roundsUp_behind (whole ++ [dot] ++ (init ++ last :: List.replicate count nine))
    backDigits
  rw [up] at counted
  have shape : whole ++ [dot] ++ (init ++ last :: List.replicate count nine) =
      whole ++ [dot] ++ init ++ [last] ++ List.replicate count nine := by simp
  have behind : whole.length < (whole ++ [dot] ++ init ++ [last]).length := by
    simp only [List.length_append, List.length_singleton]
    omega
  have size : (whole ++ [dot] ++ init ++ [last] ++ List.replicate count nine).length =
      (whole ++ [dot] ++ init ++ [last]).length + count := by
    rw [List.length_append, List.length_replicate]
  have atLast : (whole ++ [dot] ++ init ++ [last]).length =
      (whole ++ [dot] ++ init).length + 1 := List.length_append
  have split : whole ++ [dot] ++ init ++ [last] ++ List.replicate count nine ++ back =
      whole ++ [dot] ++ init ++ last :: (List.replicate count nine ++ back) := by simp
  unfold carryUp
  rw [counted, if_pos rfl, shape, size, carryLoop_nines whole.length behind, atLast, split,
    carryLoop_at, if_neg (digit_ne_dot lastDigit), if_neg noNine]
  simp [Nat.add_assoc]

private theorem significant_next {init : Bytes} {last : Byte} (count : Nat) {most : Nat}
    (some : 0 < most) (few : significant (init ++ last :: List.replicate count nine) ≤ most) :
    significant (init ++ [last + 1]) ≤ most := by
  by_cases zeros : ∀ byte ∈ init, byte = zero
  · rw [significant_of_zeros zeros]
    exact ((List.dropWhile_sublist _).length_le).trans some
  · rw [significant_append zeros] at few ⊢
    rw [List.length_cons] at few
    change significant init + 1 ≤ most
    omega

/-- Whatever the result is the text of, that is settled. -/
theorem Stops.settled {number rounded : DecimalText} {kept dropped : Bytes}
    (stops : Stops number kept dropped) (same : representFloat number.text = rounded.text) :
    Settled rounded := by
  cases stops with
  | @whole _ back split cuts scan =>
      have allDigits : ∀ byte ∈ kept ++ back, isDigit byte = true := split ▸ number.wholeDigits
      obtain ⟨next, carry, carried, size, nextDigits, _, _⟩ :=
        carryUp_whole allDigits number.fraction rfl
      have both := carriedDigits_whole number split scan
      rw [carried] at both
      rw [representFloat_eq both, cutAt_whole next back _ carry (by rw [size])] at same
      apply Settled.natural
      apply DecimalText.fraction_of_digits
      rw [← same]
      apply isDigit_withCarry carry
      refine List.forall_mem_append.mpr ⟨nextDigits, ?_⟩
      intro byte member
      rw [List.eq_of_mem_replicate member]
      rfl
  | @fraction front _ passed fraction cuts scan =>
      have allDigits := List.forall_mem_append.mp (number.fractionDigits _ fraction)
      have few : significant (number.whole ++ front) ≤ 6 := by
        rcases cuts with six | ⟨fewer, _⟩
        · exact six.le
        · exact fewer.le
      have both := carriedDigits_fraction number fraction scan
      have behind (next : Bytes) (nextDigits : ∀ byte ∈ next, isDigit byte = true)
          (text : representFloat number.text = number.whole ++ [dot] ++ next)
          (short : significant (number.whole ++ next) ≤ 6) : Settled rounded := by
        have parts := DecimalText.text_inj rounded
          ⟨number.whole, some next, number.someDigit, number.wholeDigits, by
            rintro digits ⟨rfl⟩
            exact nextDigits⟩ (by
            rw [← same, text, List.append_assoc]
            rfl)
        apply Settled.fraction
        · rw [parts.1]
          exact passed
        · unfold DecimalText.digits DecimalText.decimals
          rw [parts.1, parts.2]
          exact short
      cases up : halfOrMore dropped with
      | false =>
          rw [carryUp_still ((roundsUp_behind _ allDigits.2).trans up)] at both
          apply behind _ allDigits.1 _ few
          rw [representFloat_eq both, cutAt_fraction]
          · rfl
          · simp
      | true =>
          by_cases nines : ∀ byte ∈ front, byte = nine
          · rcases carryUp_fraction number.wholeDigits allDigits.1 allDigits.2 with
              ⟨below, _⟩ | ⟨_, next, carry, counted, carried⟩
            · exact absurd ⟨up, nines⟩ below
            · rw [carried] at both
              have cut := cutAt_whole next [] (dot :: front ++ dropped) carry counted.size.symm
              rw [List.nil_append, List.length_nil, List.replicate_zero, List.append_nil] at cut
              rw [representFloat_eq both, cut] at same
              apply Settled.natural
              apply DecimalText.fraction_of_digits
              rw [← same]
              exact isDigit_withCarry carry counted.allDigits
          · rcases exists_nines nines with ⟨init, last, count, rfl, noNine⟩
            have initDigits := List.forall_mem_append.mp allDigits.1
            have lastDigit := initDigits.2 last List.mem_cons_self
            rw [carryUp_nines count lastDigit noNine allDigits.2 up] at both
            apply behind (init ++ [last + 1])
            · exact List.forall_mem_append.mpr
                ⟨initDigits.1, List.forall_mem_singleton.mpr (isDigit_succ lastDigit noNine).1⟩
            · rw [representFloat_eq both, cutAt_fraction]
              · rfl
              · simp
            · rw [← List.append_assoc] at few ⊢
              exact significant_next count (by decide) few

/-! ### Results -/

private theorem exists_settled (number : DecimalText) :
    ∃ rounded : DecimalText, representFloat number.text = rounded.text ∧
      rounded.value = roundSignificant 6 number.value ∧ Settled rounded := by
  rcases exists_stops number with ⟨kept, dropped, stops⟩
  rcases stops.rounds.result with ⟨rounded, same, value⟩
  exact ⟨rounded, same, value.trans stops.rounds.keptValue_eq, stops.settled same⟩

private theorem DecimalText.value_nonneg (number : DecimalText) : 0 ≤ number.value :=
  div_nonneg (Nat.cast_nonneg _) (pow_nonneg (by norm_num) _)

/-- A result is not changed any more, byte for byte. -/
theorem representFloat_idem (number : DecimalText) :
    representFloat (representFloat number.text) = representFloat number.text := by
  rcases exists_settled number with ⟨rounded, same, value, settled⟩
  have fixed : roundSignificant 6 rounded.value = rounded.value := by
    rw [value, roundSignificant_idem 5 number.value_nonneg]
  rcases exists_stops rounded with ⟨kept, dropped, stops⟩
  rcases stops.rounds.dropped_zeros fixed with ⟨small, zeros⟩
  rw [same, stops.unchanged small zeros settled]

/-- Numbers in order have results in order, and each is moved by half a unit of
its sixth significant digit at most. -/
theorem representFloat_ordered {first second : DecimalText} (le : first.value ≤ second.value) :
    ∃ lower upper : DecimalText,
      representFloat first.text = lower.text ∧ representFloat second.text = upper.text ∧
      lower.value ≤ upper.value ∧
      |lower.value - first.value| ≤ lastPlace 6 first.value / 2 ∧
      |upper.value - second.value| ≤ lastPlace 6 second.value / 2 := by
  rcases exists_settled first with ⟨lower, lowerText, lowerValue, _⟩
  rcases exists_settled second with ⟨upper, upperText, upperValue, _⟩
  refine ⟨lower, upper, lowerText, upperText, ?_, ?_, ?_⟩
  · rw [lowerValue, upperValue]
    exact roundSignificant_mono 5 first.value_nonneg le
  · rw [lowerValue]
    exact abs_roundSignificant_sub_le 6 first.value
  · rw [upperValue]
    exact abs_roundSignificant_sub_le 6 second.value

def dozenText : DecimalText :=
  { whole := ascii "12"
    fraction := some (ascii "34565")
    someDigit := List.cons_ne_nil _ _
    wholeDigits := by decide
    fractionDigits := by
      rintro digits ⟨rfl⟩
      decide }

theorem representFloat_ordered_nines : ∃ lower upper : DecimalText,
    representFloat dozenText.text = lower.text ∧ representFloat ninesText.text = upper.text ∧
      lower.value ≤ upper.value ∧
      |lower.value - dozenText.value| ≤ lastPlace 6 dozenText.value / 2 ∧
      |upper.value - ninesText.value| ≤ lastPlace 6 ninesText.value / 2 := by
  apply representFloat_ordered
  have first : value dozenText.digits = 1234565 := by decide
  have second : value ninesText.digits = 9999995 := by decide
  have places : dozenText.decimals.length = 5 ∧ ninesText.decimals.length = 1 := by decide
  unfold DecimalText.value
  rw [first, second, places.1, places.2]
  norm_num

end ChangeSql
