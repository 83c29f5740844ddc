/-
Parsers over lists of tokens, each with the printer that it inverts.

A parser takes a value off the front of the tokens. It inverts a printer when
the tokens that it takes are exactly those that the printer writes, so a text
has one reading at most and a printed value is read back. What may follow is
part of the law, since a list of items goes on for as long as separators do.
-/

import Mathlib.Data.List.Basic

namespace ChangeSql.TokenParser

variable {τ α β γ : Type}

abbrev Parser (τ α : Type) := List τ → Option (α × List τ)

def Inverts (p : Parser τ α) (print : α → List τ) (valid : α → Prop)
    (follow : List τ → Prop) : Prop :=
  ∀ tokens value rest,
    p tokens = some (value, rest) ↔ tokens = print value ++ rest ∧ valid value ∧ follow rest

/-- Nothing has to hold, of a value or of what follows it. -/
abbrev Any : α → Prop := fun _ => True

/-! ### Combinators -/

def expect [DecidableEq τ] (expected tokens : List τ) : Option (List τ) :=
  if expected.isPrefixOf tokens then some (tokens.drop expected.length) else none

def andThen (p : Parser τ α) (q : Parser τ β) : Parser τ (α × β) := fun tokens => do
  let (first, tokens) ← p tokens
  let (second, tokens) ← q tokens
  return ((first, second), tokens)

def behind [DecidableEq τ] (expected : List τ) (q : Parser τ β) : Parser τ β := fun tokens => do
  let tokens ← expect expected tokens
  q tokens

def before [DecidableEq τ] (p : Parser τ α) (expected : List τ) : Parser τ α := fun tokens => do
  let (value, tokens) ← p tokens
  let tokens ← expect expected tokens
  return (value, tokens)

def sepByLoop [DecidableEq τ] (p : Parser τ α) (sep : τ) : Nat → Parser τ (List α)
  | 0, _ => none
  | fuel + 1, tokens => do
      let (value, tokens) ← p tokens
      if tokens.head? = some sep then
        let (values, tokens) ← sepByLoop p sep fuel tokens.tail
        return (value :: values, tokens)
      else return ([value], tokens)

def sepBy [DecidableEq τ] (p : Parser τ α) (sep : τ) : Parser τ (List α) := fun tokens =>
  sepByLoop p sep (tokens.length + 1) tokens

def printSep (print : α → List τ) (sep : τ) : List α → List τ
  | [] => []
  | [value] => print value
  | value :: next :: values => print value ++ sep :: printSep print sep (next :: values)

def complete (p : Parser τ α) (tokens : List τ) : Option α :=
  match p tokens with
  | some (value, []) => some value
  | _ => none

/-! ### Their laws -/

theorem expect_eq_some_iff [DecidableEq τ] {expected tokens rest : List τ} :
    expect expected tokens = some rest ↔ tokens = expected ++ rest := by
  unfold expect
  by_cases isPrefix : expected.isPrefixOf tokens = true
  · rw [if_pos isPrefix]
    rcases List.isPrefixOf_iff_prefix.mp isPrefix with ⟨others, rfl⟩
    rw [List.drop_left]
    simp
  · rw [if_neg isPrefix]
    constructor
    · exact nofun
    · rintro rfl
      exact absurd (List.isPrefixOf_iff_prefix.mpr (List.prefix_append _ _)) isPrefix

theorem Inverts.andThen {p : Parser τ α} {q : Parser τ β} {print : α → List τ}
    {write : β → List τ} {valid : α → Prop} {sound : β → Prop} {follow after : List τ → Prop}
    (first : Inverts p print valid follow) (second : Inverts q write sound after)
    (meet : ∀ value rest, sound value → after rest → follow (write value ++ rest)) :
    Inverts (andThen p q) (fun pair => print pair.1 ++ write pair.2)
      (fun pair => valid pair.1 ∧ sound pair.2) after := by
  rintro tokens ⟨left, right⟩ rest
  simp only [TokenParser.andThen, Option.bind_eq_bind, Option.bind_eq_some_iff, Prod.exists]
  constructor
  · rintro ⟨value, between, read, other, final, readOther, result⟩
    cases result
    rcases (first _ _ _).mp read with ⟨rfl, isValid, _⟩
    rcases (second _ _ _).mp readOther with ⟨rfl, isSound, follows⟩
    exact ⟨(List.append_assoc _ _ _).symm, ⟨isValid, isSound⟩, follows⟩
  · rintro ⟨rfl, ⟨isValid, isSound⟩, follows⟩
    refine ⟨left, write right ++ rest, (first _ _ _).mpr ?_, right, rest,
      (second _ _ _).mpr ⟨rfl, isSound, follows⟩, rfl⟩
    exact ⟨List.append_assoc _ _ _, isValid, meet right rest isSound follows⟩

theorem Inverts.behind [DecidableEq τ] {q : Parser τ β} {write : β → List τ} {sound : β → Prop}
    {after : List τ → Prop} (expected : List τ) (second : Inverts q write sound after) :
    Inverts (behind expected q) (fun value => expected ++ write value) sound after := by
  intro tokens value rest
  simp only [TokenParser.behind, Option.bind_eq_bind, Option.bind_eq_some_iff,
    expect_eq_some_iff]
  constructor
  · rintro ⟨between, rfl, read⟩
    rcases (second _ _ _).mp read with ⟨rfl, isSound, follows⟩
    exact ⟨(List.append_assoc _ _ _).symm, isSound, follows⟩
  · rintro ⟨rfl, isSound, follows⟩
    exact ⟨_, List.append_assoc _ _ _, (second _ _ _).mpr ⟨rfl, isSound, follows⟩⟩

theorem Inverts.before [DecidableEq τ] {p : Parser τ α} {print : α → List τ} {valid : α → Prop}
    {follow : List τ → Prop} (first : Inverts p print valid follow) (expected : List τ)
    (meet : ∀ rest, follow (expected ++ rest)) :
    Inverts (before p expected) (fun value => print value ++ expected) valid Any := by
  intro tokens value rest
  simp only [TokenParser.before, Option.bind_eq_bind, Option.bind_eq_some_iff, Prod.exists,
    expect_eq_some_iff]
  constructor
  · rintro ⟨other, between, read, final, rfl, result⟩
    cases result
    rcases (first _ _ _).mp read with ⟨rfl, isValid, _⟩
    exact ⟨(List.append_assoc _ _ _).symm, isValid, trivial⟩
  · rintro ⟨rfl, isValid, _⟩
    refine ⟨value, expected ++ rest, (first _ _ _).mpr ?_, rest, rfl, rfl⟩
    exact ⟨List.append_assoc _ _ _, isValid, meet rest⟩

theorem printSep_cons (print : α → List τ) (sep : τ) (value : α) {values : List α}
    (some : values ≠ []) :
    printSep print sep (value :: values) = print value ++ sep :: printSep print sep values := by
  cases values with
  | nil => exact absurd rfl some
  | cons next values => rfl

theorem printSep_append (print : α → List τ) (sep : τ) {front back : List α}
    (someFront : front ≠ []) (someBack : back ≠ []) :
    printSep print sep (front ++ back) =
      printSep print sep front ++ sep :: printSep print sep back := by
  induction front with
  | nil => exact absurd rfl someFront
  | cons value front ih =>
      by_cases none : front = []
      · subst none
        exact printSep_cons print sep value someBack
      · rw [List.cons_append, printSep_cons print sep value (List.append_ne_nil_of_left_ne_nil none _),
          ih none, printSep_cons print sep value none, List.append_assoc]
        rfl

theorem printSep_map (print : β → List τ) (f : α → β) (sep : τ) (values : List α) :
    printSep print sep (values.map f) = printSep (fun value => print (f value)) sep values := by
  induction values with
  | nil => rfl
  | cons value values ih =>
      cases values with
      | nil => rfl
      | cons next values => exact congrArg (fun rest => print (f value) ++ sep :: rest) ih

theorem length_le_printSep (print : α → List τ) (sep : τ) (values : List α) :
    values.length ≤ (printSep print sep values).length + 1 := by
  induction values with
  | nil => exact Nat.zero_le _
  | cons value values ih =>
      by_cases none : values = []
      · rw [none]
        exact Nat.le_add_left 1 _
      · rw [printSep_cons print sep value none, List.length_cons, List.length_append,
          List.length_cons]
        omega

theorem sepByLoop_sound [DecidableEq τ] {p : Parser τ α} {print : α → List τ} {valid : α → Prop}
    (item : Inverts p print valid Any) {sep : τ} {fuel : Nat} {tokens rest : List τ}
    {values : List α} (read : sepByLoop p sep fuel tokens = some (values, rest)) :
    tokens = printSep print sep values ++ rest ∧ (values ≠ [] ∧ ∀ value ∈ values, valid value) ∧
      rest.head? ≠ some sep := by
  induction fuel generalizing tokens values with
  | zero => cases read
  | succ fuel ih =>
      simp only [sepByLoop, Option.bind_eq_bind, Option.bind_eq_some_iff, Prod.exists] at read
      rcases read with ⟨value, between, readItem, read⟩
      rcases (item _ _ _).mp readItem with ⟨rfl, isValid, _⟩
      by_cases more : between.head? = some sep
      · rw [if_pos more, Option.bind_eq_some_iff] at read
        rcases read with ⟨⟨others, final⟩, readOthers, result⟩
        cases result
        rcases ih readOthers with ⟨othersAre, ⟨some, allValid⟩, ended⟩
        refine ⟨?_, ⟨List.cons_ne_nil _ _, ?_⟩, ended⟩
        · rw [printSep_cons print sep value some, List.append_assoc, List.cons_append, ← othersAre]
          congr 1
          exact (List.cons_head?_tail more).symm
        · exact List.forall_mem_cons.mpr ⟨isValid, allValid⟩
      · rw [if_neg more] at read
        cases read
        exact ⟨rfl, ⟨List.cons_ne_nil _ _, List.forall_mem_singleton.mpr isValid⟩, more⟩

theorem sepByLoop_complete [DecidableEq τ] {p : Parser τ α} {print : α → List τ}
    {valid : α → Prop} (item : Inverts p print valid Any) {sep : τ} {fuel : Nat} {rest : List τ}
    {values : List α} (some : values ≠ []) (allValid : ∀ value ∈ values, valid value)
    (ended : rest.head? ≠ Option.some sep) (enough : values.length ≤ fuel) :
    sepByLoop p sep fuel (printSep print sep values ++ rest) = Option.some (values, rest) := by
  induction fuel generalizing values with
  | zero => exact absurd (List.length_eq_zero_iff.mp (Nat.le_zero.mp enough)) some
  | succ fuel ih =>
      cases values with
      | nil => exact absurd rfl some
      | cons value values =>
          rcases List.forall_mem_cons.mp allValid with ⟨isValid, othersValid⟩
          unfold sepByLoop
          by_cases none : values = []
          · subst none
            have readItem : p (printSep print sep [value] ++ rest) = Option.some (value, rest) :=
              (item _ _ _).mpr ⟨rfl, isValid, trivial⟩
            rw [readItem]
            exact if_neg ended
          · have readItem : p (printSep print sep (value :: values) ++ rest) =
                Option.some (value, sep :: (printSep print sep values ++ rest)) := by
              apply (item _ _ _).mpr
              rw [printSep_cons print sep value none, List.append_assoc, List.cons_append]
              exact ⟨rfl, isValid, trivial⟩
            rw [readItem]
            change (if Option.some sep = Option.some sep then _ else _) = _
            rw [if_pos rfl]
            change (sepByLoop p sep fuel (printSep print sep values ++ rest) >>= _) = _
            rw [ih none othersValid (Nat.le_of_succ_le_succ enough)]
            rfl

theorem Inverts.sepBy [DecidableEq τ] {p : Parser τ α} {print : α → List τ} {valid : α → Prop}
    (item : Inverts p print valid Any) (sep : τ) :
    Inverts (sepBy p sep) (printSep print sep)
      (fun values => values ≠ [] ∧ ∀ value ∈ values, valid value)
      (fun rest => rest.head? ≠ some sep) := by
  intro tokens values rest
  constructor
  · exact sepByLoop_sound item
  · rintro ⟨rfl, ⟨some, allValid⟩, ended⟩
    apply sepByLoop_complete item some allValid ended
    have count := length_le_printSep print sep values
    rw [List.length_append]
    omega

theorem Inverts.complete {p : Parser τ α} {print : α → List τ} {valid : α → Prop}
    {follow : List τ → Prop} (inverts : Inverts p print valid follow) (atEnd : follow [])
    {tokens : List τ} {value : α} :
    complete p tokens = some value ↔ tokens = print value ∧ valid value := by
  have law := inverts tokens value []
  rw [List.append_nil] at law
  constructor
  · intro read
    unfold TokenParser.complete at read
    split at read
    · rename_i other readAll
      cases read
      exact ⟨(law.mp readAll).1, (law.mp readAll).2.1⟩
    · cases read
  · rintro ⟨printed, isValid⟩
    unfold TokenParser.complete
    rw [law.mpr ⟨printed, isValid, atEnd⟩]

end ChangeSql.TokenParser
