/-
The tokens of SQL texts, as MySQL reads them by default.

The lexer is a machine that takes one byte at a time. A string literal stands
between quotes; two quotes are one, and a backslash starts an escape sequence.
A quoted identifier stands between backquotes, of which two are one. Comments
and operators other than `=` and `<` are not in the fragment.
-/

import ChangeSql.Bytes
import Mathlib.Data.List.Induction

namespace ChangeSql.Sql

abbrev percent : Byte := 37
abbrev less : Byte := 60
abbrev equals : Byte := 61
abbrev underscore : Byte := 95

inductive Quoting where
  | literal
  | ident
  deriving DecidableEq, Repr

def Quoting.mark : Quoting → Byte
  | literal => quote
  | ident => backquote

def Quoting.escapes : Quoting → Bool
  | literal => true
  | ident => false

/-- A word is a keyword, in lower case, or a number. -/
inductive Token where
  | word (text : Bytes)
  | quoted (quoting : Quoting) (value : Bytes)
  | symbol (byte : Byte)
  deriving DecidableEq, Repr

@[match_pattern]
abbrev Token.literal (value : Bytes) : Token := .quoted .literal value

@[match_pattern]
abbrev Token.ident (name : Bytes) : Token := .quoted .ident name

inductive LexState where
  | between
  | word (text : Bytes)
  | quoted (quoting : Quoting) (value : Bytes)
  | escape (quoting : Quoting) (value : Bytes)
  | quotedEnd (quoting : Quoting) (value : Bytes)
  deriving DecidableEq, Repr

def unescape (byte : Byte) : Bytes :=
  if byte = 48 then [0]
  else if byte = 98 then [8]
  else if byte = 110 then [10]
  else if byte = 114 then [13]
  else if byte = 116 then [9]
  else if byte = 90 then [26]
  else if byte = percent ∨ byte = underscore then [backslash, byte]
  else [byte]

def isSpace (byte : Byte) : Bool :=
  byte = space ∨ (9 ≤ byte ∧ byte ≤ 13)

def isWord (byte : Byte) : Bool :=
  (48 ≤ byte ∧ byte ≤ 57) ∨ (65 ≤ byte ∧ byte ≤ 90) ∨ (97 ≤ byte ∧ byte ≤ 122) ∨
    byte = underscore ∨ byte = 36 ∨ 128 ≤ byte

def lower (byte : Byte) : Byte :=
  if 65 ≤ byte ∧ byte ≤ 90 then byte + 32 else byte

def outside (byte : Byte) : Option (List Token × LexState) :=
  if isSpace byte then some ([], .between)
  else if byte = quote then some ([], .quoted .literal [])
  else if byte = backquote then some ([], .quoted .ident [])
  else if isWord byte then some ([], .word [lower byte])
  else if byte = openParen ∨ byte = closeParen ∨ byte = comma ∨ byte = equals ∨ byte = less then
    some ([.symbol byte], .between)
  else none

def closing (token : Token) (byte : Byte) : Option (List Token × LexState) :=
  (outside byte).map fun after => (token :: after.1, after.2)

def step : LexState → Byte → Option (List Token × LexState)
  | .between, byte => outside byte
  | .word text, byte =>
      if isWord byte then some ([], .word (text ++ [lower byte])) else closing (.word text) byte
  | .quoted quoting value, byte =>
      if byte = quoting.mark then some ([], .quotedEnd quoting value)
      else if byte = backslash ∧ quoting.escapes then some ([], .escape quoting value)
      else some ([], .quoted quoting (value ++ [byte]))
  | .escape quoting value, byte => some ([], .quoted quoting (value ++ unescape byte))
  | .quotedEnd quoting value, byte =>
      if byte = quoting.mark then some ([], .quoted quoting (value ++ [byte]))
      else closing (.quoted quoting value) byte

def finish : LexState → Option (List Token)
  | .between => some []
  | .word text => some [.word text]
  | .quotedEnd quoting value => some [.quoted quoting value]
  | _ => none

def run : LexState → Bytes → Option (List Token × LexState)
  | state, [] => some ([], state)
  | state, byte :: text => do
      let (tokens, next) ← step state byte
      let (others, final) ← run next text
      return (tokens ++ others, final)

def lexFrom (state : LexState) (text : Bytes) : Option (List Token) := do
  let (tokens, final) ← run state text
  let last ← finish final
  return tokens ++ last

def lex (text : Bytes) : Option (List Token) :=
  lexFrom .between text

def literalsOf (tokens : List Token) : List Bytes :=
  tokens.filterMap fun
    | .literal value => some value
    | _ => none

/-! ### Steps -/

theorem lexFrom_cons (state : LexState) (byte : Byte) (text : Bytes) :
    lexFrom state (byte :: text) =
      (step state byte).bind fun after => (lexFrom after.2 text).map (after.1 ++ ·) := by
  unfold lexFrom
  simp only [run, Option.bind_eq_bind]
  cases step state byte with
  | none => rfl
  | some after =>
      simp only [Option.bind_some]
      cases run after.2 text with
      | none => rfl
      | some answer =>
          simp only [Option.bind_some, Option.pure_def]
          cases finish answer.2 with
          | none => rfl
          | some last => simp only [Option.bind_some, Option.map_some, List.append_assoc]

theorem lexFrom_quiet {state next : LexState} {byte : Byte}
    (stepped : step state byte = some ([], next)) (text : Bytes) :
    lexFrom state (byte :: text) = lexFrom next text := by
  rw [lexFrom_cons, stepped, Option.bind_some]
  cases lexFrom next text <;> rfl

theorem run_quiet {state next : LexState} {byte : Byte}
    (stepped : step state byte = some ([], next)) (text : Bytes) :
    run state (byte :: text) = run next text := by
  simp only [run, stepped, Option.bind_eq_bind, Option.bind_some]
  cases run next text <;> rfl

theorem lexFrom_append {state next : LexState} {front : Bytes} {tokens : List Token}
    (ran : run state front = some (tokens, next)) (text : Bytes) :
    lexFrom state (front ++ text) = (lexFrom next text).map (tokens ++ ·) := by
  induction front generalizing state tokens with
  | nil =>
      cases ran
      rw [List.nil_append]
      cases lexFrom next text <;> rfl
  | cons byte front ih =>
      simp only [run, Option.bind_eq_bind, Option.bind_eq_some_iff, Prod.exists] at ran
      rcases ran with ⟨first, middle, stepped, others, final, ranRest, result⟩
      cases result
      rw [List.cons_append, lexFrom_cons, stepped, Option.bind_some, ih ranRest, Option.map_map]
      congr 1
      funext rest
      exact (List.append_assoc _ _ _).symm

theorem lexFrom_closing {state : LexState} {token : Token} (atEnd : finish state = some [token])
    {text : Bytes}
    (closes : ∀ byte, text.head? = some byte → step state byte = closing token byte) :
    lexFrom state text = (lexFrom .between text).map (token :: ·) := by
  cases text with
  | nil =>
      unfold lexFrom run
      simp only [Option.bind_eq_bind, Option.bind_some, atEnd]
      rfl
  | cons byte text =>
      rw [lexFrom_cons, lexFrom_cons, closes byte rfl]
      change ((outside byte).map _).bind _ = Option.map _ ((outside byte).bind _)
      cases outside byte with
      | none => rfl
      | some after =>
          simp only [Option.map_some, Option.bind_some, Option.map_map]
          rfl

/-! ### Quoted texts -/

/-- No mark, and no escape sequence but those that stand for themselves. -/
def Clean (quoting : Quoting) : Bytes → Prop
  | [] => True
  | byte :: text =>
      byte ≠ quoting.mark ∧
        (byte = backslash ∧ quoting.escapes →
          text.head? = some percent ∨ text.head? = some underscore) ∧
        Clean quoting text

def Clean.decidable (quoting : Quoting) : (value : Bytes) → Decidable (Clean quoting value)
  | [] => isTrue trivial
  | byte :: text =>
      have := Clean.decidable quoting text
      inferInstanceAs (Decidable (byte ≠ quoting.mark ∧
        (byte = backslash ∧ quoting.escapes →
          text.head? = some percent ∨ text.head? = some underscore) ∧
        Clean quoting text))

instance (quoting : Quoting) (value : Bytes) : Decidable (Clean quoting value) :=
  Clean.decidable quoting value

def Special (quoting : Quoting) (byte : Byte) : Prop :=
  byte = quoting.mark ∨ (byte = backslash ∧ quoting.escapes)

instance (quoting : Quoting) (byte : Byte) : Decidable (Special quoting byte) :=
  inferInstanceAs (Decidable (byte = quoting.mark ∨ (byte = backslash ∧ quoting.escapes)))

variable {quoting : Quoting}

theorem clean_of_no_special {value : Bytes} (plain : ∀ byte ∈ value, ¬ Special quoting byte) :
    Clean quoting value := by
  induction value with
  | nil => exact trivial
  | cons byte value ih =>
      have here := plain byte List.mem_cons_self
      refine ⟨fun same => here (Or.inl same), fun same => absurd (Or.inr same) here, ?_⟩
      exact ih fun other member => plain other (List.mem_cons_of_mem _ member)

theorem clean_ident_iff {name : Bytes} : Clean .ident name ↔ backquote ∉ name := by
  induction name with
  | nil => exact iff_of_true trivial List.not_mem_nil
  | cons byte name ih =>
      rw [List.mem_cons, not_or, ← ih]
      constructor
      · rintro ⟨notMark, _, clean⟩
        exact ⟨Ne.symm notMark, clean⟩
      · rintro ⟨notMark, clean⟩
        refine ⟨Ne.symm notMark, ?_, clean⟩
        rintro ⟨_, escapes⟩
        cases escapes

def LexState.opened : LexState → Option (Quoting × Bytes)
  | .quoted quoting value => some (quoting, value)
  | .escape quoting value => some (quoting, value)
  | .quotedEnd quoting value => some (quoting, value)
  | _ => none

theorem step_opened {state next : LexState} {value : Bytes} {byte : Byte} {tokens : List Token}
    (opened : state.opened = some (quoting, value))
    (stepped : step state byte = some (tokens, next)) :
    (tokens = [] ∧ ∃ added, next.opened = some (quoting, value ++ added)) ∨
      ∃ more, tokens = .quoted quoting value :: more := by
  cases state with
  | quoted current text =>
      cases opened
      simp only [step] at stepped
      split at stepped
      · cases stepped
        exact Or.inl ⟨rfl, [], by rw [List.append_nil]; rfl⟩
      · split at stepped
        · cases stepped
          exact Or.inl ⟨rfl, [], by rw [List.append_nil]; rfl⟩
        · cases stepped
          exact Or.inl ⟨rfl, [byte], rfl⟩
  | escape current text =>
      cases opened
      cases stepped
      exact Or.inl ⟨rfl, unescape byte, rfl⟩
  | quotedEnd current text =>
      cases opened
      simp only [step] at stepped
      split at stepped
      · cases stepped
        exact Or.inl ⟨rfl, [byte], rfl⟩
      · unfold closing at stepped
        rw [Option.map_eq_some_iff] at stepped
        rcases stepped with ⟨after, _, result⟩
        cases result
        exact Or.inr ⟨after.1, rfl⟩
  | _ => cases opened

theorem lexFrom_opened {state : LexState} {value text : Bytes} {tokens : List Token}
    (opened : state.opened = some (quoting, value)) (lexed : lexFrom state text = some tokens) :
    ∃ added more, tokens = .quoted quoting (value ++ added) :: more := by
  induction text generalizing state value tokens with
  | nil =>
      cases state with
      | quotedEnd current text =>
          cases opened
          cases lexed
          exact ⟨[], [], by rw [List.append_nil]; rfl⟩
      | quoted current text => cases lexed
      | escape current text => cases lexed
      | _ => cases opened
  | cons byte text ih =>
      rw [lexFrom_cons, Option.bind_eq_some_iff] at lexed
      rcases lexed with ⟨⟨first, next⟩, stepped, lexed⟩
      rw [Option.map_eq_some_iff] at lexed
      rcases lexed with ⟨others, lexed, rfl⟩
      rcases step_opened opened stepped with ⟨rfl, added, grown⟩ | ⟨more, rfl⟩
      · rcases ih grown lexed with ⟨later, more, rfl⟩
        exact ⟨added ++ later, more, by rw [List.append_assoc]; rfl⟩
      · exact ⟨[], more ++ others, by rw [List.append_nil]; rfl⟩

theorem lexFrom_quoted_eq {value expected text : Bytes} {more : List Token}
    (lexed : lexFrom (.quoted quoting value) text = some (.quoted quoting expected :: more)) :
    ∃ added, expected = value ++ added := by
  rcases lexFrom_opened rfl lexed with ⟨added, rest, same⟩
  rw [List.cons.injEq, Token.quoted.injEq] at same
  exact ⟨added, same.1.2⟩

/-! Reading on behind one byte of a quoted text. -/

theorem lexFrom_mark (value text : Bytes) :
    lexFrom (.quoted quoting value) (quoting.mark :: text) =
      lexFrom (.quotedEnd quoting value) text := by
  apply lexFrom_quiet
  simp only [step, if_true]

theorem lexFrom_marks (value text : Bytes) :
    lexFrom (.quoted quoting value) (quoting.mark :: quoting.mark :: text) =
      lexFrom (.quoted quoting (value ++ [quoting.mark])) text := by
  rw [lexFrom_mark]
  apply lexFrom_quiet
  simp only [step, if_true]

theorem step_backslash (escapes : quoting.escapes) (value : Bytes) :
    step (.quoted quoting value) backslash = some ([], .escape quoting value) := by
  cases quoting with
  | literal => rfl
  | ident => cases escapes

theorem lexFrom_escape (escapes : quoting.escapes) (value text : Bytes) (byte : Byte) :
    lexFrom (.quoted quoting value) (backslash :: byte :: text) =
      lexFrom (.quoted quoting (value ++ unescape byte)) text := by
  rw [lexFrom_quiet (step_backslash escapes value)]
  exact lexFrom_quiet rfl text

theorem step_plain (value : Bytes) {byte : Byte} (plain : ¬ Special quoting byte) :
    step (.quoted quoting value) byte = some ([], .quoted quoting (value ++ [byte])) := by
  simp only [step]
  rw [if_neg fun same => plain (Or.inl same), if_neg fun same => plain (Or.inr same)]

theorem lexFrom_plain (value text : Bytes) {byte : Byte} (plain : ¬ Special quoting byte) :
    lexFrom (.quoted quoting value) (byte :: text) =
      lexFrom (.quoted quoting (value ++ [byte])) text :=
  lexFrom_quiet (step_plain value plain) text

theorem lexFrom_quotedEnd (value : Bytes) {text : Bytes}
    (ends : text.head? ≠ some quoting.mark) :
    lexFrom (.quotedEnd quoting value) text =
      (lexFrom .between text).map (.quoted quoting value :: ·) := by
  apply lexFrom_closing rfl
  intro byte first
  simp only [step]
  rw [if_neg]
  rintro rfl
  exact ends first

theorem unescape_mark : unescape quoting.mark = [quoting.mark] := by
  cases quoting <;> rfl

theorem unescape_cases (quoting : Quoting) (byte : Byte) :
    (unescape byte = [backslash, byte] ∧ (byte = percent ∨ byte = underscore)) ∨
      ∃ result, unescape byte = [result] ∧ (Special quoting result → byte = result) := by
  by_cases pattern : byte = percent ∨ byte = underscore
  · left
    rcases pattern with rfl | rfl
    · exact ⟨rfl, Or.inl rfl⟩
    · exact ⟨rfl, Or.inr rfl⟩
  · right
    unfold unescape
    rw [if_neg pattern]
    cases quoting
    all_goals
      split_ifs
      all_goals first
        | exact ⟨_, rfl, fun _ => rfl⟩
        | exact ⟨_, rfl, fun special => absurd special (by decide)⟩

theorem pattern_not_special {byte : Byte} (pattern : byte = percent ∨ byte = underscore) :
    ¬ Special quoting byte := by
  cases quoting <;> rcases pattern with rfl | rfl <;> decide

/-! ### What is read back -/

theorem lexFrom_quotedEnd_ne {value text behind : Bytes} (ends : text.head? ≠ some quoting.mark)
    (some : behind ≠ []) (more : List Token) :
    lexFrom (.quotedEnd quoting value) text ≠
      Option.some (.quoted quoting (value ++ behind) :: more) := by
  rw [lexFrom_quotedEnd value ends]
  intro lexed
  rw [Option.map_eq_some_iff] at lexed
  rcases lexed with ⟨others, _, same⟩
  rw [List.cons.injEq, Token.quoted.injEq, List.self_eq_append_right] at same
  exact some same.1.2

/-- A quoted text that runs on behind its last mark takes up what follows there. -/
theorem lexFrom_spill {value added text : Bytes} {more : List Token}
    (ends : ∀ byte, text.head? = some byte → ¬ Special quoting byte)
    (lexed : lexFrom (.quoted quoting value) text =
      some (.quoted quoting (value ++ added) :: more)) :
    ∃ byte, added.head? = some byte ∧ ¬ Special quoting byte := by
  cases text with
  | nil => cases lexed
  | cons byte text =>
      have plain := ends byte rfl
      rw [lexFrom_plain value text plain] at lexed
      rcases lexFrom_quoted_eq lexed with ⟨later, same⟩
      rw [List.append_assoc, List.append_cancel_left_eq] at same
      exact ⟨byte, congrArg List.head? same, plain⟩

/-- A special byte in front of the last mark makes the mark part of the text. -/
theorem lexFrom_swallow {byte : Byte} (special : Special quoting byte) (value text : Bytes) :
    lexFrom (.quoted quoting value) (byte :: quoting.mark :: text) =
      lexFrom (.quoted quoting (value ++ [quoting.mark])) text := by
  rcases special with rfl | ⟨rfl, escapes⟩
  · exact lexFrom_marks value text
  · rw [lexFrom_escape escapes, unescape_mark]

theorem lexFrom_head_special {value added text : Bytes} {head byte : Byte} {more : List Token}
    (special : Special quoting head)
    (lexed : lexFrom (.quoted quoting value) (byte :: text) =
      some (.quoted quoting (value ++ head :: added) :: more)) : Special quoting byte := by
  by_contra plain
  rw [lexFrom_plain value text plain] at lexed
  rcases lexFrom_quoted_eq lexed with ⟨later, same⟩
  rw [List.append_assoc, List.append_cancel_left_eq] at same
  rw [← (List.cons.inj same).1] at plain
  exact plain special

theorem lexFrom_quoted_head {value text tail : Bytes} {result head : Byte} {more : List Token}
    (lexed : lexFrom (.quoted quoting (value ++ [result])) text =
      some (.quoted quoting (value ++ head :: tail) :: more)) : head = result := by
  rcases lexFrom_quoted_eq lexed with ⟨added, same⟩
  rw [List.append_assoc, List.append_cancel_left_eq] at same
  exact (List.cons.inj same).1

theorem lexFrom_mark_cons {value behind rest : Bytes} {next : Byte} {more : List Token}
    (some : behind ≠ [])
    (lexed : lexFrom (.quoted quoting value) (quoting.mark :: next :: rest) =
      Option.some (.quoted quoting (value ++ behind) :: more)) :
    next = quoting.mark ∧
      lexFrom (.quoted quoting (value ++ [quoting.mark])) rest =
        Option.some (.quoted quoting (value ++ behind) :: more) := by
  by_cases doubled : next = quoting.mark
  · subst doubled
    exact ⟨rfl, (lexFrom_marks _ _).symm.trans lexed⟩
  · exfalso
    rw [lexFrom_mark] at lexed
    apply lexFrom_quotedEnd_ne ?_ some more lexed
    intro first
    exact doubled (Option.some.inj first)

/-- A quoted text that has fallen behind does not catch up. Here `behind` is
what it has still to make up for. -/
theorem lexFrom_behind {rest : Bytes}
    (ends : ∀ byte, rest.head? = some byte → ¬ Special quoting byte)
    (value behind text : Bytes) (some : behind ≠ [])
    (special : ∀ byte ∈ behind, Special quoting byte) (more : List Token) :
    lexFrom (.quoted quoting value) (text ++ quoting.mark :: rest) ≠
      Option.some (.quoted quoting (value ++ (behind ++ text)) :: more) := by
  have restEnds : rest.head? ≠ Option.some quoting.mark :=
    fun first => ends _ first (Or.inl rfl)
  induction text using List.twoStepInduction generalizing value behind with
  | nil =>
      rw [List.nil_append, List.append_nil, lexFrom_mark]
      exact lexFrom_quotedEnd_ne restEnds some more
  | singleton byte =>
      intro lexed
      rcases List.exists_cons_of_ne_nil some with ⟨head, others, rfl⟩
      have byteSpecial : Special quoting byte :=
        lexFrom_head_special (special head List.mem_cons_self) lexed
      have spilled := (lexFrom_swallow byteSpecial value rest).symm.trans lexed
      rcases lexFrom_quoted_eq spilled with ⟨added, same⟩
      rw [same] at spilled
      rw [List.append_assoc, List.append_cancel_left_eq] at same
      have addedIs : others ++ [byte] = added := (List.cons.inj same).2
      rcases lexFrom_spill ends spilled with ⟨first, isFirst, notSpecial⟩
      have inside : first ∈ others ++ [byte] := addedIs ▸ List.mem_of_mem_head? isFirst
      rcases List.mem_append.mp inside with member | member
      · exact notSpecial (special first (List.mem_cons_of_mem _ member))
      · rw [List.mem_singleton.mp member] at notSpecial
        exact notSpecial byteSpecial
  | cons_cons byte next text ih _ =>
      intro lexed
      rcases List.exists_cons_of_ne_nil some with ⟨head, others, rfl⟩
      rcases List.forall_mem_cons.mp special with ⟨headSpecial, othersSpecial⟩
      have byteSpecial : Special quoting byte := lexFrom_head_special headSpecial lexed
      -- Both bytes are spent on one byte of the value, so it falls further behind.
      have further (nextSpecial : Special quoting next) (result : Byte)
          (lexed : lexFrom (.quoted quoting (value ++ [result])) (text ++ quoting.mark :: rest) =
            Option.some
              (.quoted quoting (value ++ (head :: others ++ byte :: next :: text)) :: more)) :
          False := by
        have headIs : head = result := lexFrom_quoted_head lexed
        apply ih (value ++ [result]) (others ++ [byte, next]) (by simp) ?_
        · rw [lexed, headIs]
          simp
        · intro other member
          rcases List.mem_append.mp member with member | member
          · exact othersSpecial other member
          · rcases List.mem_cons.mp member with rfl | member
            · exact byteSpecial
            · rw [List.mem_singleton.mp member]
              exact nextSpecial
      rcases byteSpecial with rfl | ⟨rfl, escapes⟩
      · rcases lexFrom_mark_cons (List.cons_ne_nil _ _) lexed with ⟨rfl, doubled⟩
        exact further (Or.inl rfl) _ doubled
      · change lexFrom (.quoted quoting value)
          (backslash :: next :: (text ++ quoting.mark :: rest)) = _ at lexed
        rw [lexFrom_escape escapes] at lexed
        rcases unescape_cases quoting next with ⟨kept, pattern⟩ | ⟨result, resultIs, back⟩
        · rw [kept] at lexed
          rcases lexFrom_quoted_eq lexed with ⟨added, same⟩
          rw [List.append_assoc, List.append_cancel_left_eq] at same
          have nextIs : (others ++ backslash :: next :: text).head? = Option.some next :=
            congrArg List.head? (List.cons.inj same).2
          apply pattern_not_special pattern
          cases others with
          | nil => exact Or.inr ⟨(Option.some.inj nextIs).symm, escapes⟩
          | cons other others =>
              rw [← Option.some.inj nextIs]
              exact othersSpecial other List.mem_cons_self
        · rw [resultIs] at lexed
          have resultSpecial : Special quoting result := by
            have headIs : head = result := lexFrom_quoted_head lexed
            rw [← headIs]
            exact headSpecial
          apply further ?_ result lexed
          rw [back resultSpecial]
          exact resultSpecial

theorem run_clean {value : Bytes} (clean : Clean quoting value) (front : Bytes) :
    run (.quoted quoting front) value = some ([], .quoted quoting (front ++ value)) := by
  induction value using List.twoStepInduction generalizing front with
  | nil => rw [List.append_nil, run]
  | singleton byte =>
      rcases clean with ⟨notMark, pattern, _⟩
      have plain : ¬ Special quoting byte := by
        rintro (isMark | escape)
        · exact notMark isMark
        · rcases pattern escape with impossible | impossible <;> cases impossible
      rw [run_quiet (step_plain front plain), run]
  | cons_cons byte next text ihRest ihNext =>
      rcases clean with ⟨notMark, pattern, cleanNext⟩
      by_cases escape : byte = backslash ∧ quoting.escapes
      · rcases escape with ⟨rfl, escapes⟩
        have kept : unescape next = [backslash, next] := by
          rcases pattern ⟨rfl, escapes⟩ with same | same
          · cases same
            rfl
          · cases same
            rfl
        have stepped : step (.escape quoting front) next =
            some ([], .quoted quoting (front ++ [backslash, next])) := by
          rw [← kept]
          rfl
        rw [run_quiet (step_backslash escapes front), run_quiet stepped, ihRest cleanNext.2.2,
          List.append_assoc]
        rfl
      · have plain : ¬ Special quoting byte := fun special => special.elim notMark escape
        rw [run_quiet (step_plain front plain), ihNext next cleanNext, List.append_assoc]
        rfl

theorem lexFrom_clean {value : Bytes} (clean : Clean quoting value) (front rest : Bytes) :
    lexFrom (.quoted quoting front) (value ++ rest) =
      lexFrom (.quoted quoting (front ++ value)) rest := by
  rw [lexFrom_append (run_clean clean front)]
  cases lexFrom (.quoted quoting (front ++ value)) rest <;> rfl

theorem clean_of_lexFrom {rest : Bytes}
    (ends : ∀ byte, rest.head? = some byte → ¬ Special quoting byte)
    {front value : Bytes} {more : List Token}
    (lexed : lexFrom (.quoted quoting front) (value ++ quoting.mark :: rest) =
      some (.quoted quoting (front ++ value) :: more)) : Clean quoting value := by
  induction value using List.twoStepInduction generalizing front with
  | nil => exact trivial
  | singleton byte =>
      apply clean_of_no_special
      intro other member
      rw [List.mem_singleton.mp member]
      intro special
      have spilled := (lexFrom_swallow special front rest).symm.trans lexed
      rcases lexFrom_quoted_eq spilled with ⟨added, same⟩
      rw [same] at spilled
      rcases lexFrom_spill ends spilled with ⟨first, isFirst, _⟩
      have lengths := congrArg List.length same
      cases added with
      | nil => cases isFirst
      | cons first added =>
          simp only [List.length_append, List.length_cons, List.length_nil] at lengths
          omega
  | cons_cons byte next text ihRest ihNext =>
      change lexFrom (.quoted quoting front)
        (byte :: next :: (text ++ quoting.mark :: rest)) = _ at lexed
      have behind (special : Special quoting byte)
          (lexed : lexFrom (.quoted quoting (front ++ [byte])) (text ++ quoting.mark :: rest) =
            some (.quoted quoting (front ++ byte :: byte :: text) :: more)) : False := by
        apply lexFrom_behind ends (front ++ [byte]) [byte] text (List.cons_ne_nil _ _) ?_ more
        · rw [lexed]
          simp
        · intro other member
          rw [List.mem_singleton.mp member]
          exact special
      have notMark : byte ≠ quoting.mark := by
        rintro rfl
        rcases lexFrom_mark_cons (List.cons_ne_nil _ _) lexed with ⟨rfl, doubled⟩
        exact behind (Or.inl rfl) doubled
      by_cases escape : byte = backslash ∧ quoting.escapes
      · rcases escape with ⟨rfl, escapes⟩
        rw [lexFrom_escape escapes] at lexed
        rcases unescape_cases quoting next with ⟨kept, pattern⟩ | ⟨result, resultIs, back⟩
        · have lexedRest :
              lexFrom (.quoted quoting (front ++ [backslash, next])) (text ++ quoting.mark :: rest) =
                some (.quoted quoting (front ++ [backslash, next] ++ text) :: more) := by
            rw [← kept, lexed, kept, List.append_assoc]
            rfl
          have plain : ¬ Special quoting next := pattern_not_special pattern
          refine ⟨notMark, fun _ => pattern.imp (congrArg some) (congrArg some), ?_⟩
          exact ⟨fun same => plain (Or.inl same), fun same => absurd (Or.inr same) plain,
            ihRest lexedRest⟩
        · exfalso
          rw [resultIs] at lexed
          have resultBackslash : backslash = result := lexFrom_quoted_head lexed
          subst resultBackslash
          rw [back (Or.inr ⟨rfl, escapes⟩)] at lexed
          exact behind (Or.inr ⟨rfl, escapes⟩) lexed
      · have plain : ¬ Special quoting byte := fun special => special.elim notMark escape
        rw [lexFrom_plain front _ plain] at lexed
        have lexedNext : lexFrom (.quoted quoting (front ++ [byte]))
            (next :: text ++ quoting.mark :: rest) =
              some (.quoted quoting (front ++ [byte] ++ next :: text) :: more) := by
          rw [List.append_assoc]
          exact lexed
        exact ⟨notMark, fun same => absurd same escape, ihNext next lexedNext⟩

/-- Between marks, a value is read back exactly if it is clean. -/
theorem lexFrom_quoted_iff {rest : Bytes}
    (ends : ∀ byte, rest.head? = some byte → ¬ Special quoting byte) (front value : Bytes)
    (more : List Token) :
    lexFrom (.quoted quoting front) (value ++ quoting.mark :: rest) =
        some (.quoted quoting (front ++ value) :: more) ↔
      Clean quoting value ∧ lexFrom .between rest = some more := by
  have restEnds : rest.head? ≠ some quoting.mark := fun first => ends _ first (Or.inl rfl)
  have whole (clean : Clean quoting value) :
      lexFrom (.quoted quoting front) (value ++ quoting.mark :: rest) =
        (lexFrom .between rest).map (.quoted quoting (front ++ value) :: ·) := by
    rw [lexFrom_clean clean, lexFrom_mark, lexFrom_quotedEnd _ restEnds]
  constructor
  · intro lexed
    have clean := clean_of_lexFrom ends lexed
    refine ⟨clean, ?_⟩
    rw [whole clean, Option.map_eq_some_iff] at lexed
    rcases lexed with ⟨others, lexedRest, same⟩
    cases same
    exact lexedRest
  · rintro ⟨clean, lexedRest⟩
    rw [whole clean, lexedRest]
    rfl

end ChangeSql.Sql
