/-
Texts with values put in between quotes.

A builder writes fixed pieces of SQL and puts values between quotes among
them. If the pieces keep to the grammar, then the tokens of the text are the
ones that were meant, and its literals the values, exactly if all values are
clean.
-/

import ChangeSql.Library.SqlQuery

namespace ChangeSql.Sql

open TokenParser (printSep)

inductive Piece where
  | fixed (text : Bytes)
  | value (text : Bytes)
  deriving DecidableEq, Repr

def Piece.text : Piece → Bytes
  | fixed text => text
  | value text => quote :: text ++ [quote]

def render (pieces : List Piece) : Bytes :=
  pieces.flatMap Piece.text

def values (pieces : List Piece) : List Bytes :=
  pieces.filterMap fun
    | .fixed _ => none
    | .value text => some text

/-- Behind the last quote of a literal the pieces do not take the quote back. -/
def Apart (pieces : List Piece) : Prop :=
  ∀ byte, (render pieces).head? = some byte → ¬ Special .literal byte

theorem Apart.nil : Apart [] := nofun

theorem Apart.fixed {byte : Byte} (plain : ¬ Special .literal byte) (text : Bytes)
    (pieces : List Piece) : Apart (.fixed (byte :: text) :: pieces) := by
  intro first isFirst
  cases isFirst
  exact plain

/-- Starting in `state`, the pieces are meant as `tokens`. Every value begins
between two tokens. -/
inductive Lexes : LexState → List Piece → List Token → Prop where
  | done {state : LexState} {tokens : List Token} (finished : finish state = some tokens)
      (none : literalsOf tokens = []) : Lexes state [] tokens
  | fixed {state next : LexState} {text : Bytes} {pieces : List Piece} {tokens more : List Token}
      (ran : run state text = some (tokens, next)) (none : literalsOf tokens = [])
      (rest : Lexes next pieces more) : Lexes state (.fixed text :: pieces) (tokens ++ more)
  | value {value : Bytes} {pieces : List Piece} {more : List Token}
      (ends : Apart pieces) (rest : Lexes .between pieces more) :
      Lexes .between (.value value :: pieces) (.literal value :: more)

variable {state : LexState} {pieces : List Piece} {tokens : List Token}

theorem literalsOf_append (front back : List Token) :
    literalsOf (front ++ back) = literalsOf front ++ literalsOf back :=
  List.filterMap_append

theorem Lexes.literals (lexes : Lexes state pieces tokens) : literalsOf tokens = values pieces := by
  induction lexes with
  | done finished none => exact none
  | fixed ran none rest ih =>
      rw [literalsOf_append, none, ih]
      rfl
  | value ends rest ih => exact congrArg _ ih

theorem render_value (value : Bytes) (pieces : List Piece) :
    render (.value value :: pieces) = quote :: (value ++ quote :: render pieces) := by
  change quote :: value ++ [quote] ++ render pieces = _
  simp

theorem lexFrom_render_value (value : Bytes) (pieces : List Piece) :
    lexFrom .between (render (.value value :: pieces)) =
      lexFrom (.quoted .literal []) (value ++ Quoting.literal.mark :: render pieces) := by
  rw [render_value]
  exact lexFrom_quiet rfl _

theorem lexFrom_render_fixed {next : LexState} {text : Bytes}
    (ran : run state text = some (tokens, next)) (pieces : List Piece) :
    lexFrom state (render (.fixed text :: pieces)) =
      (lexFrom next (render pieces)).map (tokens ++ ·) :=
  lexFrom_append ran (render pieces)

theorem Lexes.lexed (lexes : Lexes state pieces tokens)
    (clean : ∀ value ∈ values pieces, Clean .literal value) :
    lexFrom state (render pieces) = some tokens := by
  induction lexes with
  | done finished none =>
      unfold render lexFrom
      simp [run, finished]
  | fixed ran none rest ih =>
      rw [lexFrom_render_fixed ran, ih clean]
      rfl
  | value ends rest ih =>
      rcases List.forall_mem_cons.mp clean with ⟨cleanHere, cleanRest⟩
      rw [lexFrom_render_value]
      exact (lexFrom_quoted_iff ends [] _ _).mpr ⟨cleanHere, ih cleanRest⟩

theorem Lexes.clean (lexes : Lexes state pieces tokens)
    (read : (lexFrom state (render pieces)).map literalsOf = some (values pieces)) :
    ∀ value ∈ values pieces, Clean .literal value := by
  induction lexes with
  | done finished none => exact nofun
  | fixed ran none rest ih =>
      apply ih
      rw [lexFrom_render_fixed ran, Option.map_map, Option.map_eq_some_iff] at read
      rcases read with ⟨others, lexed, literals⟩
      rw [lexed]
      change literalsOf (_ ++ others) = _ at literals
      rw [literalsOf_append, none, List.nil_append] at literals
      exact congrArg some literals
  | @value value pieces more ends rest ih =>
      rw [lexFrom_render_value, Option.map_eq_some_iff] at read
      rcases read with ⟨all, lexed, literals⟩
      rcases lexFrom_opened rfl lexed with ⟨added, others, rfl⟩
      have literalsAre : added :: literalsOf others = value :: values pieces := literals
      rcases List.cons.inj literalsAre with ⟨rfl, othersAre⟩
      rcases (lexFrom_quoted_iff ends [] added others).mp lexed with ⟨cleanHere, lexedRest⟩
      have cleanRest := ih ((congrArg _ lexedRest).trans (congrArg some othersAre))
      exact List.forall_mem_cons.mpr ⟨cleanHere, cleanRest⟩

theorem Lexes.literals_iff (lexes : Lexes state pieces tokens) :
    (lexFrom state (render pieces)).map literalsOf = some (values pieces) ↔
      ∀ value ∈ values pieces, Clean .literal value := by
  refine ⟨lexes.clean, fun clean => ?_⟩
  rw [lexes.lexed clean, ← lexes.literals]
  rfl

theorem Lexes.tokens_iff (lexes : Lexes state pieces tokens) :
    lexFrom state (render pieces) = some tokens ↔
      ∀ value ∈ values pieces, Clean .literal value := by
  refine ⟨fun lexed => lexes.clean ?_, lexes.lexed⟩
  rw [lexed, ← lexes.literals]
  rfl

/-! ### Fixed texts -/

def LexState.closed : LexState → List Token
  | .word text => [.word text]
  | _ => []

def LexState.Resting : LexState → Prop
  | .between => True
  | .word _ => True
  | _ => False

theorem run_append {first second third : LexState} {front back : Bytes} {more : List Token}
    (ran : run first front = some (tokens, second)) (ranBack : run second back = some (more, third)) :
    run first (front ++ back) = some (tokens ++ more, third) := by
  induction front generalizing first tokens with
  | nil =>
      cases ran
      exact ranBack
  | cons byte front ih =>
      simp only [run, Option.bind_eq_bind, Option.bind_eq_some_iff, Prod.exists] at ran
      rcases ran with ⟨here, middle, stepped, others, final, ranRest, result⟩
      cases result
      rw [List.cons_append]
      simp only [run, stepped, Option.bind_eq_bind, Option.bind_some, ih ranRest,
        List.append_assoc]
      rfl

theorem run_ident {name : Bytes} (clean : backquote ∉ name) :
    run (.quoted .ident []) (name ++ [backquote]) = some ([], .quotedEnd .ident name) := by
  have marked : run (.quoted .ident ([] ++ name)) [backquote] =
      some ([], .quotedEnd .ident name) := rfl
  exact run_append (run_clean (clean_ident_iff.mpr clean) []) marked

theorem run_resting {next : LexState} {byte : Byte} {text : Bytes} (rests : state.Resting)
    (ends : isWord byte = false) (ran : run .between (byte :: text) = some (tokens, next)) :
    run state (byte :: text) = some (state.closed ++ tokens, next) := by
  cases state with
  | between => exact ran
  | word word =>
      simp only [run, Option.bind_eq_bind, Option.bind_eq_some_iff, Prod.exists] at ran ⊢
      rcases ran with ⟨here, middle, stepped, others, final, ranRest, result⟩
      cases result
      refine ⟨.word word :: here, middle, ?_, others, next, ranRest, rfl⟩
      simp only [step, ends, Bool.false_eq_true, if_false]
      change (outside byte).map _ = _
      rw [show outside byte = some (here, middle) from stepped]
      rfl
  | _ => cases rests

theorem Lexes.fixed_resting {next : LexState} {byte : Byte} {text : Bytes} {pieces : List Piece}
    {more : List Token} (rests : state.Resting) (ends : isWord byte = false)
    (ran : run .between (byte :: text) = some (tokens, next)) (none : literalsOf tokens = [])
    (rest : Lexes next pieces more) :
    Lexes state (.fixed (byte :: text) :: pieces) (state.closed ++ (tokens ++ more)) := by
  rw [← List.append_assoc]
  apply Lexes.fixed (run_resting rests ends ran) ?_ rest
  rw [literalsOf_append, none, List.append_nil]
  cases state <;> rfl

/-! ### Lists of values -/

def valuePieces : List Bytes → List Piece
  | [] => []
  | [value] => [.value value]
  | value :: next :: row => .value value :: .fixed [comma] :: valuePieces (next :: row)

def rowPieces : List (List Bytes) → List Piece
  | [] => []
  | [row] => .fixed [openParen] :: (valuePieces row ++ [.fixed [closeParen]])
  | row :: next :: rows =>
      .fixed [openParen] ::
        (valuePieces row ++ .fixed [closeParen, comma] :: rowPieces (next :: rows))

variable {tail : List Piece} {more : List Token}

theorem Lexes.values_append {row : List Bytes} (some : row ≠ []) (apart : Apart tail)
    (lexes : Lexes .between tail more) :
    Lexes .between (valuePieces row ++ tail) (printValues row ++ more) := by
  induction row with
  | nil => exact absurd rfl some
  | cons value row ih =>
      cases row with
      | nil => exact .value apart lexes
      | cons next row =>
          apply Lexes.value (Apart.fixed (by decide) [] _)
          have ran : run .between [comma] = Option.some ([.symbol comma], .between) := rfl
          have others : Lexes .between (.fixed [comma] :: (valuePieces (next :: row) ++ tail))
              ([.symbol comma] ++ (printValues (next :: row) ++ more)) :=
            .fixed ran rfl (ih (List.cons_ne_nil _ _))
          exact others

theorem Lexes.rows_append {rows : List (List Bytes)} (rests : state.Resting) (some : rows ≠ [])
    (filled : ∀ row ∈ rows, row ≠ []) (lexes : Lexes .between tail more) :
    Lexes state (rowPieces rows ++ tail)
      (state.closed ++ (printSep printRow (.symbol comma) rows ++ more)) := by
  have opens : run .between [openParen] = Option.some ([.symbol openParen], .between) := rfl
  induction rows generalizing state with
  | nil => exact absurd rfl some
  | cons row rows ih =>
      rcases List.forall_mem_cons.mp filled with ⟨rowFilled, rowsFilled⟩
      cases rows with
      | nil =>
          have ran : run .between [closeParen] = Option.some ([.symbol closeParen], .between) := rfl
          have ended := Lexes.values_append rowFilled (Apart.fixed (by decide) [] tail)
            (.fixed ran rfl lexes)
          have lexed := Lexes.fixed_resting rests (by decide) opens rfl ended
          simpa [rowPieces, printSep, printRow] using lexed
      | cons next rows =>
          have ran : run .between [closeParen, comma] =
              Option.some ([.symbol closeParen, .symbol comma], .between) := rfl
          have others : Lexes .between (rowPieces (next :: rows) ++ tail) _ :=
            ih trivial (List.cons_ne_nil _ _) rowsFilled
          have ended := Lexes.values_append rowFilled (Apart.fixed (by decide) [comma] _)
            (.fixed ran rfl others)
          have lexed := Lexes.fixed_resting rests (by decide) opens rfl ended
          simpa [rowPieces, printSep, printRow, LexState.closed] using lexed

/-! ### Lists of equalities -/

def quotedName (name : Bytes) : Bytes :=
  backquote :: (name ++ [backquote])

def equalityPieces (first sep : Bytes) : List (Bytes × Bytes) → List Piece
  | [] => []
  | (name, value) :: pairs =>
      .fixed (first ++ (quotedName name ++ [equals])) :: .value value ::
        equalityPieces sep sep pairs

theorem run_equality {first name : Bytes} (clean : backquote ∉ name)
    (opens : run state (first ++ [backquote]) = some (tokens, .quoted .ident [])) :
    run state (first ++ (quotedName name ++ [equals])) =
      some (tokens ++ [.ident name, .symbol equals], .between) := by
  have closes : run (.quotedEnd .ident name) [equals] =
      some ([.ident name, .symbol equals], .between) := rfl
  have ran := run_append opens (run_append (run_ident clean) closes)
  simpa [quotedName] using ran

structure Separates (sep : Bytes) (token : Token) : Prop where
  opens : run .between (sep ++ [backquote]) = some ([token], .quoted .ident [])
  apart : ∃ byte text, sep = byte :: text ∧ ¬ Special .literal byte
  none : literalsOf [token] = []

theorem Lexes.equalities_append {first sep : Bytes} {token : Token} {pairs : List (Bytes × Bytes)}
    (opens : run state (first ++ [backquote]) = some (tokens, .quoted .ident []))
    (none : literalsOf tokens = []) (separates : Separates sep token) (some : pairs ≠ [])
    (clean : ∀ pair ∈ pairs, backquote ∉ pair.1) (apart : Apart tail)
    (lexes : Lexes .between tail more) :
    Lexes state (equalityPieces first sep pairs ++ tail)
      (tokens ++ (printSep printAssignment token pairs ++ more)) := by
  induction pairs generalizing state first tokens with
  | nil => exact absurd rfl some
  | cons pair pairs ih =>
      rcases List.forall_mem_cons.mp clean with ⟨nameClean, namesClean⟩
      have ran := run_equality nameClean opens
      have quiet : literalsOf (tokens ++ [.ident pair.1, .symbol equals]) = [] := by
        rw [literalsOf_append, none]
        rfl
      cases pairs with
      | nil =>
          have here : Lexes .between (.value pair.2 :: tail) (.literal pair.2 :: more) :=
            .value apart lexes
          have lexed := Lexes.fixed ran quiet here
          simpa [equalityPieces, printSep, printAssignment] using lexed
      | cons next pairs =>
          have others := ih separates.opens separates.none (List.cons_ne_nil _ _) namesClean
          rcases separates.apart with ⟨byte, text, rfl, plain⟩
          have here : Lexes .between (.value pair.2 :: _) (.literal pair.2 :: _) :=
            .value (Apart.fixed plain _ _) others
          have lexed := Lexes.fixed ran quiet here
          simpa [equalityPieces, printSep, printAssignment] using lexed

theorem Lexes.equalities_resting {sep : Bytes} {token : Token} {pairs : List (Bytes × Bytes)}
    (rests : state.Resting) (separates : Separates sep token)
    (clean : ∀ pair ∈ pairs, backquote ∉ pair.1) (apart : Apart tail)
    (lexes : ∀ state : LexState, state.Resting → Lexes state tail (state.closed ++ more)) :
    Lexes state (equalityPieces [space] sep pairs ++ tail)
      (state.closed ++ (printSep printAssignment token pairs ++ more)) := by
  by_cases none : pairs = []
  · subst none
    exact lexes state rests
  · have opens : run state ([space] ++ [backquote]) =
        some (state.closed ++ [], .quoted .ident []) :=
      run_resting rests (by decide) rfl
    rw [List.append_nil] at opens
    apply Lexes.equalities_append opens ?_ separates none clean apart (lexes .between trivial)
    cases state <;> rfl

/-! ### Whole texts -/

theorem render_nil : render [] = [] := rfl

theorem render_cons (piece : Piece) (pieces : List Piece) :
    render (piece :: pieces) = piece.text ++ render pieces :=
  rfl

theorem render_append (front back : List Piece) : render (front ++ back) = render front ++ render back :=
  List.flatMap_append

theorem values_append (front back : List Piece) : values (front ++ back) = values front ++ values back :=
  List.filterMap_append

theorem values_valuePieces (row : List Bytes) : values (valuePieces row) = row := by
  induction row with
  | nil => rfl
  | cons value row ih =>
      cases row with
      | nil => rfl
      | cons next row => exact congrArg (value :: ·) ih

theorem values_rowPieces (rows : List (List Bytes)) : values (rowPieces rows) = rows.flatten := by
  induction rows with
  | nil => rfl
  | cons row rows ih =>
      cases rows with
      | nil =>
          change values (valuePieces row ++ _) = _
          rw [values_append, values_valuePieces]
          rfl
      | cons next rows =>
          change values (valuePieces row ++ .fixed _ :: rowPieces (next :: rows)) = _
          rw [values_append, values_valuePieces, List.flatten_cons, ← ih]
          rfl

theorem values_equalityPieces (first sep : Bytes) (pairs : List (Bytes × Bytes)) :
    values (equalityPieces first sep pairs) = pairs.map Prod.snd := by
  induction pairs generalizing first with
  | nil => rfl
  | cons pair pairs ih => exact congrArg (pair.2 :: ·) (ih sep)

theorem render_equalityPieces (first sep : Bytes) {pairs : List (Bytes × Bytes)}
    (some : pairs ≠ []) :
    render (equalityPieces first sep pairs) ++ sep =
      first ++ pairs.flatMap fun pair =>
        quotedName pair.1 ++ [equals, quote] ++ pair.2 ++ [quote] ++ sep := by
  induction pairs generalizing first with
  | nil => exact absurd rfl some
  | cons pair pairs ih =>
      change first ++ (quotedName pair.1 ++ [equals]) ++
        (quote :: pair.2 ++ [quote] ++ render (equalityPieces sep sep pairs)) ++ sep = _
      rw [List.flatMap_cons]
      by_cases none : pairs = []
      · subst none
        simp [equalityPieces, render]
      · have others := ih sep none
        simp only [List.append_assoc] at others ⊢
        rw [others]
        simp

end ChangeSql.Sql
