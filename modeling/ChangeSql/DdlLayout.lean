/-
Blank space around the separators of a `CREATE TABLE` text.

A token ends at a space and at nothing else. So the spaces around separators
make no difference as long as there is one behind every type and behind the
first word of every key item. Without it the token takes the separator along:
a type takes the comma, and with it the column that follows, and behind the
last type the scanner misses the parenthesis that closes the list.
-/

import ChangeSql.DdlGrammar

namespace ChangeSql

/-! ### Items and the spaces in them -/

/-- A column item without the spaces that may come and go. -/
structure ColumnShape where
  inner : Bytes
  gap : Nat
  type : Bytes
  attributes : Bytes
  plainName : ∀ byte ∈ inner, byte ≠ space ∧ byte ≠ comma ∧ byte ≠ closeParen
  typed : type ≠ []
  plainType : ∀ byte ∈ type, byte ≠ space
  plainAttributes : ∀ byte ∈ attributes, byte ≠ comma ∧ byte ≠ closeParen
  apart : attributes = [] ∨ attributes.head? = some space

/-- A key item without the spaces that may come and go. The filler is what
stands between the first word and the list. -/
structure KeyShape where
  word : Bytes
  filler : Bytes
  names : List Bytes
  trailing : Bytes
  worded : word ≠ []
  unquoted : word.head? ≠ some backquote
  plainWord : ∀ byte ∈ word, byte ≠ space ∧ byte ≠ openParen
  plainFiller : ∀ byte ∈ filler, byte ≠ openParen
  plainTrailing : ∀ byte ∈ trailing, byte ≠ comma ∧ byte ≠ closeParen
  tokens : ∀ name ∈ names, KeyToken name
  apart : filler = [] ∨ filler.head? = some space

inductive ItemShape where
  | column (shape : ColumnShape)
  | key (shape : KeyShape)

/-- How many spaces there are in front of an item, behind it, in front of the
parenthesis of its list, around the names of the list and behind the list. -/
structure Spacing where
  before : Nat
  after : Nat
  paren : Nat
  listed : Nat → Nat × Nat
  closed : Nat

def ColumnShape.name (shape : ColumnShape) : Bytes :=
  backquote :: shape.inner ++ [backquote]

def ColumnShape.text (shape : ColumnShape) (spacing : Spacing) : Bytes :=
  spaces spacing.before ++ shape.name ++ spaces (shape.gap + 1) ++ shape.type ++
    shape.attributes ++ spaces spacing.after

def KeyShape.list (shape : KeyShape) (spacing : Spacing) : List KeyName :=
  shape.names.mapIdx fun i name =>
    { before := (spacing.listed i).1
      name := name
      after := (spacing.listed i).2 }

def KeyShape.text (shape : KeyShape) (spacing : Spacing) : Bytes :=
  spaces spacing.before ++ shape.word ++ shape.filler ++ spaces spacing.paren ++ openParen ::
    (commaSeparated ((shape.list spacing).map KeyName.text) ++ closeParen ::
      (spaces spacing.closed ++ shape.trailing ++ spaces spacing.after))

namespace ItemShape

def text (spacing : Spacing) : ItemShape → Bytes
  | column shape => shape.text spacing
  | key shape => shape.text spacing

def effect : ItemShape → DdlScan → DdlScan
  | column shape, scan => scan.addField shape.name shape.type
  | key shape, scan => shape.names.foldl DdlScan.addKey scan

/-- There is a space behind the type or the first word. -/
def Apart (spacing : Spacing) : ItemShape → Prop
  | column shape => shape.attributes = [] → 0 < spacing.after
  | key shape => shape.filler = [] → 0 < spacing.paren

end ItemShape

structure SpacedDdl where
  head : Bytes
  items : List (ItemShape × Spacing)
  close : Nat
  tail : Bytes
  plainHead : ∀ byte ∈ head, byte ≠ openParen
  some : items ≠ []

namespace SpacedDdl

def texts (items : List (ItemShape × Spacing)) : List Bytes :=
  items.map fun item => item.1.text item.2

def text (ddl : SpacedDdl) : Bytes :=
  ddl.head ++ openParen ::
    (commaSeparated (texts ddl.items) ++ closeParen :: (spaces ddl.close ++ ddl.tail))

/-- The texts differ in the spaces around separators only. -/
def Respaces (first second : SpacedDdl) : Prop :=
  first.head = second.head ∧ first.items.map Prod.fst = second.items.map Prod.fst ∧
    first.tail = second.tail

/-- A space stands behind every type and behind the first word of every key item. -/
def Apart (ddl : SpacedDdl) : Prop :=
  ∀ item ∈ ddl.items, item.1.Apart item.2

end SpacedDdl

/-! ### Items that are taken for what they are -/

theorem ColumnShape.name_plain (shape : ColumnShape) :
    ∀ byte ∈ shape.name, byte ≠ space ∧ byte ≠ comma ∧ byte ≠ closeParen :=
  backquoted_plain shape.plainName

def Skipped (text : Bytes) : Prop :=
  ∀ byte ∈ text, byte ≠ comma ∧ byte ≠ closeParen

private theorem skipped_spaces (count : Nat) : Skipped (spaces count) := by
  intro byte member
  rw [List.eq_of_mem_replicate member]
  decide

theorem Skipped.append {first second : Bytes} (skipped : Skipped first) (others : Skipped second) :
    Skipped (first ++ second) := by
  intro byte member
  rcases List.mem_append.mp member with inFirst | inSecond
  · exact skipped byte inFirst
  · exact others byte inSecond

theorem ColumnShape.scans (shape : ColumnShape) (spacing : Spacing)
    (apart : (ItemShape.column shape).Apart spacing) :
    Scans (shape.text spacing) (ItemShape.column shape).effect := by
  have named : ∀ byte ∈ shape.name, byte ≠ space := fun byte member =>
    (shape.name_plain byte member).1
  -- the space behind the type is one of the item's or the first one of the attributes
  have split : ∃ more rest, Skipped rest ∧
      shape.attributes ++ spaces spacing.after = spaces (more + 1) ++ rest := by
    rcases shape.apart with none | starts
    · rcases Nat.exists_eq_succ_of_ne_zero (Nat.pos_iff_ne_zero.mp (apart none)) with ⟨more, after⟩
      exact ⟨more, [], nofun, by rw [none, after, List.append_nil, List.nil_append]⟩
    · cases attributesAre : shape.attributes with
      | nil =>
          rw [attributesAre] at starts
          cases starts
      | cons byte rest =>
          rw [attributesAre] at starts
          cases starts
          refine ⟨0, rest ++ spaces spacing.after, ?_, rfl⟩
          have plain : Skipped rest := by
            intro byte member
            apply shape.plainAttributes
            rw [attributesAre]
            exact List.mem_cons_of_mem _ member
          exact plain.append (skipped_spaces _)
  rcases split with ⟨more, rest, plain, behind⟩
  refine ⟨spaces (more + 1) ++ rest, (skipped_spaces _).append plain, ?_⟩
  intro scan others
  have textIs : shape.text spacing ++ others = spaces spacing.before ++ shape.name ++
      (spaces (shape.gap + 1) ++ shape.type ++ (spaces (more + 1) ++ (rest ++ others))) := by
    unfold text
    rw [List.append_assoc _ shape.attributes, behind]
    simp only [List.append_assoc]
  rw [textIs, List.append_assoc (spaces (more + 1))]
  exact scanItem_column scan spacing.before shape.gap more (rest ++ others) rfl named shape.typed
    shape.plainType

private theorem KeyShape.list_names (shape : KeyShape) (spacing : Spacing) :
    (shape.list spacing).map KeyName.name = shape.names := by
  unfold list
  apply List.ext_getElem?
  intro i
  rw [List.getElem?_map, List.getElem?_mapIdx]
  cases shape.names[i]? <;> rfl

theorem KeyShape.scans (shape : KeyShape) (spacing : Spacing)
    (apart : (ItemShape.key shape).Apart spacing) :
    Scans (shape.text spacing) (ItemShape.key shape).effect := by
  have split : ∃ gap filler, (∀ byte ∈ filler, byte ≠ openParen) ∧
      shape.filler ++ spaces spacing.paren = spaces (gap + 1) ++ filler := by
    rcases shape.apart with none | starts
    · rcases Nat.exists_eq_succ_of_ne_zero (Nat.pos_iff_ne_zero.mp (apart none)) with ⟨gap, paren⟩
      exact ⟨gap, [], nofun, by rw [none, paren, List.append_nil, List.nil_append]⟩
    · cases fillerIs : shape.filler with
      | nil =>
          rw [fillerIs] at starts
          cases starts
      | cons byte filler =>
          rw [fillerIs] at starts
          cases starts
          refine ⟨0, filler ++ spaces spacing.paren, ?_, rfl⟩
          intro byte member
          rcases List.mem_append.mp member with inFiller | isSpace
          · apply shape.plainFiller
            rw [fillerIs]
            exact List.mem_cons_of_mem _ inFiller
          · rw [List.eq_of_mem_replicate isSpace]
            decide
  rcases split with ⟨gap, filler, plainFiller, between⟩
  have plainTrailing : Skipped (spaces spacing.closed ++ shape.trailing ++ spaces spacing.after) :=
    ((skipped_spaces _).append shape.plainTrailing).append (skipped_spaces _)
  let item : KeyItem :=
    { before := spacing.before
      word := shape.word
      gap := gap
      filler := filler
      names := shape.list spacing
      trailing := spaces spacing.closed ++ shape.trailing ++ spaces spacing.after
      worded := shape.worded
      unquoted := shape.unquoted
      plainWord := shape.plainWord
      plainFiller := plainFiller
      plainTrailing := plainTrailing }
  have tokens : ∀ name ∈ item.names, KeyToken name.name := by
    intro name member
    apply shape.tokens
    rw [← shape.list_names spacing]
    exact List.mem_map_of_mem member
  have textIs : shape.text spacing = item.text := by
    unfold text KeyItem.text
    rw [List.append_assoc _ shape.filler, between, ← List.append_assoc]
  have effectIs : (ItemShape.key shape).effect =
      fun scan => item.names.foldl (fun scan name => scan.addKey name.name) scan := by
    funext scan
    change shape.names.foldl DdlScan.addKey scan = _
    rw [← shape.list_names spacing, List.foldl_map]
  rw [textIs, effectIs]
  exact item.scans tokens

theorem ItemShape.scans (item : ItemShape) (spacing : Spacing) (apart : item.Apart spacing) :
    Scans (item.text spacing) item.effect := by
  cases item with
  | column shape => exact shape.scans spacing apart
  | key shape => exact shape.scans spacing apart

namespace SpacedDdl

/-- The items say the same whatever the spaces in them are. -/
def scanned (items : List (ItemShape × Spacing)) (scan : DdlScan) : DdlScan :=
  (items.map Prod.fst).foldl (fun scan item => item.effect scan) scan

private theorem scanItems_apart (items : List (ItemShape × Spacing)) (some : items ≠ [])
    (apart : ∀ item ∈ items, item.1.Apart item.2) {fuel : Nat} (enough : items.length ≤ fuel)
    (scan : DdlScan) (tail : Bytes) :
    scanItems fuel scan (commaSeparated (texts items) ++ closeParen :: tail) =
      .ok (scanned items scan, closeParen :: tail) := by
  let itemTexts : List ItemText := items.map fun item => ⟨item.1.text item.2, item.1.effect⟩
  have textsAre : texts items = itemTexts.map ItemText.text := by
    change _ = (items.map _).map _
    rw [List.map_map]
    rfl
  have runIs : ItemText.run itemTexts scan = scanned items scan := by
    unfold ItemText.run scanned
    change (items.map _).foldl _ _ = _
    rw [List.foldl_map, List.foldl_map]
  rw [textsAre, ← runIs]
  apply scanItems_append itemTexts
  · intro none
    exact some (List.map_eq_nil_iff.mp none)
  · intro item member
    rcases List.mem_map.mp member with ⟨source, inItems, rfl⟩
    exact source.1.scans source.2 (apart source inItems)
  · rw [List.length_map]
    exact enough

theorem scanDdl_text (ddl : SpacedDdl) :
    ∃ fuel, ddl.items.length ≤ fuel ∧
      scanDdl ddl.text = scanItems fuel .start
        (commaSeparated (texts ddl.items) ++ closeParen :: (spaces ddl.close ++ ddl.tail)) := by
  have plain : ∀ byte ∈ ddl.head, decide (byte = openParen) = false :=
    fun byte member => decide_eq_false (ddl.plainHead byte member)
  have commas := commaSeparated_length (texts ddl.items)
  unfold texts at commas
  rw [List.length_map] at commas
  unfold scanDdl text
  rw [skipUntil_append plain rfl]
  refine ⟨_, ?_, rfl⟩
  refine Nat.le_trans commas ?_
  rw [List.length_cons, Nat.succ_le_succ_iff, List.length_append]
  exact Nat.le_add_right _ _

private theorem scanDdl_apart (ddl : SpacedDdl) (apart : ddl.Apart) :
    scanDdl ddl.text =
      .ok (scanned ddl.items .start, closeParen :: (spaces ddl.close ++ ddl.tail)) := by
  rcases ddl.scanDdl_text with ⟨fuel, enough, scans⟩
  rw [scans]
  exact scanItems_apart ddl.items ddl.some apart enough .start _

private theorem parseDdl_apart {first second : SpacedDdl} (same : Respaces first second)
    (firstApart : first.Apart) (secondApart : second.Apart) :
    parseDdl first.text = parseDdl second.text := by
  unfold parseDdl
  rw [first.scanDdl_apart firstApart, second.scanDdl_apart secondApart]
  change (scanned first.items .start).finish = (scanned second.items .start).finish
  unfold scanned
  rw [same.2.1]

end SpacedDdl

/-! ### Types that take a separator along -/

private theorem skipUntil_none {stop : Byte → Bool} {text : Bytes}
    (none : ∀ byte ∈ text, stop byte = false) :
    skipUntil stop text = .error .outOfBounds := by
  induction text with
  | nil => rfl
  | cons byte text ih =>
      have passed : ¬ stop byte = true := by
        rw [none byte List.mem_cons_self]
        exact Bool.false_ne_true
      refine (if_neg passed).trans ?_
      exact ih fun other member => none other (List.mem_cons_of_mem _ member)

private theorem nextToken_none (count : Nat) {text : Bytes} (plain : ∀ byte ∈ text, byte ≠ space) :
    nextToken (spaces count ++ text) = .error .outOfBounds := by
  have skipped : ∀ byte ∈ spaces count, decide (byte = space) = true :=
    fun byte member => decide_eq_true (List.eq_of_mem_replicate member)
  have missed : skipUntil (fun byte => byte = space) (text.dropWhile fun byte => byte = space) =
      .error .outOfBounds := by
    apply skipUntil_none
    intro byte member
    exact decide_eq_false (plain byte (List.dropWhile_subset _ member))
  unfold nextToken scanToken
  rw [List.dropWhile_append_of_pos skipped]
  change (skipUntil _ (text.dropWhile _) >>= _) = _
  rw [missed]
  rfl

private theorem split_space (text : Bytes) : (∀ byte ∈ text, byte ≠ space) ∨
    ∃ front back, text = front ++ space :: back ∧ ∀ byte ∈ front, byte ≠ space := by
  induction text with
  | nil => exact Or.inl nofun
  | cons byte text ih =>
      by_cases isSpace : byte = space
      · exact Or.inr ⟨[], text, by rw [isSpace, List.nil_append], nofun⟩
      · have both {plain : Bytes} (rest : ∀ other ∈ plain, other ≠ space) :
            ∀ other ∈ byte :: plain, other ≠ space := by
          intro other member
          rcases List.mem_cons.mp member with rfl | inRest
          · exact isSpace
          · exact rest other inRest
        rcases ih with none | ⟨front, back, rfl, plain⟩
        · exact Or.inl (both none)
        · exact Or.inr ⟨byte :: front, back, rfl, both plain⟩

namespace ColumnShape

private theorem text_glued {shape : ColumnShape} {spacing : Spacing} (bare : shape.attributes = [])
    (glued : spacing.after = 0) (rest : Bytes) :
    shape.text spacing ++ rest =
      spaces spacing.before ++ shape.name ++ (spaces (shape.gap + 1) ++ (shape.type ++ rest)) := by
  unfold text
  rw [bare, glued, List.append_nil]
  simp only [spaces, List.replicate_zero, List.append_nil, List.append_assoc]

/-- What stands right behind the type belongs to its token. -/
theorem glued_token (shape : ColumnShape) {separator : Byte} {more : Bytes}
    (noSpace : separator ≠ space) (plainMore : ∀ byte ∈ more, byte ≠ space) :
    shape.type ++ separator :: more ≠ [] ∧
      ∀ byte ∈ shape.type ++ separator :: more, byte ≠ space := by
  constructor
  · intro none
    exact shape.typed (List.append_eq_nil_iff.mp none).1
  · intro byte member
    rcases List.mem_append.mp member with inType | behind
    · exact shape.plainType byte inType
    · rcases List.mem_cons.mp behind with rfl | inMore
      · exact noSpace
      · exact plainMore byte inMore

/-- The column behind the comma goes unseen. -/
theorem scans_glued {shape next : ColumnShape} {spacing nextSpacing : Spacing}
    (bare : shape.attributes = []) (glued : spacing.after = 0) (plain : Skipped next.type) :
    ∃ token, Scans (shape.text spacing ++ comma :: next.text nextSpacing)
      fun scan => scan.addField shape.name token := by
  have named : ∀ byte ∈ shape.name, byte ≠ space := fun byte member =>
    (shape.name_plain byte member).1
  have nextNamed : Skipped next.name := fun byte member => (next.name_plain byte member).2
  have rest : Skipped (next.type ++ next.attributes ++ spaces nextSpacing.after) :=
    (plain.append next.plainAttributes).append (skipped_spaces _)
  have noSpace : comma ≠ space := by decide
  cases before : nextSpacing.before with
  | zero =>
      -- the name of the next column belongs to the token
      have plainToken := shape.glued_token noSpace
        fun byte member => (next.name_plain byte member).1
      refine ⟨shape.type ++ comma :: next.name, spaces (next.gap + 1) ++
        (next.type ++ next.attributes ++ spaces nextSpacing.after),
        (skipped_spaces _).append rest, ?_⟩
      intro scan others
      have textIs : shape.text spacing ++ comma :: next.text nextSpacing ++ others =
          spaces spacing.before ++ shape.name ++
            (spaces (shape.gap + 1) ++ (shape.type ++ comma :: next.name) ++
              (spaces (next.gap + 1) ++
                ((next.type ++ next.attributes ++ spaces nextSpacing.after) ++ others))) := by
        rw [text_glued bare glued]
        unfold text
        rw [before]
        simp only [spaces, List.replicate_zero, List.nil_append, List.append_assoc,
          List.cons_append]
      rw [textIs, List.append_assoc (spaces (next.gap + 1))]
      exact scanItem_column scan spacing.before shape.gap next.gap _ rfl named plainToken.1
        plainToken.2
  | succ more =>
      have plainToken := shape.glued_token noSpace (List.forall_mem_nil _)
      refine ⟨shape.type ++ [comma], spaces (more + 1) ++ (next.name ++ spaces (next.gap + 1) ++
        (next.type ++ next.attributes ++ spaces nextSpacing.after)), ?_, ?_⟩
      · exact (skipped_spaces _).append ((nextNamed.append (skipped_spaces _)).append rest)
      · intro scan others
        have textIs : shape.text spacing ++ comma :: next.text nextSpacing ++ others =
            spaces spacing.before ++ shape.name ++
              (spaces (shape.gap + 1) ++ (shape.type ++ [comma]) ++ (spaces (more + 1) ++
                ((next.name ++ spaces (next.gap + 1) ++
                  (next.type ++ next.attributes ++ spaces nextSpacing.after)) ++ others))) := by
          rw [text_glued bare glued]
          unfold text
          rw [before]
          simp only [List.append_assoc, List.cons_append, List.nil_append]
        rw [textIs, List.append_assoc (spaces (more + 1))]
        exact scanItem_column scan spacing.before shape.gap more _ rfl named plainToken.1
          plainToken.2

private theorem scanItems_gluedLast {shape : ColumnShape} {spacing : Spacing}
    (bare : shape.attributes = []) (glued : spacing.after = 0) {tail : Bytes}
    (plain : Skipped tail) (fuel : Nat) (scan : DdlScan) :
    ∃ fault, scanItems fuel scan (shape.text spacing ++ closeParen :: tail) = .error fault := by
  have named : ∀ byte ∈ shape.name, byte ≠ space := fun byte member =>
    (shape.name_plain byte member).1
  have plainToken {more : Bytes} (plainMore : ∀ byte ∈ more, byte ≠ space) :
      shape.type ++ closeParen :: more ≠ [] ∧
        ∀ byte ∈ shape.type ++ closeParen :: more, byte ≠ space :=
    shape.glued_token (by decide) plainMore
  cases fuel with
  | zero => exact ⟨_, rfl⟩
  | succ fuel =>
      refine ⟨.outOfBounds, ?_⟩
      rw [text_glued bare glued]
      rcases split_space tail with noSpace | ⟨front, back, rfl, plainFront⟩
      · have typed : nextToken (spaces (shape.gap + 1) ++ (shape.type ++ closeParen :: tail)) =
            .error .outOfBounds := nextToken_none (shape.gap + 1) (plainToken noSpace).2
        have read : nextToken (spaces spacing.before ++ shape.name ++
            (spaces (shape.gap + 1) ++ (shape.type ++ closeParen :: tail))) = _ :=
          nextToken_append spacing.before shape.gap _ (List.cons_ne_nil _ _) named
        have quoted : shape.name.head? = some backquote := rfl
        simp only [scanItems, scanItem, read, bind, Except.bind, if_pos quoted, typed]
      · have split : shape.type ++ closeParen :: (front ++ space :: back) =
            shape.type ++ closeParen :: front ++ (spaces (0 + 1) ++ back) := by
          rw [List.append_assoc]
          rfl
        have read := scanItem_column scan spacing.before shape.gap 0 back rfl named
          (plainToken plainFront).1 (plainToken plainFront).2
        rw [List.append_assoc (spaces (shape.gap + 1))] at read
        have missed : skipUntil (fun byte => byte = comma ∨ byte = closeParen)
            (spaces (0 + 1) ++ back) = .error .outOfBounds := by
          apply skipUntil_none
          intro byte member
          have skips := plain byte (List.mem_append_right front member)
          apply decide_eq_false
          intro stops
          exact stops.elim skips.1 skips.2
        rw [split]
        simp only [scanItems, read, bind, Except.bind, missed]

end ColumnShape

/-! ### How many columns come out -/

private theorem DdlScan.addKey_fieldNames (names : List Bytes) (scan : DdlScan) :
    (names.foldl DdlScan.addKey scan).fieldNames = scan.fieldNames := by
  induction names generalizing scan with
  | nil => rfl
  | cons name names ih => exact ih (scan.addKey name)

namespace ItemShape

def width : ItemShape → Nat
  | column _ => 1
  | key _ => 0

private theorem effect_width (item : ItemShape) (scan : DdlScan) :
    (item.effect scan).fieldNames.length = scan.fieldNames.length + item.width := by
  cases item with
  | column shape => exact List.length_append
  | key shape =>
      change (shape.names.foldl DdlScan.addKey scan).fieldNames.length = _
      rw [DdlScan.addKey_fieldNames]
      rfl

def PlainColumn : ItemShape → Prop
  | column shape => Skipped shape.type
  | key _ => False

end ItemShape

namespace SpacedDdl

def width (items : List (ItemShape × Spacing)) : Nat :=
  (items.map fun item => item.1.width).sum

private theorem scanned_width (items : List (ItemShape × Spacing)) (scan : DdlScan) :
    (scanned items scan).fieldNames.length = scan.fieldNames.length + width items := by
  induction items generalizing scan with
  | nil => rfl
  | cons item items ih =>
      have rest := ih (item.1.effect scan)
      rw [item.1.effect_width] at rest
      change (scanned items (item.1.effect scan)).fieldNames.length = _ + (item.1.width + width items)
      omega

/-- Where a separator is taken along, it is by a type, and what follows is a
column whose type has no separator or a tail that has none. -/
def Legible (tail : Bytes) : List (ItemShape × Spacing) → Prop
  | [] => True
  | [item] => item.1.Apart item.2 ∨ (item.1.width = 1 ∧ Skipped tail)
  | item :: next :: items =>
      (item.1.Apart item.2 ∨ (item.1.width = 1 ∧ next.1.PlainColumn)) ∧
        Legible tail (next :: items)

theorem Legible.tail {tail : Bytes} {item : ItemShape × Spacing}
    {items : List (ItemShape × Spacing)} (legible : Legible tail (item :: items)) :
    Legible tail items := by
  cases items with
  | nil => trivial
  | cons next items => exact legible.2

private theorem glued_column {item : ItemShape × Spacing} (glued : ¬ item.1.Apart item.2)
    (isColumn : item.1.width = 1) :
    ∃ shape, item.1 = .column shape ∧ shape.attributes = [] ∧ item.2.after = 0 := by
  rcases item with ⟨_ | shape, spacing⟩
  · rename_i shape
    refine ⟨shape, rfl, ?_⟩
    change ¬ (shape.attributes = [] → 0 < spacing.after) at glued
    rw [Classical.not_imp, Nat.not_lt, Nat.le_zero] at glued
    exact glued
  · cases isColumn

/-- No more columns have come out than there are in the items, and fewer if
something in the items is not apart. -/
structure Counts (items : List (ItemShape × Spacing)) (scan last : DdlScan) : Prop where
  atMost : last.fieldNames.length ≤ scan.fieldNames.length + width items
  fewer : (∃ item ∈ items, ¬ item.1.Apart item.2) →
    last.fieldNames.length < scan.fieldNames.length + width items

private theorem width_cons (item : ItemShape × Spacing) (items : List (ItemShape × Spacing)) :
    width (item :: items) = item.1.width + width items :=
  rfl

theorem Counts.nil (scan : DdlScan) : Counts [] scan scan :=
  ⟨Nat.le_refl _, fun ⟨_, impossible, _⟩ => nomatch impossible⟩

theorem Counts.seen {item : ItemShape × Spacing} {items : List (ItemShape × Spacing)}
    {scan last : DdlScan} (apart : item.1.Apart item.2)
    (counts : Counts items (item.1.effect scan) last) : Counts (item :: items) scan last := by
  have counted := item.1.effect_width scan
  constructor
  · have atMost := counts.atMost
    rw [width_cons]
    omega
  · intro ⟨other, member, notApart⟩
    rcases List.mem_cons.mp member with rfl | inOthers
    · exact absurd apart notApart
    · have fewer := counts.fewer ⟨other, inOthers, notApart⟩
      rw [width_cons]
      omega

private theorem Counts.swallowed {item next : ItemShape × Spacing}
    {items : List (ItemShape × Spacing)}
    {scan between last : DdlScan} (first : item.1.width = 1) (second : next.1.width = 1)
    (one : between.fieldNames.length = scan.fieldNames.length + 1)
    (counts : Counts items between last) : Counts (item :: next :: items) scan last := by
  have atMost := counts.atMost
  constructor
  · rw [width_cons, width_cons]
    omega
  · intro _
    rw [width_cons, width_cons]
    omega

private theorem scanItems_cons {text : Bytes} {effect : DdlScan → DdlScan}
    (scans : Scans text effect)
    {others : List Bytes} {tail rest : Bytes} {fuel : Nat} {scan last : DdlScan}
    (scanned : scanItems (fuel + 1) scan (commaSeparated (text :: others) ++ closeParen :: tail) =
      .ok (last, rest)) :
    (others = [] ∧ last = effect scan) ∨
      (others ≠ [] ∧ scanItems fuel (effect scan)
        (commaSeparated others ++ closeParen :: tail) = .ok (last, rest)) := by
  cases others with
  | nil =>
      cases (scans.last fuel scan tail).symm.trans scanned
      exact Or.inl ⟨rfl, rfl⟩
  | cons next others =>
      rw [commaSeparated_cons, scans.more] at scanned
      exact Or.inr ⟨List.cons_ne_nil _ _, scanned⟩

private theorem commaSeparated_join (item next : Bytes) (items : List Bytes) :
    commaSeparated (item :: next :: items) = commaSeparated ((item ++ comma :: next) :: items) := by
  cases items with
  | nil => rfl
  | cons third items =>
      rw [commaSeparated, commaSeparated, commaSeparated, List.append_assoc, List.cons_append]

/-- Induction on the fuel. Where a type takes a comma along, the next column is
lost and the scanner goes on behind it. -/
theorem scanItems_legible {items : List (ItemShape × Spacing)} {tail rest : Bytes} {fuel : Nat}
    {scan last : DdlScan} (some : items ≠ []) (legible : Legible tail items)
    (scanned : scanItems fuel scan (commaSeparated (texts items) ++ closeParen :: tail) =
      .ok (last, rest)) : Counts items scan last := by
  have ends {others : List (ItemShape × Spacing)} (none : texts others = []) : others = [] :=
    List.map_eq_nil_iff.mp none
  have goesOn {others : List (ItemShape × Spacing)} (more : texts others ≠ []) : others ≠ [] := by
    intro none
    rw [none] at more
    exact more rfl
  induction fuel generalizing items scan with
  | zero => cases scanned
  | succ fuel ih =>
      rcases List.exists_cons_of_ne_nil some with ⟨item, items, rfl⟩
      by_cases apart : item.1.Apart item.2
      · apply Counts.seen apart
        rcases scanItems_cons (item.1.scans item.2 apart) scanned with ⟨none, rfl⟩ | ⟨more, others⟩
        · rw [ends none]
          exact .nil _
        · exact ih (goesOn more) legible.tail others
      · cases items with
        | nil =>
            rcases legible.resolve_left apart with ⟨isColumn, plain⟩
            rcases glued_column apart isColumn with ⟨shape, itemIs, bare, glued⟩
            rcases shape.scanItems_gluedLast bare glued plain (fuel + 1) scan with ⟨fault, failed⟩
            rw [texts, List.map_singleton, commaSeparated, itemIs] at scanned
            rw [ItemShape.text, failed] at scanned
            cases scanned
        | cons next items =>
            rcases legible.1.resolve_left apart with ⟨isColumn, plainNext⟩
            rcases glued_column apart isColumn with ⟨shape, itemIs, bare, glued⟩
            rcases next with ⟨nextShape | _, nextSpacing⟩
            · have swallows : ∃ token,
                  Scans (shape.text item.2 ++ comma :: nextShape.text nextSpacing)
                    fun scan => scan.addField shape.name token :=
                ColumnShape.scans_glued bare glued plainNext
              rcases swallows with ⟨token, scans⟩
              have one : (scan.addField shape.name token).fieldNames.length =
                  scan.fieldNames.length + 1 := List.length_append
              apply Counts.swallowed isColumn rfl one
              rw [texts, List.map_cons, List.map_cons, itemIs, commaSeparated_join] at scanned
              rcases scanItems_cons scans scanned with ⟨none, rfl⟩ | ⟨more, others⟩
              · rw [ends none]
                exact .nil _
              · exact ih (goesOn more) legible.tail.tail others
            · cases plainNext

private theorem Respaces.width_eq {first second : SpacedDdl} (same : first.Respaces second) :
    width first.items = width second.items := by
  have widths (items : List (ItemShape × Spacing)) :
      width items = ((items.map Prod.fst).map ItemShape.width).sum := by
    rw [List.map_map]
    rfl
  rw [widths, widths, same.2.1]

end SpacedDdl

/-- Spaces around separators make no difference between two texts that both
have one behind each type and behind the first word of each key item. Nothing
less will do: a text that is accepted with these spaces gives something else
without them, as long as it stays legible. -/
theorem parseDdl_respaced {first second : SpacedDdl} (same : first.Respaces second)
    (apart : second.Apart) :
    (first.Apart → parseDdl first.text = parseDdl second.text) ∧
      (SpacedDdl.Legible (spaces first.close ++ first.tail) first.items →
        (∃ info, parseDdl second.text = .ok info) →
        (parseDdl first.text = parseDdl second.text ↔ first.Apart)) := by
  refine ⟨fun firstApart => SpacedDdl.parseDdl_apart same firstApart apart, ?_⟩
  intro legible accepted
  refine ⟨?_, fun firstApart => SpacedDdl.parseDdl_apart same firstApart apart⟩
  intro alike item member
  by_contra glued
  rcases accepted with ⟨info, parsed⟩
  rcases parseDdl_finished parsed with ⟨scan, rest, scanned, finished⟩
  rcases parseDdl_finished (alike.trans parsed) with ⟨other, left, otherScanned, otherFinished⟩
  rw [second.scanDdl_apart apart] at scanned
  cases scanned
  have all := SpacedDdl.scanned_width second.items .start
  rcases first.scanDdl_text with ⟨fuel, _, scans⟩
  rw [scans] at otherScanned
  have fewer := (SpacedDdl.scanItems_legible first.some legible otherScanned).fewer
    ⟨item, member, glued⟩
  rw [← finished.fieldNames, otherFinished.fieldNames] at all
  rw [same.width_eq] at fewer
  omega

def bareColumn (inner type : Bytes) (after : Nat) (typed : type ≠ [])
    (plainName : ∀ byte ∈ inner, byte ≠ space ∧ byte ≠ comma ∧ byte ≠ closeParen)
    (plainType : ∀ byte ∈ type, byte ≠ space) : ItemShape × Spacing :=
  (.column
    { inner := inner
      gap := 0
      type := type
      attributes := []
      plainName := plainName
      typed := typed
      plainType := plainType
      plainAttributes := plain_nil
      apart := Or.inl rfl },
    { before := 1
      after := after
      paren := 0
      listed := fun _ => (0, 0)
      closed := 0 })

/-- The text ``create table `t`( `k` int, `v` float, `updated_at` datetime )``
with so many spaces in front of each of the commas. -/
def bareDdl (after : Nat) : SpacedDdl :=
  { head := ascii "create table `t`"
    items :=
      [bareColumn (ascii "k") (ascii "int") after (by decide) keyColumn.plainName (by decide),
        bareColumn (ascii "v") (ascii "float") after (by decide) valueColumn.plainName (by decide),
        bareColumn (ascii "updated_at") (ascii "datetime") 1 updatedAtColumn.typed
          updatedAtColumn.plainName updatedAtColumn.plainType]
    close := 0
    tail := ascii " engine=innodb"
    plainHead := by decide
    some := by simp }

private theorem bareDdl_apart (after : Nat) (some : 0 < after) : (bareDdl after).Apart := by
  intro item member
  simp only [bareDdl, List.mem_cons, List.not_mem_nil, or_false] at member
  rcases member with rfl | rfl | rfl
  · exact fun _ => some
  · exact fun _ => some
  · exact fun _ => Nat.one_pos

private theorem bareDdl_respaces (after other : Nat) :
    (bareDdl after).Respaces (bareDdl other) :=
  ⟨rfl, rfl, rfl⟩

private theorem bareDdl_legible :
    SpacedDdl.Legible (spaces (bareDdl 0).close ++ (bareDdl 0).tail) (bareDdl 0).items := by
  have float : Skipped (ascii "float") := by
    unfold Skipped
    decide
  have datetime : Skipped (ascii "datetime") := by
    unfold Skipped
    decide
  exact ⟨Or.inr ⟨rfl, float⟩, Or.inr ⟨rfl, datetime⟩, Or.inl fun _ => Nat.one_pos⟩

/-- Two spaces do what one does, and what none do is something else. -/
theorem parseDdl_respaced_bareDdl :
    parseDdl (bareDdl 2).text = parseDdl (bareDdl 1).text ∧
      (parseDdl (bareDdl 0).text = parseDdl (bareDdl 1).text ↔ (bareDdl 0).Apart) := by
  have apart : (bareDdl 1).Apart := bareDdl_apart 1 Nat.one_pos
  have accepted : ∃ info, parseDdl (bareDdl 1).text = .ok info := ⟨_, rfl⟩
  constructor
  · exact (parseDdl_respaced (bareDdl_respaces 2 1) apart).1 (bareDdl_apart 2 Nat.two_pos)
  · exact (parseDdl_respaced (bareDdl_respaces 0 1) apart).2 bareDdl_legible accepted

/-- Without a space behind it the type `int` takes the column `v` along. -/
theorem parseDdl_not_respaced :
    (bareDdl 0).Respaces (bareDdl 1) ∧ parseDdl (bareDdl 0).text ≠ parseDdl (bareDdl 1).text := by
  refine ⟨bareDdl_respaces 0 1, ?_⟩
  decide

end ChangeSql
