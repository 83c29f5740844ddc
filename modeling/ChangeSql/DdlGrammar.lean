/-
The `CREATE TABLE` texts that `parse_ddl` is made for, and what it makes of
them.

A column item is a quoted name, a type and attributes, a key item ends in a
list of names in parentheses. The scanner skips over the separators that a
type or a list contains because it never looks for a separator inside them.
-/

import ChangeSql.Ddl
import Mathlib.Data.List.Nodup

namespace ChangeSql

/-! ### Texts -/

def spaces (count : Nat) : Bytes :=
  List.replicate count space

structure ColumnItem where
  before : Nat
  inner : Bytes
  gap : Nat
  type : Bytes
  typeGap : Nat
  attributes : Bytes
  plainName : ∀ byte ∈ inner, byte ≠ space ∧ byte ≠ comma ∧ byte ≠ closeParen
  typed : type ≠ []
  plainType : ∀ byte ∈ type, byte ≠ space
  plainAttributes : ∀ byte ∈ attributes, byte ≠ comma ∧ byte ≠ closeParen

def ColumnItem.name (column : ColumnItem) : Bytes :=
  backquote :: column.inner ++ [backquote]

def ColumnItem.text (column : ColumnItem) : Bytes :=
  spaces column.before ++ column.name ++ spaces (column.gap + 1) ++ column.type ++
    spaces (column.typeGap + 1) ++ column.attributes

structure KeyName where
  before : Nat
  name : Bytes
  after : Nat

def KeyName.text (key : KeyName) : Bytes :=
  spaces key.before ++ key.name ++ spaces key.after

structure KeyItem where
  before : Nat
  word : Bytes
  gap : Nat
  filler : Bytes
  names : List KeyName
  trailing : Bytes
  worded : word ≠ []
  unquoted : word.head? ≠ some backquote
  plainWord : ∀ byte ∈ word, byte ≠ space ∧ byte ≠ openParen
  plainFiller : ∀ byte ∈ filler, byte ≠ openParen
  plainTrailing : ∀ byte ∈ trailing, byte ≠ comma ∧ byte ≠ closeParen

theorem plain_nil : ∀ byte ∈ ([] : Bytes), byte ≠ comma ∧ byte ≠ closeParen :=
  List.forall_mem_nil _

def commaSeparated : List Bytes → Bytes
  | [] => []
  | [item] => item
  | item :: next :: items => item ++ comma :: commaSeparated (next :: items)

def KeyItem.text (key : KeyItem) : Bytes :=
  spaces key.before ++ key.word ++ spaces (key.gap + 1) ++ key.filler ++ openParen ::
    (commaSeparated (key.names.map KeyName.text) ++ closeParen :: key.trailing)

structure Ddl where
  head : Bytes
  columns : List ColumnItem
  keys : List KeyItem
  tail : Bytes
  plainHead : ∀ byte ∈ head, byte ≠ openParen
  declared : ∀ key ∈ keys, ∀ name ∈ key.names, name.name ∈ columns.map ColumnItem.name
  distinct : (columns.map ColumnItem.name).Nodup
  last : (columns.map ColumnItem.name).getLast? = some (ascii "`updated_at`")

def Ddl.text (ddl : Ddl) : Bytes :=
  ddl.head ++ openParen ::
    (commaSeparated (ddl.columns.map ColumnItem.text ++ ddl.keys.map KeyItem.text) ++
      closeParen :: ddl.tail)

def Ddl.Names (ddl : Ddl) (column : ColumnItem) : Prop :=
  ∃ key ∈ ddl.keys, ∃ name ∈ key.names, name.name = column.name

/-! ### Tokens -/

theorem skipUntil_append {stop : Byte → Bool} {skipped rest : Bytes} {byte : Byte}
    (plain : ∀ other ∈ skipped, stop other = false) (stops : stop byte = true) :
    skipUntil stop (skipped ++ byte :: rest) = .ok (byte :: rest) := by
  induction skipped with
  | nil => exact if_pos stops
  | cons other skipped ih =>
      have passed : ¬ stop other = true := by
        rw [plain other List.mem_cons_self]
        exact Bool.false_ne_true
      refine (if_neg passed).trans ?_
      exact ih fun later member => plain later (List.mem_cons_of_mem _ member)

private theorem scanToken_append {skip stop : Byte → Bool} {before token rest : Bytes} {byte : Byte}
    (skipped : ∀ other ∈ before, skip other = true)
    (starts : ∀ other, (token ++ [byte]).head? = some other → skip other = false)
    (plain : ∀ other ∈ token, stop other = false) (stops : stop byte = true) :
    scanToken skip stop (before ++ token ++ byte :: rest) = .ok (token, byte :: rest) := by
  have atToken : (before ++ token ++ byte :: rest).dropWhile skip = token ++ byte :: rest := by
    rw [List.append_assoc, List.dropWhile_append_of_pos skipped]
    cases token with
    | nil =>
        rw [List.nil_append, List.dropWhile_cons_of_neg]
        rw [starts byte rfl]
        exact Bool.false_ne_true
    | cons other token =>
        rw [List.cons_append, List.dropWhile_cons_of_neg]
        rw [starts other rfl]
        exact Bool.false_ne_true
  have taken : (token ++ byte :: rest).takeWhile (fun other => !stop other) = token := by
    rw [List.takeWhile_append_of_pos, List.takeWhile_cons_of_neg, List.append_nil]
    · rw [stops]
      exact Bool.false_ne_true
    · intro other member
      rw [plain other member]
      rfl
  unfold scanToken
  rw [atToken]
  change (skipUntil stop (token ++ byte :: rest) >>= _) = _
  rw [skipUntil_append plain stops]
  change Except.ok (_, _) = _
  rw [taken]

theorem nextToken_append (count gap : Nat) {token : Bytes} (rest : Bytes) (some : token ≠ [])
    (plain : ∀ byte ∈ token, byte ≠ space) :
    nextToken (spaces count ++ token ++ (spaces (gap + 1) ++ rest)) =
      .ok (token, spaces (gap + 1) ++ rest) := by
  apply scanToken_append
  · intro other member
    rw [List.eq_of_mem_replicate member]
    rfl
  · intro other first
    rcases List.exists_cons_of_ne_nil some with ⟨start, token, rfl⟩
    cases first
    exact decide_eq_false (plain _ List.mem_cons_self)
  · intro other member
    exact decide_eq_false (plain other member)
  · rfl

/-- Bytes between the names of a key list. -/
def Separates (separator : Bytes) : Prop :=
  ∀ byte ∈ separator, byte = space ∨ byte = comma

structure KeyToken (name : Bytes) : Prop where
  some : name ≠ []
  plain : ∀ byte ∈ name, ¬ (byte = space ∨ byte = comma ∨ byte = closeParen)

private theorem nextKeyToken_end {separator rest : Bytes} (separates : Separates separator) :
    nextKeyToken (separator ++ closeParen :: rest) = .ok ([], closeParen :: rest) := by
  have scanned : scanToken (fun byte => byte = space ∨ byte = comma)
      (fun byte => byte = space ∨ byte = comma ∨ byte = closeParen)
      (separator ++ [] ++ closeParen :: rest) = .ok ([], closeParen :: rest) := by
    apply scanToken_append
    · intro other member
      exact decide_eq_true (separates other member)
    · intro other first
      cases first
      rfl
    · intro other impossible
      cases impossible
    · rfl
  rw [List.append_nil] at scanned
  exact scanned

private theorem nextKeyToken_append {separator name rest : Bytes} {byte : Byte}
    (separates : Separates separator) (token : KeyToken name)
    (stops : byte = space ∨ byte = comma ∨ byte = closeParen) :
    nextKeyToken (separator ++ name ++ byte :: rest) = .ok (name, byte :: rest) := by
  apply scanToken_append
  · intro other member
    exact decide_eq_true (separates other member)
  · intro other first
    rcases List.exists_cons_of_ne_nil token.some with ⟨start, name, rfl⟩
    cases first
    have plain := token.plain _ List.mem_cons_self
    apply decide_eq_false
    rintro (isSpace | isComma)
    · exact plain (Or.inl isSpace)
    · exact plain (Or.inr (Or.inl isComma))
  · intro other member
    exact decide_eq_false (token.plain other member)
  · exact decide_eq_true stops

private theorem separates_spaces (count : Nat) : Separates (spaces count) :=
  fun _ member => Or.inl (List.eq_of_mem_replicate member)

theorem Separates.append {first second : Bytes} (separates : Separates first)
    (others : Separates second) : Separates (first ++ second) := by
  intro byte member
  rcases List.mem_append.mp member with inFirst | inSecond
  · exact separates byte inFirst
  · exact others byte inSecond

private theorem keyNames_cons (key : KeyName) (names : List KeyName) (rest : Bytes) :
    ∃ separator byte others, Separates separator ∧
      (byte = space ∨ byte = comma ∨ byte = closeParen) ∧
      separator ++ (commaSeparated (names.map KeyName.text) ++ closeParen :: rest) =
        byte :: others ∧
      commaSeparated ((key :: names).map KeyName.text) ++ closeParen :: rest =
        spaces key.before ++ key.name ++ byte :: others := by
  cases names with
  | nil =>
      cases after : key.after with
      | zero =>
          refine ⟨[], closeParen, rest, nofun, Or.inr (Or.inr rfl), rfl, ?_⟩
          simp [commaSeparated, KeyName.text, after, spaces]
      | succ count =>
          refine ⟨spaces (count + 1), space, spaces count ++ closeParen :: rest,
            separates_spaces _, Or.inl rfl, rfl, ?_⟩
          simp [commaSeparated, KeyName.text, after, spaces, List.replicate_succ]
  | cons next names =>
      cases after : key.after with
      | zero =>
          refine ⟨[comma], comma, commaSeparated ((next :: names).map KeyName.text) ++
            closeParen :: rest, ?_, Or.inr (Or.inl rfl), rfl, ?_⟩
          · intro byte member
            exact Or.inr (List.mem_singleton.mp member)
          · simp [commaSeparated, KeyName.text, after, spaces]
      | succ count =>
          refine ⟨spaces (count + 1) ++ [comma], space, spaces count ++ comma ::
            (commaSeparated ((next :: names).map KeyName.text) ++ closeParen :: rest),
            ?_, Or.inl rfl, ?_, ?_⟩
          · apply (separates_spaces _).append
            intro byte member
            exact Or.inr (List.mem_singleton.mp member)
          · simp [spaces, List.replicate_succ]
          · simp [commaSeparated, KeyName.text, after, spaces, List.replicate_succ]

private theorem scanKeys_append (names : List KeyName) (tokens : ∀ name ∈ names, KeyToken name.name)
    {separator : Bytes} (separates : Separates separator) {fuel : Nat}
    (enough : names.length < fuel) (scan : DdlScan) (rest : Bytes) :
    scanKeys fuel scan
        (separator ++ (commaSeparated (names.map KeyName.text) ++ closeParen :: rest)) =
      .ok (names.foldl (fun scan name => scan.addKey name.name) scan, closeParen :: rest) := by
  induction names generalizing separator fuel scan with
  | nil =>
      cases fuel with
      | zero => cases enough
      | succ fuel =>
          unfold scanKeys
          change (nextKeyToken (separator ++ closeParen :: rest) >>= _) = _
          rw [nextKeyToken_end separates]
          rfl
  | cons key names ih =>
      cases fuel with
      | zero => cases enough
      | succ fuel =>
          rcases keyNames_cons key names rest with
            ⟨between, byte, others, between_separates, stops, restIs, textIs⟩
          have token := tokens key List.mem_cons_self
          unfold scanKeys
          rw [textIs, ← List.append_assoc, ← List.append_assoc,
            nextKeyToken_append (separates.append (separates_spaces _)) token stops, ← restIs]
          have more : ¬ key.name.isEmpty = true := by
            rw [List.isEmpty_iff]
            exact token.some
          refine (if_neg more).trans ?_
          exact ih (fun name member => tokens name (List.mem_cons_of_mem _ member))
            between_separates (Nat.lt_of_succ_lt_succ enough) _

theorem commaSeparated_length (items : List Bytes) :
    items.length ≤ (commaSeparated items).length + 1 := by
  induction items with
  | nil => exact Nat.zero_le _
  | cons item items ih =>
      cases items with
      | nil => exact Nat.succ_le_succ (Nat.zero_le _)
      | cons next items =>
          unfold commaSeparated
          have tail : (comma :: commaSeparated (next :: items)).length =
              (commaSeparated (next :: items)).length + 1 := rfl
          rw [List.length_cons, List.length_append, tail]
          omega

/-! ### Items -/

/-- The scanner takes the item for what it is and stops in front of bytes that
it skips next. -/
def Scans (text : Bytes) (effect : DdlScan → DdlScan) : Prop :=
  ∃ after, (∀ byte ∈ after, byte ≠ comma ∧ byte ≠ closeParen) ∧
    ∀ scan rest, scanItem scan (text ++ rest) = .ok (effect scan, after ++ rest)

theorem backquoted_plain {inner : Bytes}
    (plain : ∀ byte ∈ inner, byte ≠ space ∧ byte ≠ comma ∧ byte ≠ closeParen) :
    ∀ byte ∈ backquote :: inner ++ [backquote],
      byte ≠ space ∧ byte ≠ comma ∧ byte ≠ closeParen := by
  intro byte member
  have quoted : backquote ≠ space ∧ backquote ≠ comma ∧ backquote ≠ closeParen := by decide
  rcases List.mem_cons.mp member with rfl | member
  · exact quoted
  · rcases List.mem_append.mp member with inside | isLast
    · exact plain byte inside
    · rw [List.mem_singleton.mp isLast]
      exact quoted

theorem ColumnItem.name_plain (column : ColumnItem) :
    ∀ byte ∈ column.name, byte ≠ space ∧ byte ≠ comma ∧ byte ≠ closeParen :=
  backquoted_plain column.plainName

private theorem ColumnItem.keyToken (column : ColumnItem) : KeyToken column.name := by
  refine ⟨List.cons_ne_nil _ _, ?_⟩
  rintro byte member (isSpace | isComma | isClose)
  · exact (column.name_plain byte member).1 isSpace
  · exact (column.name_plain byte member).2.1 isComma
  · exact (column.name_plain byte member).2.2 isClose

theorem scanItem_column (scan : DdlScan) (before gap more : Nat) {name token : Bytes} (rest : Bytes)
    (quoted : name.head? = some backquote) (plainName : ∀ byte ∈ name, byte ≠ space)
    (some : token ≠ []) (plain : ∀ byte ∈ token, byte ≠ space) :
    scanItem scan (spaces before ++ name ++
        (spaces (gap + 1) ++ token ++ (spaces (more + 1) ++ rest))) =
      .ok (scan.addField name token, spaces (more + 1) ++ rest) := by
  have filled : name ≠ [] := by
    intro none
    rw [none] at quoted
    cases quoted
  have named := nextToken_append before gap (token ++ (spaces (more + 1) ++ rest)) filled plainName
  have typed := nextToken_append (gap + 1) more rest some plain
  rw [List.append_assoc] at typed
  rw [List.append_assoc (spaces (gap + 1))]
  simp only [scanItem, named, bind, Except.bind, if_pos quoted, typed]
  rfl

theorem ColumnItem.scans (column : ColumnItem) :
    Scans column.text fun scan => scan.addField column.name column.type := by
  refine ⟨spaces (column.typeGap + 1) ++ column.attributes, ?_, ?_⟩
  · intro byte member
    rcases List.mem_append.mp member with isSpace | isAttribute
    · rw [List.eq_of_mem_replicate isSpace]
      decide
    · exact column.plainAttributes byte isAttribute
  · intro scan rest
    have textIs : column.text ++ rest = spaces column.before ++ column.name ++
        (spaces (column.gap + 1) ++ column.type ++
          (spaces (column.typeGap + 1) ++ (column.attributes ++ rest))) := by
      simp only [ColumnItem.text, List.append_assoc]
    rw [textIs, List.append_assoc (spaces (column.typeGap + 1))]
    exact scanItem_column scan column.before column.gap column.typeGap (column.attributes ++ rest)
      rfl (fun byte member => (column.name_plain byte member).1) column.typed column.plainType

theorem KeyItem.scans (key : KeyItem) (tokens : ∀ name ∈ key.names, KeyToken name.name) :
    Scans key.text fun scan =>
      key.names.foldl (fun scan name => scan.addKey name.name) scan := by
  refine ⟨key.trailing, key.plainTrailing, ?_⟩
  intro scan rest
  have named := nextToken_append key.before key.gap
    (key.filler ++ openParen :: (commaSeparated (key.names.map KeyName.text) ++
      closeParen :: (key.trailing ++ rest))) key.worded
    fun byte member => (key.plainWord byte member).1
  have textIs : key.text ++ rest = spaces key.before ++ key.word ++ (spaces (key.gap + 1) ++
      (key.filler ++ openParen :: (commaSeparated (key.names.map KeyName.text) ++
        closeParen :: (key.trailing ++ rest)))) := by
    simp [KeyItem.text]
  have skipped : ∀ byte ∈ spaces (key.gap + 1) ++ key.filler,
      decide (byte = openParen) = false := by
    intro byte member
    rcases List.mem_append.mp member with isSpace | isFiller
    · rw [List.eq_of_mem_replicate isSpace]
      rfl
    · exact decide_eq_false (key.plainFiller byte isFiller)
  unfold scanItem
  rw [textIs, named]
  refine (if_neg key.unquoted).trans ?_
  dsimp only
  rw [← List.append_assoc (spaces (key.gap + 1)), skipUntil_append skipped rfl]
  have enough : key.names.length <
      (openParen :: (commaSeparated (key.names.map KeyName.text) ++
        closeParen :: (key.trailing ++ rest))).length := by
    have commas := commaSeparated_length (key.names.map KeyName.text)
    rw [List.length_map] at commas
    simp only [List.length_cons, List.length_append]
    omega
  have nothing : Separates [] := nofun
  have listed := scanKeys_append key.names tokens nothing enough scan (key.trailing ++ rest)
  change (scanKeys _ scan (commaSeparated _ ++ _) >>= _) = _
  rw [List.nil_append] at listed
  rw [listed]
  rfl

/-- A text and what the scanner does when it takes the text for an item. -/
structure ItemText where
  text : Bytes
  effect : DdlScan → DdlScan

def ItemText.run (items : List ItemText) (scan : DdlScan) : DdlScan :=
  items.foldl (fun scan item => item.effect scan) scan

theorem Scans.skips {text : Bytes} {effect : DdlScan → DdlScan} (scans : Scans text effect)
    (scan : DdlScan) {byte : Byte} (stops : byte = comma ∨ byte = closeParen) (rest : Bytes) :
    ∃ after, scanItem scan (text ++ byte :: rest) = .ok (effect scan, after ++ byte :: rest) ∧
      skipUntil (fun byte => byte = comma ∨ byte = closeParen) (after ++ byte :: rest) =
        .ok (byte :: rest) := by
  rcases scans with ⟨after, plain, scanned⟩
  refine ⟨after, scanned scan _, skipUntil_append ?_ (decide_eq_true stops)⟩
  intro other member
  apply decide_eq_false
  intro either
  exact either.elim (plain other member).1 (plain other member).2

theorem Scans.last {text : Bytes} {effect : DdlScan → DdlScan} (scans : Scans text effect)
    (fuel : Nat) (scan : DdlScan) (tail : Bytes) :
    scanItems (fuel + 1) scan (text ++ closeParen :: tail) =
      .ok (effect scan, closeParen :: tail) := by
  rcases scans.skips scan (Or.inr rfl) tail with ⟨after, scanned, skipped⟩
  simp only [scanItems, scanned, skipped, bind, Except.bind, List.head?_cons, if_true]
  rfl

theorem Scans.more {text : Bytes} {effect : DdlScan → DdlScan} (scans : Scans text effect)
    (fuel : Nat) (scan : DdlScan) (rest : Bytes) :
    scanItems (fuel + 1) scan (text ++ comma :: rest) = scanItems fuel (effect scan) rest := by
  rcases scans.skips scan (Or.inl rfl) rest with ⟨after, scanned, skipped⟩
  have goesOn : ¬ some comma = some closeParen := by decide
  simp only [scanItems, scanned, skipped, bind, Except.bind, List.head?_cons, List.tail_cons]
  exact if_neg goesOn

theorem commaSeparated_cons (item next : Bytes) (items : List Bytes) (rest : Bytes) :
    commaSeparated (item :: next :: items) ++ rest =
      item ++ comma :: (commaSeparated (next :: items) ++ rest) := by
  rw [commaSeparated, List.append_assoc, List.cons_append]

theorem scanItems_append (items : List ItemText) (some : items ≠ [])
    (scans : ∀ item ∈ items, Scans item.text item.effect) {fuel : Nat}
    (enough : items.length ≤ fuel) (scan : DdlScan) (tail : Bytes) :
    scanItems fuel scan (commaSeparated (items.map ItemText.text) ++ closeParen :: tail) =
      .ok (ItemText.run items scan, closeParen :: tail) := by
  induction items generalizing fuel scan with
  | nil => exact absurd rfl some
  | cons item items ih =>
      cases fuel with
      | zero => cases enough
      | succ fuel =>
          have first := scans item List.mem_cons_self
          cases items with
          | nil => exact first.last fuel scan tail
          | cons next items =>
              have others : ∀ other ∈ next :: items, Scans other.text other.effect :=
                fun other member => scans other (List.mem_cons_of_mem _ member)
              rw [List.map_cons, List.map_cons, commaSeparated_cons, first.more]
              exact ih (List.cons_ne_nil _ _) others (Nat.le_of_succ_le_succ enough)
                (item.effect scan)

/-! ### What the items amount to -/

namespace DdlScan

def indices (columns : List ColumnItem) : IndexMap :=
  (columns.map ColumnItem.name).zipIdx.reverse

private theorem indices_length (columns : List ColumnItem) :
    (indices columns).length = columns.length := by
  simp [indices]

private theorem indices_snoc (columns : List ColumnItem) (column : ColumnItem) :
    indices (columns ++ [column]) = (column.name, columns.length) :: indices columns := by
  simp [indices, List.zipIdx_append]

private theorem indices_set {columns : List ColumnItem} {column : ColumnItem}
    (new : column.name ∉ columns.map ColumnItem.name) :
    (indices columns).set column.name columns.length = indices (columns ++ [column]) := by
  rw [indices_snoc]
  unfold IndexMap.set
  rw [List.filter_eq_self.mpr]
  intro entry member
  rw [indices, List.mem_reverse] at member
  apply decide_eq_true
  intro same
  apply new
  rw [← same]
  exact List.fst_mem_of_mem_zipIdx member

private theorem indices_get {columns : List ColumnItem}
    (distinct : (columns.map ColumnItem.name).Nodup)
    {i : Nat} {column : ColumnItem} (atColumn : columns[i]? = some column) :
    (indices columns).get column.name = (i, indices columns) := by
  have member : (column.name, i) ∈ indices columns := by
    rw [indices, List.mem_reverse, List.mk_mem_zipIdx_iff_getElem?, List.getElem?_map, atColumn]
    rfl
  have keys : (indices columns).map Prod.fst = (columns.map ColumnItem.name).reverse := by
    rw [indices, List.map_reverse, List.zipIdx_map_fst]
  have found : (indices columns).lookup column.name = some i := by
    rcases List.append_of_mem member with ⟨later, earlier, split⟩
    rw [List.lookup_eq_some_iff]
    refine ⟨later, earlier, split, ?_⟩
    intro entry inLater
    rw [bne_iff_ne]
    intro same
    rw [← List.nodup_reverse, ← keys, split, List.map_append, List.nodup_append] at distinct
    apply distinct.2.2 entry.1 (List.mem_map_of_mem inLater) column.name
    · exact List.mem_cons_self
    · exact same.symm
  unfold IndexMap.get
  rw [found]

/-- The scanner has seen these columns, and key lists with these names. -/
structure Scanned (columns : List ColumnItem) (named : List Bytes) (scan : DdlScan) : Prop where
  fieldNames : scan.fieldNames = columns.map ColumnItem.name
  index : scan.index = columns.length
  indices : scan.fieldNameToIndex = indices columns
  unique : ∀ i, maskBit scan.uniqueMask i = true ↔
    i < 16 ∧ ∃ column, columns[i]? = some column ∧ column.name ∈ named
  float : ∀ i, maskBit scan.floatMask i = true ↔
    i < 16 ∧ ∃ column, columns[i]? = some column ∧ toLower column.type = ascii "float"
  double : ∀ i, maskBit scan.doubleMask i = true ↔
    i < 16 ∧ ∃ column, columns[i]? = some column ∧ toLower column.type = ascii "double"

theorem Scanned.start : Scanned [] [] start := by
  have noBit (i : Nat) (p : ColumnItem → Prop) : maskBit 0 i = true ↔
      i < 16 ∧ ∃ column, ([] : List ColumnItem)[i]? = some column ∧ p column := by
    rw [maskBit_zero]
    constructor
    · intro impossible
      cases impossible
    · rintro ⟨_, column, impossible, _⟩
      cases impossible
  exact
    { fieldNames := rfl
      index := rfl
      indices := rfl
      unique := fun i => noBit i _
      float := fun i => noBit i _
      double := fun i => noBit i _ }

private theorem bits_snoc {columns : List ColumnItem} {p : ColumnItem → Prop} {mask : UInt16}
    (bits : ∀ i, maskBit mask i = true ↔ i < 16 ∧ ∃ column, columns[i]? = some column ∧ p column)
    (column : ColumnItem) [Decidable (p column)] (i : Nat) :
    maskBit (setMaskBit mask (p column) columns.length) i = true ↔
      i < 16 ∧ ∃ other, (columns ++ [column])[i]? = some other ∧ p other := by
  rw [maskBit_setMaskBit, Bool.or_eq_true, Bool.and_eq_true, decide_eq_true_iff,
    decide_eq_true_iff, bits i]
  rcases Nat.lt_trichotomy i columns.length with inside | atEnd | beyond
  · rw [List.getElem?_append_left inside]
    constructor
    · rintro (old | ⟨_, isLast, _⟩)
      · exact old
      · omega
    · exact Or.inl
  · subst atEnd
    rw [List.getElem?_concat_length]
    constructor
    · rintro (⟨_, other, impossible, _⟩ | ⟨holds, _, small⟩)
      · rw [List.getElem?_eq_none (Nat.le_refl _)] at impossible
        cases impossible
      · exact ⟨small, column, rfl, holds⟩
    · rintro ⟨small, other, same, holds⟩
      cases same
      exact Or.inr ⟨holds, rfl, small⟩
  · rw [List.getElem?_eq_none (Nat.le_of_lt beyond), List.getElem?_eq_none]
    · constructor
      · rintro (⟨_, other, impossible, _⟩ | ⟨_, isLast, _⟩)
        · cases impossible
        · omega
      · rintro ⟨_, other, impossible, _⟩
        cases impossible
    · rw [List.length_append, List.length_singleton]
      exact beyond

theorem Scanned.addField {columns : List ColumnItem} {scan : DdlScan}
    (scanned : Scanned columns [] scan) {column : ColumnItem}
    (new : column.name ∉ columns.map ColumnItem.name) :
    Scanned (columns ++ [column]) [] (scan.addField column.name column.type) := by
  constructor
  · change scan.fieldNames ++ _ = _
    rw [scanned.fieldNames, List.map_append, List.map_singleton]
  · change scan.index + 1 = _
    rw [scanned.index, List.length_append, List.length_singleton]
  · change scan.fieldNameToIndex.set _ scan.index = _
    rw [scanned.indices, scanned.index, indices_set new]
  · intro i
    change maskBit scan.uniqueMask i = true ↔ _
    rw [scanned.unique i]
    simp
  · change ∀ i, maskBit (setMaskBit scan.floatMask _ scan.index) i = true ↔ _
    rw [scanned.index]
    exact bits_snoc scanned.float column
  · change ∀ i, maskBit (setMaskBit scan.doubleMask _ scan.index) i = true ↔ _
    rw [scanned.index]
    exact bits_snoc scanned.double column

theorem Scanned.addKey {columns : List ColumnItem} {named : List Bytes} {scan : DdlScan}
    (scanned : Scanned columns named scan) (distinct : (columns.map ColumnItem.name).Nodup)
    {name : Bytes} (declared : name ∈ columns.map ColumnItem.name) :
    Scanned columns (named ++ [name]) (scan.addKey name) := by
  rcases List.mem_map.mp declared with ⟨column, member, rfl⟩
  rcases List.getElem?_of_mem member with ⟨i, atColumn⟩
  have got := indices_get distinct atColumn
  have effect : scan.addKey column.name =
      { scan with uniqueMask := setMaskBit scan.uniqueMask true i } := by
    unfold DdlScan.addKey
    rw [scanned.indices, got]
  rw [effect]
  refine
    { fieldNames := scanned.fieldNames
      index := scanned.index
      indices := scanned.indices
      unique := ?_
      float := scanned.float
      double := scanned.double }
  intro k
  change maskBit (setMaskBit scan.uniqueMask true i) k = true ↔ _
  rw [maskBit_setMaskBit, Bool.or_eq_true, Bool.true_and, decide_eq_true_iff, scanned.unique k]
  constructor
  · rintro (⟨small, other, atOther, old⟩ | ⟨rfl, small⟩)
    · exact ⟨small, other, atOther, List.mem_append_left _ old⟩
    · exact ⟨small, column, atColumn, List.mem_append_right _ (List.mem_singleton_self _)⟩
  · rintro ⟨small, other, atOther, inEither⟩
    rcases List.mem_append.mp inEither with old | isLast
    · exact Or.inl ⟨small, other, atOther, old⟩
    · right
      refine ⟨?_, small⟩
      have sameName : (columns.map ColumnItem.name)[k]? = (columns.map ColumnItem.name)[i]? := by
        rw [List.getElem?_map, List.getElem?_map, atOther, atColumn, Option.map_some,
          List.mem_singleton.mp isLast]
        rfl
      have inside : k < (columns.map ColumnItem.name).length := by
        rw [List.length_map]
        exact (List.getElem?_eq_some_iff.mp atOther).1
      exact (List.getElem?_inj inside distinct).mp sameName

theorem Scanned.columns {columns : List ColumnItem} {scan : DdlScan}
    (scanned : Scanned columns [] scan) (more : List ColumnItem)
    (distinct : ((columns ++ more).map ColumnItem.name).Nodup) :
    Scanned (columns ++ more) []
      (more.foldl (fun scan column => scan.addField column.name column.type) scan) := by
  induction more generalizing columns scan with
  | nil =>
      rw [List.append_nil]
      exact scanned
  | cons column more ih =>
      have new : column.name ∉ columns.map ColumnItem.name := by
        rw [List.map_append, List.nodup_append] at distinct
        intro old
        exact distinct.2.2 _ old column.name List.mem_cons_self rfl
      have split : columns ++ column :: more = columns ++ [column] ++ more := by
        rw [List.append_assoc, List.singleton_append]
      rw [split] at distinct ⊢
      exact ih (scanned.addField new) distinct

theorem Scanned.keys {columns : List ColumnItem} {named : List Bytes} {scan : DdlScan}
    (scanned : Scanned columns named scan) (distinct : (columns.map ColumnItem.name).Nodup)
    (names : List KeyName)
    (declared : ∀ name ∈ names, name.name ∈ columns.map ColumnItem.name) :
    Scanned columns (named ++ names.map KeyName.name)
      (names.foldl (fun scan name => scan.addKey name.name) scan) := by
  induction names generalizing named scan with
  | nil =>
      rw [List.map_nil, List.append_nil]
      exact scanned
  | cons name names ih =>
      have split : named ++ (name :: names).map KeyName.name =
          named ++ [name.name] ++ names.map KeyName.name := by
        rw [List.append_assoc, List.singleton_append, List.map_cons]
      rw [split]
      exact ih (scanned.addKey distinct (declared name List.mem_cons_self))
        fun other member => declared other (List.mem_cons_of_mem _ member)

private theorem Scanned.keyLists {columns : List ColumnItem} {named : List Bytes} {scan : DdlScan}
    (scanned : Scanned columns named scan) (distinct : (columns.map ColumnItem.name).Nodup)
    (keys : List KeyItem)
    (declared : ∀ key ∈ keys, ∀ name ∈ key.names, name.name ∈ columns.map ColumnItem.name) :
    Scanned columns (named ++ keys.flatMap fun key => key.names.map KeyName.name)
      (keys.foldl
        (fun scan key => key.names.foldl (fun scan name => scan.addKey name.name) scan) scan) := by
  induction keys generalizing named scan with
  | nil =>
      rw [List.flatMap_nil, List.append_nil]
      exact scanned
  | cons key keys ih =>
      rw [List.flatMap_cons, ← List.append_assoc]
      exact ih (scanned.keys distinct key.names (declared key List.mem_cons_self))
        fun other member => declared other (List.mem_cons_of_mem _ member)

end DdlScan

namespace Ddl

variable (ddl : Ddl)

def columnItems : List ItemText :=
  ddl.columns.map fun column =>
    ⟨column.text, fun scan => scan.addField column.name column.type⟩

def keyItems : List ItemText :=
  ddl.keys.map fun key =>
    ⟨key.text, fun scan => key.names.foldl (fun scan name => scan.addKey name.name) scan⟩

def named : List Bytes :=
  ddl.keys.flatMap fun key => key.names.map KeyName.name

private theorem mem_named {column : ColumnItem} : column.name ∈ ddl.named ↔ ddl.Names column := by
  unfold named Names
  rw [List.mem_flatMap]
  constructor
  · rintro ⟨key, member, inList⟩
    rcases List.mem_map.mp inList with ⟨name, nameMember, same⟩
    exact ⟨key, member, name, nameMember, same⟩
  · rintro ⟨key, member, name, nameMember, same⟩
    exact ⟨key, member, List.mem_map.mpr ⟨name, nameMember, same⟩⟩

theorem columns_ne_nil : ddl.columns ≠ [] := by
  intro none
  have last := ddl.last
  rw [none] at last
  cases last

theorem scans : ∀ item ∈ ddl.columnItems ++ ddl.keyItems, Scans item.text item.effect := by
  intro item member
  rcases List.mem_append.mp member with isColumn | isKey
  · rcases List.mem_map.mp isColumn with ⟨column, _, rfl⟩
    exact column.scans
  · rcases List.mem_map.mp isKey with ⟨key, keyMember, rfl⟩
    apply key.scans
    intro name nameMember
    rcases List.mem_map.mp (ddl.declared key keyMember name nameMember) with ⟨column, _, same⟩
    rw [← same]
    exact column.keyToken

/-- The scanner reads up to the closing parenthesis and no further. -/
theorem scanDdl_text : scanDdl ddl.text =
    .ok (ItemText.run (ddl.columnItems ++ ddl.keyItems) .start, closeParen :: ddl.tail) := by
  have plain : ∀ byte ∈ ddl.head, decide (byte = openParen) = false :=
    fun byte member => decide_eq_false (ddl.plainHead byte member)
  have texts : ddl.columns.map ColumnItem.text ++ ddl.keys.map KeyItem.text =
      (ddl.columnItems ++ ddl.keyItems).map ItemText.text := by
    unfold columnItems keyItems
    rw [List.map_append, List.map_map, List.map_map]
    rfl
  have some : ddl.columnItems ++ ddl.keyItems ≠ [] := by
    intro none
    have noColumns := (List.append_eq_nil_iff.mp none).1
    exact ddl.columns_ne_nil (List.map_eq_nil_iff.mp noColumns)
  have commas := commaSeparated_length ((ddl.columnItems ++ ddl.keyItems).map ItemText.text)
  rw [List.length_map] at commas
  unfold scanDdl Ddl.text
  rw [skipUntil_append plain rfl, texts]
  apply scanItems_append _ some ddl.scans
  refine Nat.le_trans commas ?_
  rw [List.length_cons, Nat.succ_le_succ_iff, List.length_append]
  exact Nat.le_add_right _ _

private theorem run_scanned : DdlScan.Scanned ddl.columns ddl.named
    (ItemText.run (ddl.columnItems ++ ddl.keyItems) .start) := by
  have columns : DdlScan.Scanned ddl.columns [] (ItemText.run ddl.columnItems .start) := by
    unfold ItemText.run columnItems
    rw [List.foldl_map]
    exact DdlScan.Scanned.start.columns ddl.columns ddl.distinct
  have keys := columns.keyLists ddl.distinct ddl.keys ddl.declared
  unfold ItemText.run at keys ⊢
  rw [List.foldl_append, keyItems, List.foldl_map]
  exact keys

end Ddl

/-! ### The result -/

private theorem maskBit_default (n i : Nat) :
    maskBit (UInt16.ofNat ((1 <<< (n - 1)) - 1)) i = true ↔ i < 16 ∧ i + 1 < n := by
  rw [maskBit_eq_testBit, UInt16.toNat_ofNat', Nat.testBit_mod_two_pow, Nat.one_shiftLeft,
    Nat.testBit_two_pow_sub_one, Bool.and_eq_true, decide_eq_true_iff, decide_eq_true_iff]
  omega

/-- What a schema knows of its table: the masks have a bit for each of the
first 16 columns. -/
structure Masks (ddl : Ddl) (info : DDLInfo) : Prop where
  fieldNames : info.fieldNames = ddl.columns.map ColumnItem.name
  float : ∀ i, maskBit info.floatMask i = true ↔
    i < 16 ∧ ∃ column, ddl.columns[i]? = some column ∧ toLower column.type = ascii "float"
  double : ∀ i, maskBit info.doubleMask i = true ↔
    i < 16 ∧ ∃ column, ddl.columns[i]? = some column ∧ toLower column.type = ascii "double"
  unique : ∀ i, maskBit info.uniqueMask i = true ↔
    i < 16 ∧ ((∃ column, ddl.columns[i]? = some column ∧ ddl.Names column) ∨
      ((∀ k < 16, ∀ column, ddl.columns[k]? = some column → ¬ ddl.Names column) ∧
        i + 1 < ddl.columns.length))

/-- No `int` leaves its range: the default mask, for a text without key columns
among the first 16, has room for one column less. -/
structure Ddl.Shiftable (ddl : Ddl) : Prop where
  columns : ddl.columns.length ≤ 32
  unnamed : (∀ k < 16, ∀ column, ddl.columns[k]? = some column → ¬ ddl.Names column) →
    ddl.columns.length ≤ 31

private theorem Ddl.shiftable_of_le {ddl : Ddl} (few : ddl.columns.length ≤ 31) : ddl.Shiftable :=
  ⟨Nat.le_succ_of_le few, fun _ => few⟩

section

variable {ddl : Ddl} {scan : DdlScan}

theorem DdlScan.Scanned.named (scanned : Scanned ddl.columns ddl.named scan) (i : Nat) :
    maskBit scan.uniqueMask i = true ↔
      i < 16 ∧ ∃ column, ddl.columns[i]? = some column ∧ ddl.Names column := by
  rw [scanned.unique i]
  simp only [ddl.mem_named]

private theorem DdlScan.Scanned.unnamed_iff (scanned : Scanned ddl.columns ddl.named scan) :
    scan.uniqueMask = 0 ↔
      ∀ k < 16, ∀ column, ddl.columns[k]? = some column → ¬ ddl.Names column := by
  constructor
  · intro zero k small column atColumn names
    have bit := (scanned.named k).mpr ⟨small, column, atColumn, names⟩
    rw [zero, maskBit_zero] at bit
    cases bit
  · intro none
    apply mask_eq_zero
    intro k
    rw [Bool.eq_false_iff]
    intro bit
    rcases (scanned.named k).mp bit with ⟨small, column, atColumn, names⟩
    exact none k small column atColumn names

theorem DdlScan.Scanned.size (scanned : Scanned ddl.columns ddl.named scan) :
    scan.fieldNameToIndex.length = ddl.columns.length := by
  rw [scanned.indices, indices_length]

theorem DdlScan.Scanned.masks (scanned : Scanned ddl.columns ddl.named scan) {info : DDLInfo}
    (finished : scan.Finished info) : Masks ddl info := by
  constructor
  · rw [finished.fieldNames, scanned.fieldNames]
  · rw [finished.floatMask]
    exact scanned.float
  · rw [finished.doubleMask]
    exact scanned.double
  · intro i
    have mask := finished.uniqueMask
    unfold DdlScan.finalMask at mask
    by_cases zero : scan.uniqueMask = 0
    · have noNames := scanned.unnamed_iff.mp zero
      rw [if_pos zero, scanned.size] at mask
      unfold defaultMask at mask
      split at mask
      · rw [← Except.ok.inj mask, maskBit_default]
        constructor
        · intro ⟨small, early⟩
          exact ⟨small, Or.inr ⟨noNames, early⟩⟩
        · rintro ⟨small, ⟨column, atColumn, names⟩ | ⟨_, early⟩⟩
          · exact absurd names (noNames i small column atColumn)
          · exact ⟨small, early⟩
      · cases mask
    · rw [if_neg zero] at mask
      rw [← Except.ok.inj mask, scanned.named i]
      constructor
      · intro ⟨small, found⟩
        exact ⟨small, Or.inl found⟩
      · rintro ⟨small, found | ⟨noNames, _⟩⟩
        · exact ⟨small, found⟩
        · exact absurd (scanned.unnamed_iff.mpr noNames) zero

private theorem DdlScan.Scanned.finishes (scanned : Scanned ddl.columns ddl.named scan)
    (shiftable : ddl.Shiftable) : ∃ info, scan.finish = .ok info := by
  have last : scan.fieldNames.getLast? = some (ascii "`updated_at`") := by
    rw [scanned.fieldNames]
    exact ddl.last
  have shifted : ¬ 32 < scan.index := by
    rw [scanned.index]
    exact Nat.not_lt.mpr shiftable.columns
  have mask : ∃ uniqueMask, scan.finalMask = .ok uniqueMask := by
    unfold DdlScan.finalMask
    by_cases zero : scan.uniqueMask = 0
    · have some := List.length_pos_of_ne_nil ddl.columns_ne_nil
      have few := shiftable.unnamed (scanned.unnamed_iff.mp zero)
      rw [if_pos zero, scanned.size, defaultMask, if_pos ⟨some, few⟩]
      exact ⟨_, rfl⟩
    · rw [if_neg zero]
      exact ⟨_, rfl⟩
  rcases mask with ⟨uniqueMask, unique⟩
  unfold DdlScan.finish
  rw [if_neg shifted, unique, last]
  exact ⟨_, rfl⟩

end

theorem Ddl.masks_of_parsed {ddl : Ddl} {info : DDLInfo} (parsed : parseDdl ddl.text = .ok info) :
    Masks ddl info := by
  rcases parseDdl_finished parsed with ⟨scan, rest, scanned, finished⟩
  rw [ddl.scanDdl_text] at scanned
  cases scanned
  exact ddl.run_scanned.masks finished

/-- Every text is read unless it has too many columns for an `int`. -/
theorem Ddl.parseDdl_accepts {ddl : Ddl} (shiftable : ddl.Shiftable) :
    ∃ info, parseDdl ddl.text = .ok info := by
  rcases ddl.run_scanned.finishes shiftable with ⟨info, finished⟩
  refine ⟨info, ?_⟩
  unfold parseDdl
  rw [ddl.scanDdl_text]
  exact finished

theorem Ddl.parseDdl_masks {ddl : Ddl} (few : ddl.columns.length ≤ 16) :
    ∃ info, parseDdl ddl.text = .ok info ∧ Masks ddl info := by
  have shiftable : ddl.Shiftable := Ddl.shiftable_of_le (Nat.le_trans few (by decide))
  rcases Ddl.parseDdl_accepts shiftable with ⟨info, parsed⟩
  exact ⟨info, parsed, Ddl.masks_of_parsed parsed⟩

/-- The schema with nothing cut off. -/
structure Recovers (ddl : Ddl) (info : DDLInfo) : Prop where
  fieldNames : info.fieldNames = ddl.columns.map ColumnItem.name
  float : ∀ i, maskBit info.floatMask i = true ↔
    ∃ column, ddl.columns[i]? = some column ∧ toLower column.type = ascii "float"
  double : ∀ i, maskBit info.doubleMask i = true ↔
    ∃ column, ddl.columns[i]? = some column ∧ toLower column.type = ascii "double"
  unique : ∀ i, maskBit info.uniqueMask i = true ↔
    (∃ column, ddl.columns[i]? = some column ∧ ddl.Names column) ∨
      ((∀ column ∈ ddl.columns, ¬ ddl.Names column) ∧ i + 1 < ddl.columns.length)

section

variable {ddl : Ddl} {info : DDLInfo} {p : ColumnItem → Prop}

theorem Ddl.early_iff
    (late : ∀ i column, 16 ≤ i → ddl.columns[i]? = some column → ¬ p column) (i : Nat) :
    (i < 16 ∧ ∃ column, ddl.columns[i]? = some column ∧ p column) ↔
      ∃ column, ddl.columns[i]? = some column ∧ p column := by
  constructor
  · exact And.right
  · intro ⟨column, atColumn, holds⟩
    have early : i < 16 := by
      by_contra large
      exact late i column (Nat.not_lt.mp large) atColumn holds
    exact ⟨early, column, atColumn, holds⟩

theorem Ddl.early_none_iff
    (late : ∀ i column, 16 ≤ i → ddl.columns[i]? = some column → ¬ p column) :
    (∀ k < 16, ∀ column, ddl.columns[k]? = some column → ¬ p column) ↔
      ∀ column ∈ ddl.columns, ¬ p column := by
  constructor
  · intro none column member
    rcases List.getElem?_of_mem member with ⟨k, atColumn⟩
    rcases Nat.lt_or_ge k 16 with small | large
    · exact none k small column atColumn
    · exact late k column large atColumn
  · intro none k _ column atColumn
    exact none column (List.mem_of_getElem? atColumn)

/-- The unique mask with nothing cut off: without a key list the last column
is not in it, so there may be one more. -/
theorem Masks.unique_iff (masks : Masks ddl info)
    (late : ∀ i column, 16 ≤ i → ddl.columns[i]? = some column → ¬ ddl.Names column)
    (noKey : (∀ column ∈ ddl.columns, ¬ ddl.Names column) → ddl.columns.length ≤ 17) (i : Nat) :
    maskBit info.uniqueMask i = true ↔
      (∃ column, ddl.columns[i]? = some column ∧ ddl.Names column) ∨
        ((∀ column ∈ ddl.columns, ¬ ddl.Names column) ∧ i + 1 < ddl.columns.length) := by
  rw [masks.unique i, Ddl.early_none_iff late, and_or_left, Ddl.early_iff late]
  apply or_congr_right
  constructor
  · exact And.right
  · intro ⟨noNames, notLast⟩
    have short := noKey noNames
    exact ⟨by omega, noNames, notLast⟩

theorem Masks.recovers (masks : Masks ddl info) (few : ddl.columns.length ≤ 16) :
    Recovers ddl info := by
  have noneLate {p : ColumnItem → Prop} (i : Nat) (column : ColumnItem) (large : 16 ≤ i)
      (atColumn : ddl.columns[i]? = some column) : ¬ p column := by
    have inside := (List.getElem?_eq_some_iff.mp atColumn).1
    omega
  constructor
  · exact masks.fieldNames
  · intro i
    exact (masks.float i).trans (Ddl.early_iff noneLate i)
  · intro i
    exact (masks.double i).trans (Ddl.early_iff noneLate i)
  · exact masks.unique_iff noneLate fun _ => Nat.le_succ_of_le few

theorem parsed_iff {text : Bytes} (parsed : parseDdl text = .ok info) (property : DDLInfo → Prop) :
    (∃ other, parseDdl text = .ok other ∧ property other) ↔ property info := by
  rw [parsed]
  constructor
  · intro ⟨other, same, holds⟩
    cases same
    exact holds
  · intro holds
    exact ⟨info, rfl, holds⟩

end

/-- `parse_ddl` recovers the schema from every well-formed text, and it reads
no further than the parenthesis that closes the list of items. -/
theorem parseDdl_recovers (ddl : Ddl) (few : ddl.columns.length ≤ 16) :
    (∃ scan, scanDdl ddl.text = .ok (scan, closeParen :: ddl.tail)) ∧
      ∃ info, parseDdl ddl.text = .ok info ∧ Recovers ddl info := by
  rcases Ddl.parseDdl_masks few with ⟨info, parsed, masks⟩
  exact ⟨⟨_, ddl.scanDdl_text⟩, info, parsed, masks.recovers few⟩

def sampleColumn (inner type : Bytes) (typed : type ≠ [])
    (plainName : ∀ byte ∈ inner, byte ≠ space ∧ byte ≠ comma ∧ byte ≠ closeParen)
    (plainType : ∀ byte ∈ type, byte ≠ space) : ColumnItem :=
  { before := 2
    inner := inner
    gap := 0
    type := type
    typeGap := 0
    attributes := ascii "not null"
    plainName := plainName
    typed := typed
    plainType := plainType
    plainAttributes := by decide }

def keyColumn : ColumnItem :=
  sampleColumn (ascii "k") (ascii "decimal(10,2)") (by decide) (by decide) (by decide)

def valueColumn : ColumnItem :=
  sampleColumn (ascii "v") (ascii "FLOAT") (by decide) (by decide) (by decide)

def updatedAtColumn : ColumnItem :=
  sampleColumn (ascii "updated_at") (ascii "datetime") (by decide) (by decide) (by decide)

/-- The text ``create table `t` (  `k` decimal(10,2) not null, ...,
  primary key (`k`) using btree) engine=innodb``. -/
def sampleDdl : Ddl :=
  { head := ascii "create table `t` "
    columns := [keyColumn, valueColumn, updatedAtColumn]
    keys :=
      [{ before := 2
         word := ascii "primary"
         gap := 0
         filler := ascii "key "
         names := [{ before := 0, name := ascii "`k`", after := 0 }]
         trailing := ascii " using btree"
         worded := by decide
         unquoted := by decide
         plainWord := by decide
         plainFiller := by decide
         plainTrailing := by decide }]
    tail := ascii " engine=innodb"
    plainHead := by decide
    declared := by decide
    distinct := by decide
    last := by decide }

theorem parseDdl_recovers_sampleDdl :
    (∃ scan, scanDdl sampleDdl.text = .ok (scan, closeParen :: sampleDdl.tail)) ∧
      ∃ info, parseDdl sampleDdl.text = .ok info ∧ Recovers sampleDdl info :=
  parseDdl_recovers sampleDdl (by decide)

end ChangeSql
