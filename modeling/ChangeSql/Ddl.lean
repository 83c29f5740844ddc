/-
The scanner of `CREATE TABLE` texts, `parse_ddl` of `utils.cpp`.

The position in the text is the text that is left from it on. Nothing tests
for the end of the text: a loop that meets it goes on behind the terminating
zero, which none of the loops stops at.
-/

import ChangeSql.Schema

namespace ChangeSql

/-- `while (!stop(ddl[pos])) pos++` -/
def skipUntil (stop : Byte → Bool) : Bytes → Except Fault Bytes
  | [] => .error .outOfBounds
  | byte :: text => if stop byte then .ok (byte :: text) else skipUntil stop text

/-- The token from here to the first byte that is one of the stops, behind
bytes to be skipped. -/
def scanToken (skip stop : Byte → Bool) (text : Bytes) : Except Fault (Bytes × Bytes) := do
  let text := text.dropWhile skip
  let rest ← skipUntil stop text
  return (text.takeWhile fun byte => !stop byte, rest)

def nextToken (text : Bytes) : Except Fault (Bytes × Bytes) :=
  scanToken (fun byte => byte = space) (fun byte => byte = space) text

def nextKeyToken (text : Bytes) : Except Fault (Bytes × Bytes) :=
  scanToken (fun byte => byte = space ∨ byte = comma)
    (fun byte => byte = space ∨ byte = comma ∨ byte = closeParen) text

/-- `std::tolower` on every byte, in the C locale. -/
def toLower (text : Bytes) : Bytes :=
  text.map fun byte => if 65 ≤ byte ∧ byte ≤ 90 then byte + 32 else byte

/-- A `flat_hash_map` from names to indices, with one entry for each name. -/
abbrev IndexMap := List (Bytes × Nat)

/-- `map[name] = index` -/
def IndexMap.set (map : IndexMap) (name : Bytes) (index : Nat) : IndexMap :=
  (name, index) :: map.filter fun entry => entry.1 ≠ name

/-- `map[name]`, which adds an entry with index zero for a new name. -/
def IndexMap.get (map : IndexMap) (name : Bytes) : Nat × IndexMap :=
  match map.lookup name with
  | some index => (index, map)
  | none => (0, map.set name 0)

structure DdlScan where
  fieldNames : List Bytes
  fieldNameToIndex : IndexMap
  index : Nat
  uniqueMask : UInt16
  floatMask : UInt16
  doubleMask : UInt16
  deriving DecidableEq, Repr

namespace DdlScan

def start : DdlScan :=
  { fieldNames := []
    fieldNameToIndex := []
    index := 0
    uniqueMask := 0
    floatMask := 0
    doubleMask := 0 }

def addField (scan : DdlScan) (fieldName fieldType : Bytes) : DdlScan :=
  { fieldNames := scan.fieldNames ++ [fieldName]
    fieldNameToIndex := scan.fieldNameToIndex.set fieldName scan.index
    index := scan.index + 1
    uniqueMask := scan.uniqueMask
    floatMask := setMaskBit scan.floatMask (toLower fieldType = ascii "float") scan.index
    doubleMask := setMaskBit scan.doubleMask (toLower fieldType = ascii "double") scan.index }

def addKey (scan : DdlScan) (key : Bytes) : DdlScan :=
  let (index, fieldNameToIndex) := scan.fieldNameToIndex.get key
  { scan with
    fieldNameToIndex := fieldNameToIndex
    uniqueMask := setMaskBit scan.uniqueMask true index }

end DdlScan

/-- The loop over the names of an index line. -/
def scanKeys : Nat → DdlScan → Bytes → Except Fault (DdlScan × Bytes)
  | 0, _, _ => .error .outOfFuel
  | fuel + 1, scan, text => do
      let (key, text) ← nextKeyToken text
      if key.isEmpty then return (scan, text)
      else scanKeys fuel (scan.addKey key) text

/-- One field definition or index line, up to the bytes in front of the comma
or parenthesis that ends it. -/
def scanItem (scan : DdlScan) (text : Bytes) : Except Fault (DdlScan × Bytes) := do
  let (fieldName, text) ← nextToken text
  if fieldName.head? = some backquote then
    let (fieldType, text) ← nextToken text
    return (scan.addField fieldName fieldType, text)
  else
    let text ← skipUntil (fun byte => byte = openParen) text
    let (scan, text) ← scanKeys text.length scan text.tail
    return (scan, text.tail)

/-- The loop over all lines. It leaves the text at the closing parenthesis. -/
def scanItems : Nat → DdlScan → Bytes → Except Fault (DdlScan × Bytes)
  | 0, _, _ => .error .outOfFuel
  | fuel + 1, scan, text => do
      let (scan, text) ← scanItem scan text
      let text ← skipUntil (fun byte => byte = comma ∨ byte = closeParen) text
      if text.head? = some closeParen then return (scan, text)
      else scanItems fuel scan text.tail

def scanDdl (ddl : Bytes) : Except Fault (DdlScan × Bytes) := do
  let text ← skipUntil (fun byte => byte = openParen) ddl
  scanItems text.length .start text.tail

/-- `(1 << (size - 1)) - 1`. A shift by 31 gives the least `int`. -/
def defaultMask (size : Nat) : Except Fault UInt16 :=
  if 0 < size ∧ size ≤ 31 then .ok (UInt16.ofNat ((1 <<< (size - 1)) - 1))
  else .error .overflow

def DdlScan.finalMask (scan : DdlScan) : Except Fault UInt16 :=
  if scan.uniqueMask = 0 then defaultMask scan.fieldNameToIndex.length
  else .ok scan.uniqueMask

/-- What `parse_ddl` makes of its variables in the end. That the loop has not
shifted an `int` by its width is looked at here. -/
def DdlScan.finish (scan : DdlScan) : Except Fault DDLInfo :=
  if 32 < scan.index then .error .overflow
  else do
    let uniqueMask ← scan.finalMask
    match scan.fieldNames.getLast? with
    | none => .error .outOfBounds
    | some last =>
        if last ≠ ascii "`updated_at`" then .error .exited
        else
          .ok
            { fieldNames := scan.fieldNames
              uniqueMask := uniqueMask
              floatMask := scan.floatMask
              doubleMask := scan.doubleMask }

def parseDdl (ddl : Bytes) : Except Fault DDLInfo := do
  let (scan, _) ← scanDdl ddl
  scan.finish

/-! ### How many columns there are -/

private theorem scanKeys_fields {fuel : Nat} {scan last : DdlScan} {text rest : Bytes}
    (scanned : scanKeys fuel scan text = .ok (last, rest)) :
    last.fieldNames = scan.fieldNames ∧ last.index = scan.index := by
  induction fuel generalizing scan text with
  | zero => cases scanned
  | succ fuel ih =>
      simp only [scanKeys, bind, Except.bind] at scanned
      split at scanned
      · cases scanned
      · split at scanned
        · cases scanned
          exact ⟨rfl, rfl⟩
        · have rest := ih scanned
          exact rest

private theorem scanItem_counts {scan last : DdlScan} {text rest : Bytes}
    (counts : scan.index = scan.fieldNames.length)
    (scanned : scanItem scan text = .ok (last, rest)) : last.index = last.fieldNames.length := by
  simp only [scanItem, bind, Except.bind] at scanned
  split at scanned
  · cases scanned
  · split at scanned
    · split at scanned
      · cases scanned
      · cases scanned
        change scan.index + 1 = (scan.fieldNames ++ _).length
        rw [List.length_append, List.length_singleton, counts]
    · split at scanned
      · cases scanned
      · split at scanned
        · cases scanned
        · rename_i outcome keys
          cases scanned
          rcases scanKeys_fields keys with ⟨sameNames, sameIndex⟩
          rw [sameNames, sameIndex, counts]

private theorem scanItems_counts {fuel : Nat} {scan last : DdlScan} {text rest : Bytes}
    (counts : scan.index = scan.fieldNames.length)
    (scanned : scanItems fuel scan text = .ok (last, rest)) :
    last.index = last.fieldNames.length := by
  induction fuel generalizing scan text with
  | zero => cases scanned
  | succ fuel ih =>
      simp only [scanItems, bind, Except.bind] at scanned
      split at scanned
      · cases scanned
      · rename_i outcome item
        have itemCounts := scanItem_counts counts item
        split at scanned
        · cases scanned
        · split at scanned
          · cases scanned
            exact itemCounts
          · exact ih itemCounts scanned

structure DdlScan.Finished (scan : DdlScan) (info : DDLInfo) : Prop where
  shifted : scan.index ≤ 32
  fieldNames : info.fieldNames = scan.fieldNames
  uniqueMask : scan.finalMask = .ok info.uniqueMask
  floatMask : info.floatMask = scan.floatMask
  doubleMask : info.doubleMask = scan.doubleMask

private theorem DdlScan.finish_finished {scan : DdlScan} {info : DDLInfo}
    (finished : scan.finish = .ok info) : scan.Finished info := by
  unfold finish at finished
  split at finished
  · cases finished
  · rename_i few
    cases unique : scan.finalMask with
    | error fault =>
        rw [unique] at finished
        cases finished
    | ok uniqueMask =>
        rw [unique] at finished
        simp only [bind, Except.bind] at finished
        split at finished
        · cases finished
        · split at finished
          · cases finished
          · cases finished
            exact ⟨Nat.not_lt.mp few, rfl, unique, rfl, rfl⟩

theorem parseDdl_finished {ddl : Bytes} {info : DDLInfo} (parsed : parseDdl ddl = .ok info) :
    ∃ scan rest, scanDdl ddl = .ok (scan, rest) ∧ scan.Finished info := by
  unfold parseDdl at parsed
  cases scanned : scanDdl ddl with
  | error fault =>
      rw [scanned] at parsed
      cases parsed
  | ok outcome =>
      rcases outcome with ⟨scan, rest⟩
      rw [scanned] at parsed
      exact ⟨scan, rest, rfl, DdlScan.finish_finished parsed⟩

/-- No column of a table that is accepted is out of the range of the shifts. -/
theorem parseDdl_width {ddl : Bytes} {info : DDLInfo} (parsed : parseDdl ddl = .ok info) :
    info.fieldNames.length ≤ 32 := by
  rcases parseDdl_finished parsed with ⟨scan, rest, scanned, finished⟩
  have counts : scan.index = scan.fieldNames.length := by
    unfold scanDdl at scanned
    cases skipped : skipUntil (fun byte => byte = openParen) ddl with
    | error fault =>
        rw [skipped] at scanned
        cases scanned
    | ok text =>
        rw [skipped] at scanned
        exact scanItems_counts rfl scanned
  rw [finished.fieldNames, ← counts]
  exact finished.shifted

end ChangeSql
