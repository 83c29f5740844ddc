/-
Which key items make up the unique mask.

`parse_ddl` looks at the first byte of an item only, to tell a column from a
key. What kind of key it is does not matter to it, so the columns of plain
indexes come into the mask as well.
-/

import ChangeSql.DdlGrammar

namespace ChangeSql

/-- The item begins with `PRIMARY` or `UNIQUE`, in any case. -/
def KeyItem.unique (key : KeyItem) : Bool :=
  toLower key.word = ascii "primary" ∨ toLower key.word = ascii "unique"

namespace Ddl

variable (ddl : Ddl)

def HasUnique : Prop :=
  ∃ key ∈ ddl.keys, key.unique = true

def Listed (unique : Bool) (column : ColumnItem) : Prop :=
  ∃ key ∈ ddl.keys, key.unique = unique ∧ ∃ name ∈ key.names, name.name = column.name

private theorem names_iff (column : ColumnItem) :
    ddl.Names column ↔ ddl.Listed true column ∨ ddl.Listed false column := by
  constructor
  · intro ⟨key, member, inList⟩
    cases kind : key.unique with
    | true => exact Or.inl ⟨key, member, kind, inList⟩
    | false => exact Or.inr ⟨key, member, kind, inList⟩
  · rintro (⟨key, member, _, inList⟩ | ⟨key, member, _, inList⟩)
    · exact ⟨key, member, inList⟩
    · exact ⟨key, member, inList⟩

def Identifies (i : Nat) (column : ColumnItem) : Prop :=
  (ddl.HasUnique ∧ ddl.Listed true column) ∨ (¬ ddl.HasUnique ∧ i + 1 < ddl.columns.length)

def UniqueMaskRight (info : DDLInfo) : Prop :=
  ∀ i, maskBit info.uniqueMask i = true ↔
    ∃ column, ddl.columns[i]? = some column ∧ ddl.Identifies i column

/-- A unique item has to take in all columns of the others. -/
structure UniqueCovers : Prop where
  hasUnique : ddl.HasUnique
  covers : ∀ column ∈ ddl.columns, ddl.Listed false column → ddl.Listed true column
  lists : (∃ column ∈ ddl.columns, ddl.Listed true column) ∨ ddl.columns.length = 1

/-- Without a unique item the others have to list nothing, or just what the
mask would be without them. -/
structure NoUniqueNeeded : Prop where
  noUnique : ¬ ddl.HasUnique
  lists : (∀ column ∈ ddl.columns, ¬ ddl.Listed false column) ∨
    ∀ i column, ddl.columns[i]? = some column →
      (ddl.Listed false column ↔ i + 1 < ddl.columns.length)

variable {ddl} {info : DDLInfo}

private theorem listed_true_false (noUnique : ¬ ddl.HasUnique) (column : ColumnItem) :
    ¬ ddl.Listed true column :=
  fun ⟨key, member, kind, _⟩ => noUnique ⟨key, member, kind⟩

private theorem maskBit_column (recovers : Recovers ddl info) {i : Nat} {column : ColumnItem}
    (atColumn : ddl.columns[i]? = some column) :
    maskBit info.uniqueMask i = true ↔
      ddl.Names column ∨
        ((∀ column ∈ ddl.columns, ¬ ddl.Names column) ∧ i + 1 < ddl.columns.length) := by
  rw [recovers.unique i]
  constructor
  · rintro (⟨other, atOther, names⟩ | default)
    · rw [atColumn] at atOther
      cases atOther
      exact Or.inl names
    · exact Or.inr default
  · rintro (names | default)
    · exact Or.inl ⟨column, atColumn, names⟩
    · exact Or.inr default

private theorem uniqueMaskRight_iff (recovers : Recovers ddl info) :
    ddl.UniqueMaskRight info ↔
      ∀ i column, ddl.columns[i]? = some column →
        ((ddl.Names column ∨
          ((∀ column ∈ ddl.columns, ¬ ddl.Names column) ∧ i + 1 < ddl.columns.length)) ↔
            ddl.Identifies i column) := by
  constructor
  · intro right i column atColumn
    rw [← maskBit_column recovers atColumn, right i]
    constructor
    · intro ⟨other, atOther, identifies⟩
      rw [atColumn] at atOther
      cases atOther
      exact identifies
    · intro identifies
      exact ⟨column, atColumn, identifies⟩
  · intro same i
    rcases Nat.lt_or_ge i ddl.columns.length with inside | beyond
    · have atColumn := List.getElem?_eq_getElem inside
      rw [maskBit_column recovers atColumn, same i _ atColumn]
      constructor
      · intro identifies
        exact ⟨_, atColumn, identifies⟩
      · intro ⟨other, atOther, identifies⟩
        rw [atColumn] at atOther
        cases atOther
        exact identifies
    · rw [recovers.unique i, List.getElem?_eq_none beyond]
      constructor
      · rintro (⟨other, impossible, _⟩ | ⟨_, early⟩)
        · cases impossible
        · omega
      · intro ⟨other, impossible, _⟩
        cases impossible

private theorem right_of_unique (recovers : Recovers ddl info) (hasUnique : ddl.HasUnique) :
    ddl.UniqueMaskRight info ↔ ddl.UniqueCovers := by
  have identifies (i : Nat) (column : ColumnItem) :
      ddl.Identifies i column ↔ ddl.Listed true column := by
    unfold Identifies
    simp only [hasUnique, true_and, not_true_eq_false, false_and, or_false]
  rw [uniqueMaskRight_iff recovers]
  simp only [identifies]
  constructor
  · intro same
    apply UniqueCovers.mk hasUnique
    · intro column member inIndex
      rcases List.getElem?_of_mem member with ⟨i, atColumn⟩
      exact (same i column atColumn).mp (Or.inl ((ddl.names_iff column).mpr (Or.inr inIndex)))
    · by_contra neither
      rw [not_or] at neither
      rcases neither with ⟨none, several⟩
      have positive := List.length_pos_of_ne_nil ddl.columns_ne_nil
      have first := List.getElem?_eq_getElem positive
      apply none
      refine ⟨_, List.getElem_mem positive, (same 0 _ first).mp ?_⟩
      by_cases named : ∃ column ∈ ddl.columns, ddl.Names column
      · exfalso
        rcases named with ⟨column, member, names⟩
        rcases List.getElem?_of_mem member with ⟨i, atColumn⟩
        exact none ⟨column, member, (same i column atColumn).mp (Or.inl names)⟩
      · right
        constructor
        · intro column member names
          exact named ⟨column, member, names⟩
        · omega
  · intro covers i column atColumn
    have member := List.mem_of_getElem? atColumn
    rw [ddl.names_iff]
    constructor
    · rintro ((inUnique | inIndex) | ⟨none, early⟩)
      · exact inUnique
      · exact covers.covers column member inIndex
      · exfalso
        rcases covers.lists with ⟨other, otherMember, inUnique⟩ | single
        · exact none other otherMember ((ddl.names_iff other).mpr (Or.inl inUnique))
        · omega
    · intro inUnique
      exact Or.inl (Or.inl inUnique)

private theorem right_of_noUnique (recovers : Recovers ddl info) (noUnique : ¬ ddl.HasUnique) :
    ddl.UniqueMaskRight info ↔ ddl.NoUniqueNeeded := by
  have identifies (i : Nat) (column : ColumnItem) :
      ddl.Identifies i column ↔ i + 1 < ddl.columns.length := by
    unfold Identifies
    simp only [noUnique, false_and, not_false_eq_true, true_and, false_or]
  have names (column : ColumnItem) : ddl.Names column ↔ ddl.Listed false column := by
    rw [ddl.names_iff]
    exact or_iff_right (listed_true_false noUnique column)
  rw [uniqueMaskRight_iff recovers]
  simp only [identifies, names]
  constructor
  · intro same
    apply NoUniqueNeeded.mk noUnique
    by_cases listed : ∃ column ∈ ddl.columns, ddl.Listed false column
    · right
      intro i column atColumn
      rw [← same i column atColumn]
      constructor
      · exact Or.inl
      · rintro (inIndex | ⟨none, _⟩)
        · exact inIndex
        · rcases listed with ⟨other, member, inIndex⟩
          exact absurd inIndex (none other member)
    · left
      intro column member inIndex
      exact listed ⟨column, member, inIndex⟩
  · intro needed i column atColumn
    have member := List.mem_of_getElem? atColumn
    rcases needed.lists with none | exactly
    · constructor
      · rintro (inIndex | ⟨_, early⟩)
        · exact absurd inIndex (none column member)
        · exact early
      · intro early
        exact Or.inr ⟨none, early⟩
    · rw [exactly i column atColumn]
      constructor
      · rintro (early | ⟨_, early⟩)
        · exact early
        · exact early
      · exact Or.inl

/-- The unique mask is right exactly if the plain indexes add nothing to it. -/
theorem parseDdl_uniqueMask_iff (ddl : Ddl) (few : ddl.columns.length ≤ 16) :
    (∃ info, parseDdl ddl.text = .ok info ∧ ddl.UniqueMaskRight info) ↔
      ddl.UniqueCovers ∨ ddl.NoUniqueNeeded := by
  rcases parseDdl_masks few with ⟨info, parsed, masks⟩
  have recovers := masks.recovers few
  rw [parsed_iff parsed]
  by_cases hasUnique : ddl.HasUnique
  · rw [right_of_unique recovers hasUnique]
    exact (or_iff_left fun needed => needed.noUnique hasUnique).symm
  · rw [right_of_noUnique recovers hasUnique]
    exact (or_iff_right fun covers => hasUnique covers.hasUnique).symm

theorem parseDdl_uniqueMask_iff_sampleDdl :
    (∃ info, parseDdl sampleDdl.text = .ok info ∧ sampleDdl.UniqueMaskRight info) ↔
      sampleDdl.UniqueCovers ∨ sampleDdl.NoUniqueNeeded :=
  parseDdl_uniqueMask_iff sampleDdl (by decide)

def sampleIndex : KeyItem :=
  { before := 2
    word := ascii "key"
    gap := 0
    filler := ascii "by_v "
    names := [{ before := 0, name := ascii "`v`", after := 0 }]
    trailing := []
    worded := by decide
    unquoted := by decide
    plainWord := by decide
    plainFiller := by decide
    plainTrailing := plain_nil }

def indexedDdl : Ddl :=
  { sampleDdl with
    keys := sampleDdl.keys ++ [sampleIndex]
    declared := by decide }

/-- The index on `v` makes `v` a part of the key. -/
theorem not_uniqueMaskRight_indexedDdl :
    ¬ ∃ info, parseDdl indexedDdl.text = .ok info ∧ indexedDdl.UniqueMaskRight info := by
  intro ⟨info, parsed, right⟩
  rcases parseDdl_masks (show indexedDdl.columns.length ≤ 16 by decide) with
    ⟨same, parsedSame, masks⟩
  rw [parsedSame] at parsed
  cases parsed
  have indexed : sampleIndex ∈ indexedDdl.keys :=
    List.mem_append_right _ (List.mem_singleton_self _)
  have isSet : maskBit info.uniqueMask 1 = true := by
    rw [masks.unique 1]
    exact ⟨by decide, Or.inl ⟨_, rfl, sampleIndex, indexed, _, List.mem_cons_self, rfl⟩⟩
  rcases (right 1).mp isSet with ⟨column, atColumn, identifies⟩
  cases atColumn
  rcases identifies with ⟨_, key, member, unique, name, inList, same⟩ | ⟨noUnique, _⟩
  · rcases List.mem_cons.mp member with rfl | member
    · rw [List.mem_singleton.mp inList] at same
      exact absurd same (by decide)
    · rw [List.mem_singleton.mp member] at unique
      exact absurd unique (by decide)
  · exact noUnique ⟨_, List.mem_cons_self, by decide⟩

end Ddl

end ChangeSql
