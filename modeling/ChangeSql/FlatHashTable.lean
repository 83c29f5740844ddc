/-
The hash table of `flat_hash_map.hpp`, as far as the sources use it.

An entry is a slot: `distance_from_desired` is -1 in a free one and 0 in the
special one at the end, which holds no value. The maximal load factor is one
half everywhere, and its products and quotients in `double` are those of
natural numbers. An allocation that is not granted throws, and what has been
stored in the table by then stays there.
-/

import ChangeSql.Bytes
import ChangeSql.Library.BitSmear
import ChangeSql.Library.RobinHood

namespace ChangeSql

open RobinHood

namespace FlatHash

def minLookups : Nat := 4

def log2Table : List Nat :=
  [63, 0, 58, 1, 59, 47, 53, 2,
    60, 39, 48, 27, 54, 33, 42, 3,
    61, 51, 37, 40, 49, 18, 28, 20,
    55, 30, 34, 11, 43, 14, 22, 4,
    62, 57, 46, 52, 38, 26, 32, 41,
    50, 36, 17, 19, 29, 10, 13, 21,
    56, 45, 25, 31, 35, 16, 9, 12,
    44, 24, 15, 8, 23, 7, 6, 5]

/-- `log2`: the table is looked up at the top bits of a product. -/
def log2 (value : Nat) : Nat :=
  let value := BitSmear.smear value
  log2Table.getD (((value - value >>> 1) * 0x07EDD5E59A4E28C2 % 2 ^ 64) >>> 58) 0

/-- `next_power_of_two`. Both the decrement and the increment wrap around. -/
def nextPowerOfTwo (i : Nat) : Nat :=
  (BitSmear.smear ((i + (2 ^ 64 - 1)) % 2 ^ 64) + 1) % 2 ^ 64

/-- `index_for_hash` of `fibonacci_hash_policy`. -/
def indexForHash (shift : Nat) (hash : UInt64) : Nat :=
  (11400714819323198485 * hash.toNat % 2 ^ 64) >>> shift

def nextSizeOver (size : Nat) : Nat :=
  max 2 (nextPowerOfTwo size)

def computeMaxLookups (numBuckets : Nat) : Nat :=
  max minLookups (log2 numBuckets)

def numBucketsForReserve (numElements : Nat) : Nat :=
  2 * numElements

/-- Which allocations are granted, by their number of entries. An entry takes
up sixteen bytes or more, so the address space has no room for 2^60 of them. -/
structure Allocator where
  grants : Nat → Bool
  addressable : ∀ slots, grants slots = true → slots < 2 ^ 60

end FlatHash

open FlatHash

/-- The members of `sherwood_v3_table`; `shift` is that of its hash policy. -/
structure FlatHashTable (α : Type) where
  entries : List (Slot α)
  numSlotsMinusOne : Nat
  shift : Nat
  maxLookups : Nat
  numElements : Nat
  deriving DecidableEq, Repr

namespace FlatHashTable

variable {α κ : Type}

/-- A new table, or one that `reset_to_empty_state` has reset. -/
def empty : FlatHashTable α :=
  { entries := [.free, .free, .free, .stop]
    numSlotsMinusOne := 0
    shift := 63
    maxLookups := minLookups - 1
    numElements := 0 }

def bucketCount (table : FlatHashTable α) : Nat :=
  if table.numSlotsMinusOne = 0 then 0 else table.numSlotsMinusOne + 1

/-- The table that `rehash` moves its elements to. -/
def allocated (numBuckets : Nat) : FlatHashTable α :=
  { entries := List.replicate (numBuckets + computeMaxLookups numBuckets - 1) .free ++ [.stop]
    numSlotsMinusOne := numBuckets - 1
    shift := 64 - log2 numBuckets
    maxLookups := computeMaxLookups numBuckets
    numElements := 0 }

/-- The answer of `emplace`: the table, the index that the iterator points to
and whether the element is a new one. -/
abbrev Emplacement (α : Type) := FlatHashTable α × Nat × Bool

/-- How an operation can fail: in a way of its own, or with a `bad_alloc` for
so many entries, which leaves the table as it is by then. -/
inductive Failure (α : Type) where
  | fault (fault : Fault)
  | badAlloc (slots : Nat) (left : FlatHashTable α)
  deriving DecidableEq, Repr

/-- The loop of `rehash` over the old entries but the special one. -/
def emplaceAll (emplace : FlatHashTable α → α → Except (Failure α) (Emplacement α)) :
    List α → FlatHashTable α → Except (Failure α) (FlatHashTable α)
  | [], table => .ok table
  | item :: items, table => do
      let (table, _, _) ← emplace table item
      emplaceAll emplace items table

def rehash (allocator : Allocator)
    (emplace : FlatHashTable α → α → Except (Failure α) (Emplacement α)) (numBuckets : Nat)
    (table : FlatHashTable α) : Except (Failure α) (FlatHashTable α) :=
  let numBuckets := max numBuckets (2 * table.numElements)
  if numBuckets = 0 then .ok { empty with numElements := table.numElements }
  else
    let numBuckets := nextSizeOver numBuckets
    if numBuckets = table.bucketCount then .ok table
    else if allocator.grants (numBuckets + computeMaxLookups numBuckets) then
      emplaceAll emplace
        (items (table.entries.take (table.numSlotsMinusOne + table.maxLookups)))
        (allocated numBuckets)
    else .error (.badAlloc (numBuckets + computeMaxLookups numBuckets) table)

def grow (allocator : Allocator)
    (emplace : FlatHashTable α → α → Except (Failure α) (Emplacement α)) (table : FlatHashTable α) :
    Except (Failure α) (FlatHashTable α) :=
  rehash allocator emplace (max 4 (2 * table.bucketCount)) table

/-- `emplace_new_key`, for a slot that is closer to home than the new element
would be. An element left over by the crowd goes to the slot of the new one
until the table has grown. -/
def emplaceNewKey (allocator : Allocator)
    (emplace : FlatHashTable α → α → Except (Failure α) (Emplacement α)) (distance position : Nat)
    (item : α) (table : FlatHashTable α) : Except (Failure α) (Emplacement α) :=
  if table.numSlotsMinusOne = 0 ∨ distance = table.maxLookups ∨
      table.numSlotsMinusOne + 1 < 2 * (table.numElements + 1) then do
    let table ← grow allocator emplace table
    emplace table item
  else
    let before := table.entries.take position
    let settle (slots : List (Slot α)) : FlatHashTable α :=
      { table with
        entries := before ++ .taken distance item :: slots
        numElements := table.numElements + 1 }
    match table.entries.drop position with
    | .free :: slots => .ok (settle slots, position, true)
    | .taken other pushed :: slots =>
        match push table.maxLookups (other + 1) pushed slots with
        | .settled slots => .ok (settle slots, position, true)
        | .crowded slots left => do
            let table ← grow allocator emplace
              { table with entries := before ++ .taken distance left :: slots }
            emplace table item
        | .astray => .error (.fault .outOfBounds)
    | _ => .error (.fault .outOfBounds)

section

variable (hash : κ → UInt64)

def bucket (table : FlatHashTable α) (k : κ) : Nat :=
  indexForHash table.shift (hash k)

variable [DecidableEq κ] (key : α → κ)

/-- `find`. There is no result where the source returns `end()`. -/
def find (k : κ) (table : FlatHashTable α) : Except Fault (Option Nat) :=
  let index := table.bucket hash k
  match search key k 0 (table.entries.drop index) with
  | .found passed => .ok (some (index + passed))
  | .missed _ => .ok none
  | .astray => .error .outOfBounds

/-- The first argument bounds how often the table can still grow. -/
def emplaceWithin (allocator : Allocator) :
    Nat → FlatHashTable α → α → Except (Failure α) (Emplacement α)
  | 0, _, _ => .error (.fault .outOfFuel)
  | growths + 1, table, item =>
      let index := table.bucket hash (key item)
      match search key (key item) 0 (table.entries.drop index) with
      | .found passed => .ok (table, index + passed, false)
      | .missed passed =>
          emplaceNewKey allocator (emplaceWithin allocator growths) passed (index + passed) item
            table
      | .astray => .error (.fault .outOfBounds)

/-- Every growth doubles the buckets, of which there are less than 2^60. -/
def emplace (allocator : Allocator) (table : FlatHashTable α) (item : α) :
    Except (Failure α) (Emplacement α) :=
  emplaceWithin hash key allocator 64 table item

def reserve (allocator : Allocator) (numElements : Nat) (table : FlatHashTable α) :
    Except (Failure α) (FlatHashTable α) :=
  let requiredBuckets := numBucketsForReserve numElements
  if table.bucketCount < requiredBuckets then
    rehash allocator (emplace hash key allocator) requiredBuckets table
  else .ok table

end

end FlatHashTable

end ChangeSql
