/-
Runs of transition systems.

A rank that falls with every step bounds the length of a run. Systems that keep
their memory in cells of one store run as if each of them were alone, as long
as the cells have different names. Systems that share all of their memory keep
what each of them owns, as long as the others guarantee not to touch it.
-/

import Mathlib.Logic.Relation
import Mathlib.Logic.Function.Basic

namespace ChangeSql.Transitions

section

variable {α : Type} {step : α → α → Prop} {before after : α} {rank : Nat}

inductive Steps (step : α → α → Prop) : Nat → α → α → Prop where
  | refl (state : α) : Steps step 0 state state
  | tail {count : Nat} {before middle after : α} (steps : Steps step count before middle)
      (last : step middle after) : Steps step (count + 1) before after

/-- A rank that falls with every step falls by the length of the run. -/
theorem Steps.ranked {ranked : α → Nat → Prop} {count : Nat}
    (steps : Steps step count before after) (start : ranked before rank)
    (falls : ∀ {before after rank}, ranked before rank → step before after →
      ∃ lower < rank, ranked after lower) :
    ∃ lower, lower + count ≤ rank ∧ ranked after lower := by
  induction steps with
  | refl => exact ⟨rank, Nat.le_refl rank, start⟩
  | tail _ last ih =>
      rcases ih start with ⟨middle, bounded, middleRanked⟩
      rcases falls middleRanked last with ⟨lower, less, lowerRanked⟩
      exact ⟨lower, by omega, lowerRanked⟩

end

section

variable {ι α κ μ : Type} [DecidableEq ι] [DecidableEq κ]

/-- The parts of a system and the store that their memory is in. -/
structure Shared (ι α κ μ : Type) where
  parts : ι → α
  store : κ → μ

/-- One part makes a step, over what it finds in its cell, and leaves its
memory there. -/
inductive Interleaved (cell : ι → κ) (view : α → μ) (load : μ → α → α) (step : ι → α → α → Prop) :
    Shared ι α κ μ → Shared ι α κ μ → Prop where
  | act {state : Shared ι α κ μ} (i : ι) {after : α}
      (taken : step i (load (state.store (cell i)) (state.parts i)) after) :
      Interleaved cell view load step state
        { parts := Function.update state.parts i after
          store := Function.update state.store (cell i) (view after) }

variable {cell : ι → κ} {view : α → μ} {load : μ → α → α} {step : ι → α → α → Prop}
  {before after : Shared ι α κ μ}

def Consistent (cell : ι → κ) (view : α → μ) (state : Shared ι α κ μ) : Prop :=
  ∀ i, state.store (cell i) = view (state.parts i)

theorem Interleaved.part (taken : Interleaved cell view load step before after)
    (apart : Function.Injective cell) (loads : ∀ part, load (view part) part = part)
    (consistent : Consistent cell view before) :
    Consistent cell view after ∧
      ∀ i, after.parts i = before.parts i ∨ step i (before.parts i) (after.parts i) := by
  cases taken with
  | @act j next taken =>
      rw [consistent j, loads] at taken
      constructor
      · intro i
        by_cases same : i = j
        · subst same
          simp only [Function.update_self]
        · have otherCell : cell i ≠ cell j := fun sameCell => same (apart sameCell)
          simp only [Function.update_of_ne same, Function.update_of_ne otherCell]
          exact consistent i
      · intro i
        by_cases same : i = j
        · subst same
          right
          simp only [Function.update_self]
          exact taken
        · left
          exact Function.update_of_ne same next before.parts

theorem Interleaved.alone {state : Shared ι α κ μ} {i : ι} {last : α}
    (loads : ∀ part, load (view part) part = part) (own : state.store (cell i) = view (state.parts i))
    (run : Relation.ReflTransGen (step i) (state.parts i) last) :
    Relation.ReflTransGen (Interleaved cell view load step) state
      { parts := Function.update state.parts i last
        store := Function.update state.store (cell i) (view last) } := by
  induction run with
  | refl =>
      rw [Function.update_eq_self, ← own, Function.update_eq_self]
  | @tail middle last _ taken ih =>
      have acted : Interleaved cell view load step
          { parts := Function.update state.parts i middle
            store := Function.update state.store (cell i) (view middle) }
          { parts := Function.update (Function.update state.parts i middle) i last
            store := Function.update (Function.update state.store (cell i) (view middle)) (cell i)
              (view last) } := by
        apply Interleaved.act i
        dsimp only
        rw [Function.update_self, Function.update_self, loads]
        exact taken
      rw [Function.update_idem, Function.update_idem] at acted
      exact ih.tail acted

/-- In a run of the system every part makes a run of its own. -/
theorem project (run : Relation.ReflTransGen (Interleaved cell view load step) before after)
    (apart : Function.Injective cell) (loads : ∀ part, load (view part) part = part)
    (consistent : Consistent cell view before) :
    Consistent cell view after ∧
      ∀ i, Relation.ReflTransGen (step i) (before.parts i) (after.parts i) := by
  induction run with
  | refl => exact ⟨consistent, fun i => .refl⟩
  | tail _ last ih =>
      rcases last.part apart loads ih.1 with ⟨lastConsistent, each⟩
      refine ⟨lastConsistent, ?_⟩
      intro i
      rcases each i with still | taken
      · rw [still]
        exact ih.2 i
      · exact (ih.2 i).tail taken

end

section

variable {ι α μ : Type} [DecidableEq ι]

structure Common (ι α μ : Type) where
  parts : ι → α
  memory : μ

inductive Acting (step : ι → α → μ → α → μ → Prop) : Common ι α μ → Common ι α μ → Prop where
  | act {state : Common ι α μ} (i : ι) {after : α} {later : μ}
      (taken : step i (state.parts i) state.memory after later) :
      Acting step state { parts := Function.update state.parts i after, memory := later }

theorem Acting.alone {step : ι → α → μ → α → μ → Prop} {state : Common ι α μ} {i : ι}
    {last : α × μ}
    (run : Relation.ReflTransGen
      (fun before after : α × μ => step i before.1 before.2 after.1 after.2)
      (state.parts i, state.memory) last) :
    Relation.ReflTransGen (Acting step) state
      { parts := Function.update state.parts i last.1, memory := last.2 } := by
  induction run with
  | refl => rw [Function.update_eq_self]
  | @tail middle last _ taken ih =>
      have acted : Acting step { parts := Function.update state.parts i middle.1, memory := middle.2 }
          { parts := Function.update (Function.update state.parts i middle.1) i last.1
            memory := last.2 } := by
        apply Acting.act i
        dsimp only
        rw [Function.update_self]
        exact taken
      rw [Function.update_idem] at acted
      exact ih.tail acted

/-- A part that owns something keeps it and gives a guarantee, under which the
others keep what they own. -/
structure Guaranteed (step : ι → α → μ → α → μ → Prop) (owns : ι → α → μ → Prop)
    (guarantee : ι → μ → μ → Prop) : Prop where
  keeps : ∀ {i part memory after later}, owns i part memory → step i part memory after later →
    owns i after later ∧ guarantee i memory later
  stable : ∀ {i j part memory later}, i ≠ j → guarantee i memory later → owns j part memory →
    owns j part later

variable {step : ι → α → μ → α → μ → Prop} {owns : ι → α → μ → Prop}
  {guarantee : ι → μ → μ → Prop} {before after : Common ι α μ}

theorem Guaranteed.act (rules : Guaranteed step owns guarantee)
    (owned : ∀ i, owns i (before.parts i) before.memory) (taken : Acting step before after) :
    (∀ i, owns i (after.parts i) after.memory) ∧ ∃ i, guarantee i before.memory after.memory := by
  cases taken with
  | @act i part later taken =>
      rcases rules.keeps (owned i) taken with ⟨own, given⟩
      refine ⟨?_, i, given⟩
      intro j
      by_cases same : j = i
      · subst same
        simp only [Function.update_self]
        exact own
      · simp only [Function.update_of_ne same]
        exact rules.stable (Ne.symm same) given (owned j)

/-- Whatever the order of the steps, every part owns what it owned, and the
memory has changed as some of them guarantee. -/
theorem Guaranteed.run (rules : Guaranteed step owns guarantee)
    (owned : ∀ i, owns i (before.parts i) before.memory)
    (run : Relation.ReflTransGen (Acting step) before after) :
    (∀ i, owns i (after.parts i) after.memory) ∧
      Relation.ReflTransGen (fun memory later => ∃ i, guarantee i memory later)
        before.memory after.memory := by
  induction run with
  | refl => exact ⟨owned, .refl⟩
  | tail _ last ih =>
      rcases rules.act ih.1 last with ⟨lastOwned, given⟩
      exact ⟨lastOwned, ih.2.tail given⟩

end

end ChangeSql.Transitions
