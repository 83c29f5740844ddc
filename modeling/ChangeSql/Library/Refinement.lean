/-
Machines that answer calls, and specifications that they refine.

A machine may fail, its specification does not, but allows some calls only. A
relation between the states that every allowed call keeps, with the answer of
the specification, carries over to all sequences of calls. So it does for a
machine that may also fail in certain ways, up to the call that fails, and to
its end where no call can.
-/

namespace ChangeSql.Refinement

variable {Call Answer Error State Spec : Type}

def run (step : State → Call → Except Error (Answer × State)) :
    State → List Call → Except Error (List Answer × State)
  | state, [] => .ok ([], state)
  | state, call :: calls => do
      let (answer, state) ← step state call
      let (answers, state) ← run step state calls
      return (answer :: answers, state)

def specRun (spec : Spec → Call → Answer × Spec) : Spec → List Call → List Answer × Spec
  | state, [] => ([], state)
  | state, call :: calls =>
      let rest := specRun spec (spec state call).2 calls
      ((spec state call).1 :: rest.1, rest.2)

def Allowed (spec : Spec → Call → Answer × Spec) (allows : Spec → Call → Prop) :
    Spec → List Call → Prop
  | _, [] => True
  | state, call :: calls => allows state call ∧ Allowed spec allows (spec state call).2 calls

instance Allowed.decidable (spec : Spec → Call → Answer × Spec) (allows : Spec → Call → Prop)
    [∀ state call, Decidable (allows state call)] :
    (state : Spec) → (calls : List Call) → Decidable (Allowed spec allows state calls)
  | _, [] => isTrue trivial
  | state, call :: calls =>
      have := Allowed.decidable spec allows (spec state call).2 calls
      inferInstanceAs (Decidable (allows state call ∧
        Allowed spec allows (spec state call).2 calls))

theorem Allowed.mono {spec : Spec → Call → Answer × Spec} {allows permits : Spec → Call → Prop}
    {state : Spec} {calls : List Call} (allowed : Allowed spec allows state calls)
    (more : ∀ state call, allows state call → permits state call) :
    Allowed spec permits state calls := by
  induction calls generalizing state with
  | nil => trivial
  | cons call calls ih => exact ⟨more state call allowed.1, ih allowed.2⟩

theorem Allowed.of_forall {spec : Spec → Call → Answer × Spec} {allows : Spec → Call → Prop}
    (always : ∀ state call, allows state call) (state : Spec) (calls : List Call) :
    Allowed spec allows state calls := by
  induction calls generalizing state with
  | nil => trivial
  | cons call calls ih => exact ⟨always state call, ih _⟩

/-- One allowed call gets the answer of the specification and keeps the relation. -/
def Refines (step : State → Call → Except Error (Answer × State))
    (spec : Spec → Call → Answer × Spec) (allows : Spec → Call → Prop)
    (relates : Spec → State → Prop) : Prop :=
  ∀ abstract concrete call, relates abstract concrete → allows abstract call →
    ∃ next, step concrete call = .ok ((spec abstract call).1, next) ∧
      relates (spec abstract call).2 next

theorem Refines.run {step : State → Call → Except Error (Answer × State)}
    {spec : Spec → Call → Answer × Spec} {allows : Spec → Call → Prop}
    {relates : Spec → State → Prop} (refines : Refines step spec allows relates)
    {abstract : Spec} {concrete : State} (related : relates abstract concrete)
    {calls : List Call} (allowed : Allowed spec allows abstract calls) :
    ∃ final, run step concrete calls = .ok ((specRun spec abstract calls).1, final) ∧
      relates (specRun spec abstract calls).2 final := by
  induction calls generalizing abstract concrete with
  | nil => exact ⟨concrete, rfl, related⟩
  | cons call calls ih =>
      rcases allowed with ⟨here, later⟩
      rcases refines abstract concrete call related here with ⟨next, stepped, nextRelated⟩
      rcases ih nextRelated later with ⟨final, ran, finalRelated⟩
      refine ⟨final, ?_, finalRelated⟩
      simp only [Refinement.run, stepped, ran, bind, Except.bind]
      rfl

/-- As `Refines`, but in some states a call may also fail in these ways. -/
def RefinesUnless (fails : Spec → Call → Error → Prop)
    (step : State → Call → Except Error (Answer × State)) (spec : Spec → Call → Answer × Spec)
    (allows : Spec → Call → Prop) (relates : Spec → State → Prop) : Prop :=
  ∀ abstract concrete call, relates abstract concrete → allows abstract call →
    (∃ error, step concrete call = .error error ∧ fails abstract call error) ∨
      ∃ next, step concrete call = .ok ((spec abstract call).1, next) ∧
        relates (spec abstract call).2 next

/-- One of the calls fails in such a way, behind others that are answered. -/
inductive FailsAt (fails : Spec → Call → Error → Prop)
    (step : State → Call → Except Error (Answer × State)) (spec : Spec → Call → Answer × Spec)
    (relates : Spec → State → Prop) (abstract : Spec) (concrete : State) : List Call → Prop where
  | call {earlier later : List Call} {call : Call} {between : State} {error : Error}
      (answered : run step concrete earlier = .ok ((specRun spec abstract earlier).1, between))
      (related : relates (specRun spec abstract earlier).2 between)
      (failed : fails (specRun spec abstract earlier).2 call error)
      (ended : run step concrete (earlier ++ call :: later) = .error error) :
      FailsAt fails step spec relates abstract concrete (earlier ++ call :: later)

theorem RefinesUnless.run {fails : Spec → Call → Error → Prop}
    {step : State → Call → Except Error (Answer × State)} {spec : Spec → Call → Answer × Spec}
    {allows : Spec → Call → Prop} {relates : Spec → State → Prop}
    (refines : RefinesUnless fails step spec allows relates) {abstract : Spec} {concrete : State}
    (related : relates abstract concrete) {calls : List Call}
    (allowed : Allowed spec allows abstract calls) :
    FailsAt fails step spec relates abstract concrete calls ∨
      ∃ final, run step concrete calls = .ok ((specRun spec abstract calls).1, final) ∧
        relates (specRun spec abstract calls).2 final := by
  induction calls generalizing abstract concrete with
  | nil => exact Or.inr ⟨concrete, rfl, related⟩
  | cons call calls ih =>
      rcases allowed with ⟨here, later⟩
      rcases refines abstract concrete call related here with
        ⟨error, stepped, failed⟩ | ⟨next, stepped, nextRelated⟩
      · left
        refine .call (show Refinement.run step concrete [] = _ from rfl) related failed ?_
        simp only [List.nil_append, Refinement.run, stepped, bind, Except.bind]
      · rcases ih nextRelated later with atCall | ⟨final, ran, finalRelated⟩
        · left
          cases atCall with
          | @call earlier later other between error answered betweenRelated failed ended =>
              have before : Refinement.run step concrete (call :: earlier) =
                  .ok ((specRun spec abstract (call :: earlier)).1, between) := by
                simp only [Refinement.run, stepped, answered, bind, Except.bind]
                rfl
              refine .call before betweenRelated failed ?_
              simp only [List.cons_append, Refinement.run, stepped, ended, bind, Except.bind]
        · refine Or.inr ⟨final, ?_, finalRelated⟩
          simp only [Refinement.run, stepped, ran, bind, Except.bind]
          rfl

/-- Calls that cannot fail in any of these ways are answered. -/
theorem RefinesUnless.total {fails : Spec → Call → Error → Prop}
    {step : State → Call → Except Error (Answer × State)} {spec : Spec → Call → Answer × Spec}
    {allows roomy : Spec → Call → Prop} {relates : Spec → State → Prop}
    (refines : RefinesUnless fails step spec allows relates)
    (safe : ∀ abstract call error, roomy abstract call → ¬ fails abstract call error) :
    Refines step spec (fun abstract call => allows abstract call ∧ roomy abstract call) relates := by
  intro abstract concrete call related allowed
  rcases refines abstract concrete call related allowed.1 with ⟨error, _, failed⟩ | answered
  · exact absurd failed (safe abstract call error allowed.2)
  · exact answered

end ChangeSql.Refinement
