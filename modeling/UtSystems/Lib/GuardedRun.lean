import Mathlib.Data.List.Basic

/-!
# Runs of a partial step function under a condition on each step

A system is a partial function `step`. A run is a finite sequence of actions,
each enabled where it is taken. `Reaches` keeps the condition `allowed` that
every step of the run meets in the state before it, so that a result can be
stated for the runs that meet it and for all runs (`allowed` always true) alike.
-/

namespace UtSystems.Lib.GuardedRun

set_option autoImplicit false

variable {State Action : Type*}

inductive Reaches (step : State → Action → Option State)
    (allowed : State → Action → Prop) (start : State) : State → Prop where
  | start : Reaches step allowed start start
  | push {state next : State} {action : Action}
      (prior : Reaches step allowed start state)
      (meets : allowed state action)
      (taken : step state action = some next) :
      Reaches step allowed start next

/-- The invariant rule: what holds at the start and survives every allowed step
holds in every state that allowed steps reach. -/
theorem reaches_invariant {step : State → Action → Option State}
    {allowed : State → Action → Prop} {start : State} (Good : State → Prop)
    (initial : Good start)
    (preserved : ∀ state action next, Good state → allowed state action →
      step state action = some next → Good next)
    {state : State} (run : Reaches step allowed start state) : Good state := by
  induction run with
  | start => exact initial
  | push prior meets taken ih => exact preserved _ _ _ ih meets taken

theorem reaches_mono {step : State → Action → Option State}
    {strong weak : State → Action → Prop} {start state : State}
    (weaker : ∀ state action, strong state action → weak state action)
    (run : Reaches step strong start state) : Reaches step weak start state := by
  induction run with
  | start => exact .start
  | push prior meets taken ih => exact .push ih (weaker _ _ meets) taken

theorem reaches_prepend {step : State → Action → Option State}
    {allowed : State → Action → Prop} {start next last : State} {action : Action}
    (meets : allowed start action) (taken : step start action = some next)
    (rest : Reaches step allowed next last) : Reaches step allowed start last := by
  induction rest with
  | start => exact .push .start meets taken
  | push _ meetsLast takenLast ih => exact .push ih meetsLast takenLast

/-- The state a list of actions leads to, if each is allowed and enabled in its turn. -/
def runWithin (step : State → Action → Option State) (allowed : State → Action → Prop)
    [∀ state action, Decidable (allowed state action)] :
    State → List Action → Option State
  | state, [] => some state
  | state, action :: rest =>
      if allowed state action then
        match step state action with
        | none => none
        | some next => runWithin step allowed next rest
      else none

theorem reaches_of_run {step : State → Action → Option State}
    {allowed : State → Action → Prop} [∀ state action, Decidable (allowed state action)]
    {start middle last : State} (actions : List Action)
    (prior : Reaches step allowed start middle)
    (ran : runWithin step allowed middle actions = some last) :
    Reaches step allowed start last := by
  induction actions generalizing middle with
  | nil =>
      cases ran
      exact prior
  | cons action rest ih =>
      simp only [runWithin] at ran
      split at ran
      · next meets =>
        split at ran
        · cases ran
        · next taken => exact ih (.push prior meets taken) ran
      · cases ran

/-- A concrete run whose last state passes a test reaches a state with the tested property. -/
theorem reaches_of_check {step : State → Action → Option State}
    {allowed : State → Action → Prop} [∀ state action, Decidable (allowed state action)]
    {start : State} (actions : List Action) (check : State → Bool)
    (passes : (runWithin step allowed start actions).any check = true) :
    ∃ state, Reaches step allowed start state ∧ check state = true := by
  cases ran : runWithin step allowed start actions with
  | none =>
      rw [ran] at passes
      cases passes
  | some last =>
      rw [ran] at passes
      exact ⟨last, reaches_of_run actions .start ran, passes⟩

end UtSystems.Lib.GuardedRun
