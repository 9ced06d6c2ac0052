import Mathlib.Data.Option.Basic
import Mathlib.Tactic.Common

/-!
# Two systems in lockstep

A system and its specification are partial step functions over the same actions. They are in
lockstep under a relation if from related states an action is possible for both, with related
states after it, or for neither. Then so is every sequence of actions.
-/

namespace UtSystems.Lib.Lockstep

set_option autoImplicit false

variable {State Spec Action : Type*}

def InLockstep (relation : State → Spec → Prop) (step : State → Action → Option State)
    (spec : Spec → Action → Option Spec) : Prop :=
  ∀ state abstract action, relation state abstract →
    Option.Rel relation (step state action) (spec abstract action)

/-- One action after the other, as long as they are possible. -/
def performs (step : State → Action → Option State) : State → List Action → Option State
  | state, [] => some state
  | state, action :: rest => (step state action).bind fun next => performs step next rest

variable {relation : State → Spec → Prop} {step : State → Action → Option State}
  {spec : Spec → Action → Option Spec} {state : State} {abstract : Spec}

theorem lockstep_performs (lockstep : InLockstep relation step spec)
    (related : relation state abstract) (actions : List Action) :
    Option.Rel relation (performs step state actions) (performs spec abstract actions) := by
  induction actions generalizing state abstract with
  | nil => exact .some related
  | cons action rest ih =>
      unfold performs
      have one := lockstep state abstract action related
      cases taken : step state action with
      | none =>
          rw [taken] at one
          cases told : spec abstract action with
          | none => exact .none
          | some _ =>
              rw [told] at one
              cases one
      | some next =>
          rw [taken] at one
          cases told : spec abstract action with
          | none =>
              rw [told] at one
              cases one
          | some nextSpec =>
              rw [told] at one
              cases one with
              | some both => exact ih both

end UtSystems.Lib.Lockstep
