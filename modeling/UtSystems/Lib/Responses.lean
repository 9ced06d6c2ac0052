import UtSystems.Lib.Lockstep
import Mathlib.Data.List.Count

/-!
# Responses within a bound

What waits for something to happen has a measure that no action raises and some actions, the
beats, lower. Then it waits no longer than for as many beats as the measure has said.
-/

namespace UtSystems.Lib.Responses

open Lib.Lockstep

set_option autoImplicit false

variable {State Action : Type*}

/-- What waits comes to its goal or goes on to wait, with the measure lowered by a beat. -/
structure Progresses (step : State → Action → Option State) (waits goal : State → Prop)
    (measure : State → Nat) (beats : Action → Bool) : Prop where
  positive : ∀ state, waits state → 0 < measure state
  lowers : ∀ state action next, waits state → step state action = some next →
    goal next ∨ waits next ∧ measure next + (if beats action then 1 else 0) ≤ measure state

variable {step : State → Action → Option State} {waits goal : State → Prop}
  {measure : State → Nat} {beats : Action → Bool} {state last : State}

theorem performs_cons {action : Action} {rest : List Action}
    (performed : performs step state (action :: rest) = some last) :
    ∃ next, step state action = some next ∧ performs step next rest = some last :=
  Option.bind_eq_some_iff.mp performed

theorem performs_invariant (good : State → Prop)
    (kept : ∀ state action next, good state → step state action = some next → good next)
    (actions : List Action) (initial : good state)
    (performed : performs step state actions = some last) : good last := by
  induction actions generalizing state with
  | nil =>
      cases performed
      exact initial
  | cons action rest ih =>
      obtain ⟨next, taken, later⟩ := performs_cons performed
      exact ih (kept state action next initial taken) later

/-- There are no more beats than the measure has said, or the goal has been come to in time. -/
theorem responds (progresses : Progresses step waits goal measure beats) (actions : List Action)
    (waiting : waits state) (performed : performs step state actions = some last) :
    (waits last ∧ measure last + actions.countP beats ≤ measure state) ∨
      ∃ early late middle, actions = early ++ late ∧ performs step state early = some middle ∧
        goal middle ∧ early.countP beats ≤ measure state := by
  induction actions generalizing state with
  | nil =>
      cases performed
      exact .inl ⟨waiting, Nat.le_refl _⟩
  | cons action rest ih =>
      obtain ⟨next, taken, later⟩ := performs_cons performed
      cases progresses.lowers state action next waiting taken with
      | inl reached =>
          refine .inr ⟨[action], rest, next, rfl, ?_, reached, ?_⟩
          · unfold performs
            rw [taken]
            rfl
          · have positive := progresses.positive state waiting
            have one := @List.countP_le_length _ beats [action]
            rw [List.length_singleton] at one
            omega
      | inr still =>
          obtain ⟨waitsNext, lowered⟩ := still
          rw [List.countP_cons]
          cases ih waitsNext later with
          | inl goesOn =>
              refine .inl ⟨goesOn.1, ?_⟩
              have bound := goesOn.2
              omega
          | inr reached =>
              obtain ⟨early, late, middle, parts, before, atGoal, inTime⟩ := reached
              refine .inr ⟨action :: early, late, middle, by rw [parts]; rfl, ?_, atGoal, ?_⟩
              · unfold performs
                rw [taken]
                exact before
              · rw [List.countP_cons]
                omega

end UtSystems.Lib.Responses
