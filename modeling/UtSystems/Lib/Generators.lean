import Mathlib.Dynamics.PeriodicPts.Lemmas
import Mathlib.Tactic.Common

/-!
# Streams of values from a state

A generator moves its state on and reads a value off it. What it gives out in several calls is one
stream, and the stream repeats from its start if the state is finite and can be moved back.
-/

namespace UtSystems.Lib.Generators

set_option autoImplicit false

variable {State Value : Type*} (advance : State → State) (output : State → Value)

/-- The next values, and the state behind them. -/
def emit : Nat → State → List Value × State
  | 0, state => ([], state)
  | count + 1, state =>
      let next := advance state
      let (rest, last) := emit count next
      (output next :: rest, last)

def stream (state : State) (index : Nat) : Value := output (advance^[index + 1] state)

variable {advance output} {state : State}

theorem emit_state (count : Nat) : (emit advance output count state).2 = advance^[count] state := by
  induction count generalizing state with
  | zero => rfl
  | succ count ih =>
      unfold emit
      rw [Function.iterate_succ_apply]
      exact ih

theorem emit_values (count : Nat) :
    (emit advance output count state).1 = (List.range count).map (stream advance output state) := by
  induction count generalizing state with
  | zero => rfl
  | succ count ih =>
      unfold emit
      rw [List.range_succ_eq_map, List.map_cons, List.map_map]
      refine congrArg₂ List.cons rfl ?_
      rw [ih]
      apply List.map_congr_left
      intro index _
      unfold stream Function.comp
      rw [← Function.iterate_succ_apply]

/-- The stream from a later state. -/
theorem stream_later (index skipped : Nat) :
    stream advance output (advance^[skipped] state) index =
      stream advance output state (skipped + index) := by
  unfold stream
  rw [← Function.iterate_add_apply, Nat.add_right_comm, Nat.add_comm index, Nat.add_right_comm]

theorem stream_repeats [Finite State] (injective : Function.Injective advance) (state : State) :
    ∃ period, 0 < period ∧ ∀ index,
      stream advance output state (period + index) = stream advance output state index := by
  obtain ⟨period, positive, returns⟩ := injective.mem_periodicPts state
  refine ⟨period, positive, ?_⟩
  intro index
  rw [← stream_later index period, returns]

end UtSystems.Lib.Generators
