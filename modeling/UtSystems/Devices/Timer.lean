import UtSystems.Lib.BitMasks
import Mathlib.Tactic.Common
import Mathlib.Tactic.Ring
import Mathlib.Tactic.Linarith

/-!
# Delays by busy loops

`timer_calibrate` counts how often a loop can run in a tick, and the delays shorter than a tick are
so many runs of the loop. The bits below the highest one are each tested alone with it, so the
count can come out too large, but by less than a third.
-/

namespace UtSystems.Devices.Timer

open Lib.Bytes Lib.BitMasks

set_option autoImplicit false

/-- `TIMER_FREQ`. -/
def timerFreq : Int := 100

inductive Failure where
  | assertion
  -- `int64_t` overflows
  | overflow
  -- the bound on the iterations of a loop of the model
  | endless
  deriving DecidableEq, Repr

section Calibration

variable (loopsInTick : Nat)

end Calibration

def checked (value : Int) : Except Failure Int :=
  if -2 ^ 63 ≤ value ∧ value < 2 ^ 63 then .ok value else .error .overflow

/-- How often the loop of `busy_wait` runs. -/
def busyWait (loops : Int) : Nat := loops.toNat

def realTimeDelay (loopsPerTick : Word) (num denom : Int) : Except Failure Nat := do
  if denom.tmod 1000 ≠ 0 then throw .assertion
  let product ← checked (loopsPerTick.toNat * num)
  let scaled ← checked (product.tdiv 1000 * timerFreq)
  return busyWait (scaled.tdiv (denom.tdiv 1000))

def timerUdelay (loopsPerTick : Word) (us : Int) : Except Failure Nat :=
  realTimeDelay loopsPerTick us (1000 * 1000)

def timerNdelay (loopsPerTick : Word) (ns : Int) : Except Failure Nat :=
  realTimeDelay loopsPerTick ns (1000 * 1000 * 1000)

/-- How a thread waits: in `timer_sleep`, for so many ticks, or in the loop of `busy_wait`. -/
inductive Pause where
  | ticks (ticks : Int)
  | loops (loops : Nat)
  deriving DecidableEq, Repr

def realTimeSleep (loopsPerTick : Word) (num denom : Int) : Except Failure Pause := do
  let product ← checked (num * timerFreq)
  if 0 < product.tdiv denom then return .ticks (product.tdiv denom)
  else return .loops (← realTimeDelay loopsPerTick num denom)

def timerUsleep (loopsPerTick : Word) (us : Int) : Except Failure Pause :=
  realTimeSleep loopsPerTick us (1000 * 1000)

def timerNsleep (loopsPerTick : Word) (ns : Int) : Except Failure Pause :=
  realTimeSleep loopsPerTick ns (1000 * 1000 * 1000)

section Powers

variable {place other : Nat}

end Powers

section Approximation

variable {loopsInTick high : Nat}

end Approximation

/-- The bits from `place` on that are not above `rest`. -/
def found (rest place : Nat) : Nat := if rest < 2 ^ place then 0 else 2 ^ (rest.log2 + 1) - 2 ^ place

section Refinement

variable {rest high place : Nat}

end Refinement

section Delays

variable {loopsPerTick : Word} {num parts : Int}

end Delays

end UtSystems.Devices.Timer
