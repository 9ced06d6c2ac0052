import Mathlib.Algebra.Group.Nat.Defs
import Mathlib.Data.Int.Notation

/-!
# Semaphores of threads/synch.c

`sema_down` and `sema_up` run with interrupts off, so each test of the value in
`sema_down`'s loop and each `sema_up` is one atomic step. A thread that finds the
value zero joins the waiters and blocks; when it runs again it repeats the test.
-/

namespace UtSystems.Threads.Synch

set_option autoImplicit false

/-- Thread identifiers: `tid_t` is `int`. -/
abbrev Tid := Int

structure Semaphore where
  value : Nat
  waiters : List Tid
  deriving DecidableEq, Repr

def semaInit (value : Nat) : Semaphore := { value := value, waiters := [] }

/-- One turn of the loop in `sema_down`: true when the value was taken, false when
the caller was put on the waiters list. -/
def semaDown (sema : Semaphore) (current : Tid) : Semaphore × Bool :=
  if sema.value = 0 then
    ({ sema with waiters := sema.waiters ++ [current] }, false)
  else
    ({ sema with value := sema.value - 1 }, true)

/-- `sema_up`, with the thread that it unblocks. `value` is an `unsigned`. -/
def semaUp (sema : Semaphore) : Semaphore × Option Tid :=
  match sema.waiters with
  | [] => ({ sema with value := (sema.value + 1) % 2 ^ 32 }, none)
  | first :: rest => ({ value := (sema.value + 1) % 2 ^ 32, waiters := rest }, some first)

/-- `sema_try_down`. -/
def semaTryDown (sema : Semaphore) : Semaphore × Bool :=
  if 0 < sema.value then ({ sema with value := sema.value - 1 }, true) else (sema, false)

end UtSystems.Threads.Synch
