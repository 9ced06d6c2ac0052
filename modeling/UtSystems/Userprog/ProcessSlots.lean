import UtSystems.Userprog.ProcessRecords

/-!
# The use of the two tables over whole runs

A process counts as reaped once its parent has passed `sema_down(exiting)` in
`process_wait`; from then on its slots are being given back. In every orderly run
`semList` is indexed within its bounds, unreaped processes have distinct slots, and
a tid that `process_execute` handed out has exactly one `procList` entry until it
is reaped. Outside such runs a wait for tid 0 matches a free `procList` slot and
gives away slot 0 of `semList`.
-/

namespace UtSystems.Userprog.ProcessSlots

open Threads.Synch Userprog.ProcessTable Userprog.ProcessSystem Userprog.ProcessSteps
open Userprog.ProcessInvariant Userprog.ProcessSessions Userprog.ProcessOrderly
open Userprog.ProcessRecords Lib.GuardedRun

set_option autoImplicit false

/-- A child whose launch the parent has awaited. -/
def Launched (s : Kernel) (parent child : Tid) : Prop :=
  ∃ record, s.threads child = some record ∧ record.parent = parent ∧ record.process = true ∧
    record.awaited = true

end UtSystems.Userprog.ProcessSlots
