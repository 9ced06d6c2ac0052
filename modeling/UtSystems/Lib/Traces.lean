import Mathlib.Tactic.Common

/-!
# Computations with a trace

A traced computation has events on its way and, when it comes to its end, a result. One that stops
before its end still has the events up to there. `Keeps` says that all events are allowed.
-/

namespace UtSystems.Lib.Traces

set_option autoImplicit false

structure Traced (Event Result : Type) where
  events : List Event
  result : Option Result

variable {Event Result Next : Type}

instance : Monad (Traced Event) where
  pure value := { events := [], result := some value }
  bind first next :=
    match first.result with
    | none => { events := first.events, result := none }
    | some value =>
        { events := first.events ++ (next value).events, result := (next value).result }

def note (event : Event) : Traced Event Unit := { events := [event], result := some () }

def stop : Traced Event Result := { events := [], result := none }

/-- Every event is allowed, also those of a computation that stops. -/
def Keeps (allowed : Event → Prop) (program : Traced Event Result) : Prop :=
  ∀ event ∈ program.events, allowed event

/-- With allowed events only, this is the result. -/
structure Yields (allowed : Event → Prop) (program : Traced Event Result) (value : Result) : Prop where
  keeps : Keeps allowed program
  result : program.result = some value

/-- Through allowed events it comes to what the later program does. -/
structure Goes (allowed : Event → Prop) (program later : Traced Event Result) : Prop where
  keeps : Keeps allowed program ↔ Keeps allowed later
  result : program.result = later.result

variable {allowed : Event → Prop} {first : Traced Event Result} {next : Result → Traced Event Next}
  {value : Result}

@[simp] theorem pure_events (value : Result) : (pure value : Traced Event Result).events = [] := rfl

@[simp] theorem pure_result (value : Result) :
    (pure value : Traced Event Result).result = some value := rfl

theorem bind_result (ended : first.result = some value) :
    (first >>= next).result = (next value).result := by
  change (match first.result with | none => _ | some value => _ : Traced Event Next).result = _
  rw [ended]

theorem map_result (f : Result → Next) :
    (first >>= fun value => pure (f value)).result = first.result.map f := by
  change (match first.result with | none => _ | some value => _ : Traced Event Next).result = _
  cases first.result with
  | none => rfl
  | some value => rfl

theorem bind_events (ended : first.result = some value) :
    (first >>= next).events = first.events ++ (next value).events := by
  change (match first.result with | none => _ | some value => _ : Traced Event Next).events = _
  rw [ended]

theorem bind_events_begin : first.events <+: (first >>= next).events := by
  cases ended : first.result with
  | none =>
      have same : (first >>= next).events = first.events := by
        change (match first.result with | none => _ | some value => _ : Traced Event Next).events = _
        rw [ended]
      exact ⟨[], by rw [List.append_nil, same]⟩
  | some value =>
      rw [bind_events ended]
      exact List.prefix_append _ _

theorem keeps_pure (value : Result) : Keeps allowed (pure value : Traced Event Result) :=
  fun _ member => nomatch member

theorem keeps_note {event : Event} : Keeps allowed (note event) ↔ allowed event := by
  simp [Keeps, note]

/-- The events of the first part come in any case. -/
theorem keeps_first (keeps : Keeps allowed (first >>= next)) : Keeps allowed first :=
  fun event member => keeps event (bind_events_begin.subset member)

theorem keeps_bind (ended : first.result = some value) :
    Keeps allowed (first >>= next) ↔ Keeps allowed first ∧ Keeps allowed (next value) := by
  unfold Keeps
  rw [bind_events ended]
  constructor
  · intro keeps
    exact ⟨fun event member => keeps event (List.mem_append_left _ member),
      fun event member => keeps event (List.mem_append_right _ member)⟩
  · intro keeps event member
    cases List.mem_append.mp member with
    | inl before => exact keeps.1 event before
    | inr after => exact keeps.2 event after

/-- Behind a part that has only allowed events. -/
theorem keeps_after (yields : Yields allowed first value) :
    Keeps allowed (first >>= next) ↔ Keeps allowed (next value) := by
  rw [keeps_bind yields.result]
  exact and_iff_right yields.keeps

/-- A part that ends without an event of its own. -/
theorem keeps_map (f : Result → Next) :
    Keeps allowed (first >>= fun value => pure (f value)) ↔ Keeps allowed first := by
  constructor
  · exact keeps_first
  · intro keeps
    cases ended : first.result with
    | none =>
        change Keeps allowed
          (match first.result with | none => _ | some value => _ : Traced Event Next)
        rw [ended]
        exact keeps
    | some value => exact (keeps_bind ended).mpr ⟨keeps, keeps_pure _⟩

theorem goes_refl (program : Traced Event Result) : Goes allowed program program where
  keeps := Iff.rfl
  result := rfl

theorem goes_trans {program middle later : Traced Event Result} (goes : Goes allowed program middle)
    (goesOn : Goes allowed middle later) : Goes allowed program later where
  keeps := goes.keeps.trans goesOn.keeps
  result := goes.result.trans goesOn.result

theorem goes_after (yields : Yields allowed first value) :
    Goes allowed (first >>= next) (next value) where
  keeps := keeps_after yields
  result := bind_result yields.result

theorem goes_yields {program later : Traced Event Result} (goes : Goes allowed program later)
    (yields : Yields allowed later value) : Yields allowed program value where
  keeps := goes.keeps.mpr yields.keeps
  result := goes.result.trans yields.result

theorem yields_pure (value : Result) : Yields allowed (pure value : Traced Event Result) value where
  keeps := keeps_pure value
  result := rfl

theorem yields_note {event : Event} (isAllowed : allowed event) :
    Yields allowed (note event) () where
  keeps := keeps_note.mpr isAllowed
  result := rfl

theorem yields_bind {last : Next} (yields : Yields allowed first value)
    (yieldsNext : Yields allowed (next value) last) : Yields allowed (first >>= next) last where
  keeps := (keeps_after yields).mpr yieldsNext.keeps
  result := (bind_result yields.result).trans yieldsNext.result

end UtSystems.Lib.Traces
