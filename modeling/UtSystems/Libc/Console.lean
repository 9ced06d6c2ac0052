import UtSystems.Lib.Bytes
import UtSystems.Lib.Lockstep
import UtSystems.Lib.Responses
import UtSystems.Threads.Synch
import Mathlib.Logic.Function.Basic

/-!
# Output of many threads on one console

`printf`, `puts`, `putbuf` and `putchar` hold the console lock while they put their bytes on the
serial port and on the screen. Threads run in any order, an exception in the middle of a call may
print more in the same thread, interrupt handlers print without the lock, and a kernel panic turns
it off. The outermost call of a thread with all calls in it is a session.
-/

namespace UtSystems.Libc.Console

open Lib.Bytes Lib.Lockstep Lib.Responses Threads.Synch

set_option autoImplicit false

/-- A call, with the bytes that `__vprintf` makes of the format. -/
inductive Print where
  | vprintf (text : List Byte)
  | puts (s : List Byte)
  | putbuf (buffer : List Byte)
  | putchar (c : Word)

def Print.text : Print → List Byte
  | .vprintf text => text
  | .puts s => s ++ [0x0a]
  | .putbuf buffer => buffer
  | .putchar c => [c.truncate 8]

/-- A call that has had the lock, if it needs it. -/
structure Call where
  session : Nat
  text : List Byte
  left : List Byte
  -- has been through `serial_putc`, and `vga_putc` is next
  inHand : Option Byte

/-- Where a byte comes from. -/
structure Source where
  session : Nat
  call : Nat

structure Machine where
  useConsoleLock : Bool
  -- of `console_lock`
  holder : Option Tid
  consoleLockDepth : Nat
  writeCnt : Nat
  -- the calls that a thread is in, the innermost first
  inside : Tid → List Nat
  -- all calls that have begun
  calls : List Call
  -- the threads of the sessions
  sessions : List Tid
  -- the thread, or interrupt handler, that panics; interrupts are off from then on
  panicked : Option (Option Tid)
  -- all that went to the port and to the screen, that of interrupt handlers without a source
  serial : List (Option Source × Byte)
  screen : List (Option Source × Byte)

/-- After `console_init`. -/
def boot : Machine where
  useConsoleLock := true
  holder := none
  consoleLockDepth := 0
  writeCnt := 0
  inside := fun _ => []
  calls := []
  sessions := []
  panicked := none
  serial := []
  screen := []

/-- None if the thread has to wait for the lock. -/
def acquireConsole (m : Machine) (t : Tid) : Option Machine :=
  if m.useConsoleLock then
    if m.holder = some t then some { m with consoleLockDepth := m.consoleLockDepth + 1 }
    else if m.holder = none then some { m with holder := some t }
    else none
  else some m

/-- None if the assertion in `lock_release` fails. -/
def releaseConsole (m : Machine) (t : Tid) : Option Machine :=
  if m.useConsoleLock then
    if 0 < m.consoleLockDepth then some { m with consoleLockDepth := m.consoleLockDepth - 1 }
    else if m.holder = some t then some { m with holder := none }
    else none
  else some m

def consoleLockedByCurrentThread (m : Machine) (t : Tid) : Bool :=
  !m.useConsoleLock || m.holder = some t

def consolePanic (m : Machine) : Machine := { m with useConsoleLock := false }

/-- `putchar_have_lock` up to `serial_putc`. -/
def Machine.putSerial (m : Machine) (source : Option Source) (c : Byte) : Machine :=
  { m with
    writeCnt := m.writeCnt + 1
    serial := m.serial ++ [(source, c)] }

def Machine.putScreen (m : Machine) (source : Option Source) (c : Byte) : Machine :=
  { m with screen := m.screen ++ [(source, c)] }

/-- A call of an interrupt handler. -/
def Machine.putAll (m : Machine) : List Byte → Machine
  | [] => m
  | c :: rest => ((m.putSerial none c).putScreen none c).putAll rest

def Machine.setCall (m : Machine) (id : Nat) (call : Call) : Machine :=
  { m with calls := m.calls.set id call }

def Machine.setInside (m : Machine) (t : Tid) (ids : List Nat) : Machine :=
  { m with inside := Function.update m.inside t ids }

/-- Interrupts are on, or it is the one that panics. -/
def Machine.Able (m : Machine) (who : Option Tid) : Prop := m.panicked = none ∨ m.panicked = some who

instance (m : Machine) (who : Option Tid) : Decidable (m.Able who) := by
  unfold Machine.Able
  infer_instance

/-- The sessions when the thread begins a call: its outermost call is a session of its own. -/
def Machine.sessionsAt (m : Machine) (t : Tid) : List Tid :=
  if m.inside t = [] then m.sessions ++ [t] else m.sessions

def Machine.begin (m : Machine) (t : Tid) (text : List Byte) : Machine :=
  { m.setInside t (m.calls.length :: m.inside t) with
    calls := m.calls ++
      [{ session := (m.sessionsAt t).length - 1, text := text, left := text, inHand := none }]
    sessions := m.sessionsAt t }

inductive Action where
  | enter (t : Tid) (print : Print)
  -- the two halves of `putchar_have_lock`
  | serial (t : Tid)
  | screen (t : Tid)
  | leave (t : Tid)
  | handler (print : Print)
  | panic (who : Option Tid)

/-- The innermost call of the thread. -/
def Machine.current (m : Machine) (t : Tid) : Option (Nat × Call) := do
  let id ← (m.inside t).head?
  return (id, ← m.calls[id]?)

/-- None if the action is not possible or an assertion fails. -/
def step (m : Machine) : Action → Option Machine
  | .enter t print =>
      if m.Able (some t) then (acquireConsole m t).map fun m => m.begin t print.text else none
  | .serial t =>
      match m.current t with
      | some (id, { session, text, left := c :: left, inHand := none }) =>
          if m.Able (some t) ∧ consoleLockedByCurrentThread m t then
            some ((m.putSerial (some { session := session, call := id }) c).setCall id
              { session := session, text := text, left := left, inHand := some c })
          else none
      | _ => none
  | .screen t =>
      match m.current t with
      | some (id, { session, text, left, inHand := some c }) =>
          if m.Able (some t) then
            some ((m.putScreen (some { session := session, call := id }) c).setCall id
              { session := session, text := text, left := left, inHand := none })
          else none
      | _ => none
  | .leave t =>
      match m.current t with
      | some (_, { left := [], inHand := none, .. }) =>
          if m.Able (some t) then releaseConsole (m.setInside t (m.inside t).tail) t else none
      | _ => none
  | .handler print => if m.Able none then some (m.putAll print.text) else none
  | .panic who =>
      if m.Able who then some { consolePanic m with panicked := some who } else none

/-- The sessions of the bytes, those of interrupt handlers left out. -/
def sessionsOf (output : List (Option Source × Byte)) : List Nat :=
  output.filterMap fun entry => entry.1.map Source.session

def bytesOf (output : List (Option Source × Byte)) (id : Nat) : List Byte :=
  output.filterMap fun entry => if entry.1.map Source.call = some id then some entry.2 else none

/-- The first bytes of the text are out. -/
structure Printing (m : Machine) (id : Nat) (call : Call) : Prop where
  serial : bytesOf m.serial id ++ call.left = call.text
  screen : bytesOf m.screen id ++ call.inHand.toList = bytesOf m.serial id

/-- The sessions of the bytes are one after the other. -/
structure Tidy (calls : List Call) (output : List (Option Source × Byte)) : Prop where
  sorted : (sessionsOf output).Pairwise (· ≤ ·)
  known : ∀ entry ∈ output, ∀ source, entry.1 = some source →
    ∃ call, calls[source.call]? = some call ∧ call.session = source.session

/-- Only the holder of the lock is in calls. -/
structure Locking (m : Machine) : Prop where
  lock : m.useConsoleLock = true ↔ m.panicked = none
  depths : m.panicked = none → ∀ t,
    (m.inside t).length = if m.holder = some t then m.consoleLockDepth + 1 else 0
  free : m.panicked = none → m.holder = none → m.consoleLockDepth = 0

structure Telling (m : Machine) : Prop where
  owner : ∀ t, ∀ id ∈ m.inside t, ∃ call, m.calls[id]? = some call ∧
    m.sessions[call.session]? = some t ∧ (m.Able (some t) → call.session + 1 = m.sessions.length)
  past : ∀ call ∈ m.calls, call.session < m.sessions.length
  printing : ∀ id call, m.calls[id]? = some call → Printing m id call
  printed : ∀ id call, m.calls[id]? = some call → (∀ t, id ∉ m.inside t) →
    call.left = [] ∧ call.inHand = none
  serial : Tidy m.calls m.serial
  screen : Tidy m.calls m.screen

structure Orderly (m : Machine) : Prop extends Locking m, Telling m where
  count : m.writeCnt = m.serial.length

section Locks

variable {m next : Machine} {t : Tid}

/-- The calls have changed within. -/
theorem locking_same (locking : Locking m) (lock : next.useConsoleLock = m.useConsoleLock)
    (panicked : next.panicked = m.panicked) (holder : next.holder = m.holder)
    (depth : next.consoleLockDepth = m.consoleLockDepth) (inside : next.inside = m.inside) :
    Locking next := by
  refine ⟨?_, ?_, ?_⟩
  · rw [lock, panicked]
    exact locking.lock
  · rw [panicked, inside, holder, depth]
    exact locking.depths
  · rw [panicked, holder, depth]
    exact locking.free

/-- With the lock off, no depth matters. -/
theorem locking_off (locking : Locking m) (off : ¬m.useConsoleLock = true)
    (lock : next.useConsoleLock = m.useConsoleLock) (panicked : next.panicked = m.panicked) :
    Locking next ∧ m.panicked ≠ none := by
  have panics : m.panicked ≠ none := fun calm => off (locking.lock.mpr calm)
  refine ⟨⟨?_, ?_, ?_⟩, panics⟩
  · rw [lock, panicked]
    exact locking.lock
  · intro calm
    exact absurd (panicked.symm.trans calm) panics
  · intro calm
    exact absurd (panicked.symm.trans calm) panics

theorem inside_nil (locking : Locking m) (calm : m.panicked = none) {u : Tid}
    (apart : m.holder ≠ some u) : m.inside u = [] := by
  have length := locking.depths calm u
  rw [if_neg apart] at length
  exact List.length_eq_zero_iff.mp length

/-- A thread that enters a call goes deeper, and then no other is in one. -/
theorem acquire_locks (locking : Locking m) (acquired : acquireConsole m t = some next)
    (text : List Byte) :
    Locking (next.begin t text) ∧ (m.panicked = none → ∀ u ≠ t, m.inside u = []) ∧
      next = { m with holder := next.holder, consoleLockDepth := next.consoleLockDepth } := by
  unfold acquireConsole at acquired
  split at acquired
  · next locked =>
      have calm := locking.lock.mp locked
      have depths := locking.depths calm
      have elsewhere : m.holder = some t ∨ m.holder = none → ∀ u ≠ t, m.inside u = [] := by
        intro holder u other
        apply inside_nil locking calm
        grind
      split at acquired
      · next holds =>
          cases acquired
          refine ⟨⟨locking.lock, ?_, ?_⟩, fun _ => elsewhere (.inl holds), rfl⟩
          · intro _ u
            have before := depths u
            simp only [Machine.begin, Machine.setInside, Function.update_apply]
            grind
          · intro _ none_
            exact absurd (holds.symm.trans none_) (by simp)
      · split at acquired
        · next free =>
            cases acquired
            have zero := locking.free calm free
            refine ⟨⟨locking.lock, ?_, fun _ none_ => by cases none_⟩,
              fun _ => elsewhere (.inr free), rfl⟩
            intro _ u
            have before := depths u
            simp only [Machine.begin, Machine.setInside, Function.update_apply]
            grind
        · cases acquired
  · next off =>
      cases acquired
      obtain ⟨locks, panics⟩ := @locking_off m (m.begin t text) locking off rfl rfl
      exact ⟨locks, fun calm => absurd calm panics, rfl⟩

/-- A thread that leaves a call can give the lock back. -/
theorem release_locks {id : Nat} {outer : List Nat} (locking : Locking m)
    (inside : m.inside t = id :: outer) :
    ∃ next, releaseConsole (m.setInside t outer) t = some next ∧ Locking next ∧
      next = { m.setInside t outer with
        holder := next.holder
        consoleLockDepth := next.consoleLockDepth } := by
  unfold releaseConsole
  by_cases locked : (m.setInside t outer).useConsoleLock = true
  · have calm := locking.lock.mp locked
    have depths := locking.depths calm
    have holds : m.holder = some t := by
      by_contra apart
      rw [inside_nil locking calm apart] at inside
      cases inside
    rw [if_pos locked]
    by_cases deeper : 0 < (m.setInside t outer).consoleLockDepth
    · rw [if_pos deeper]
      refine ⟨_, rfl, ⟨locking.lock, ?_, ?_⟩, rfl⟩
      · intro _ u
        have before := depths u
        simp only [Machine.setInside, Function.update_apply] at deeper ⊢
        grind
      · intro _ none_
        exact absurd (holds.symm.trans none_) (by simp)
    · have zero : m.consoleLockDepth = 0 := Nat.eq_zero_of_not_pos deeper
      have still : (m.setInside t outer).holder = some t := holds
      rw [if_neg deeper, if_pos still]
      refine ⟨_, rfl, ⟨locking.lock, ?_, fun _ _ => zero⟩, rfl⟩
      intro _ u
      have before := depths u
      simp only [Machine.setInside, Function.update_apply]
      grind
  · rw [if_neg locked]
    exact ⟨_, rfl, (@locking_off m (m.setInside t outer) locking locked rfl rfl).1, rfl⟩

end Locks


section Output

variable {output : List (Option Source × Byte)} {calls later : List Call} {source : Source} {id : Nat}
  {c : Byte} {call : Call}

theorem bytes_of_put :
    bytesOf (output ++ [(some source, c)]) id =
      bytesOf output id ++ if source.call = id then [c] else [] := by
  unfold bytesOf
  rw [List.filterMap_append]
  congr 1
  by_cases mine : source.call = id
  · simp [mine]
  · simp [mine]

theorem bytes_of_handler : bytesOf (output ++ [(none, c)]) id = bytesOf output id := by
  unfold bytesOf
  rw [List.filterMap_append]
  simp

/-- A call that has not begun has no bytes out. -/
theorem bytes_of_new (tidy : Tidy calls output) : bytesOf output calls.length = [] := by
  unfold bytesOf
  rw [List.filterMap_eq_nil_iff]
  intro entry inside
  apply if_neg
  intro mine
  obtain ⟨source, isSource, isCall⟩ := Option.map_eq_some_iff.mp mine
  obtain ⟨call, here, _⟩ := tidy.known entry inside source isSource
  obtain ⟨small, _⟩ := List.getElem?_eq_some_iff.mp here
  omega

/-- The calls are still there, in their sessions. -/
def Keeps (calls later : List Call) : Prop :=
  ∀ (id : Nat) (call : Call), calls[id]? = some call →
    ∃ kept : Call, later[id]? = some kept ∧ kept.session = call.session

theorem keeps_append (more : List Call) : Keeps calls (calls ++ more) := by
  intro id call here
  obtain ⟨small, _⟩ := List.getElem?_eq_some_iff.mp here
  exact ⟨call, by rw [List.getElem?_append_left small, here], rfl⟩

theorem keeps_set {change : Call} (here : calls[id]? = some call)
    (session : change.session = call.session) : Keeps calls (calls.set id change) := by
  intro other one there
  obtain ⟨small, _⟩ := List.getElem?_eq_some_iff.mp here
  by_cases same : id = other
  · rw [← same, here] at there
    cases there
    exact ⟨change, by rw [← same, List.getElem?_set_self small], session⟩
  · exact ⟨one, by rw [List.getElem?_set_ne same, there], rfl⟩

theorem tidy_keeps (tidy : Tidy calls output) (keeps : Keeps calls later) : Tidy later output := by
  refine ⟨tidy.sorted, ?_⟩
  intro entry inside source isSource
  obtain ⟨call, here, same⟩ := tidy.known entry inside source isSource
  obtain ⟨kept, there, session⟩ := keeps source.call call here
  exact ⟨kept, there, session.trans same⟩

theorem tidy_handler (tidy : Tidy calls output) : Tidy calls (output ++ [(none, c)]) := by
  refine ⟨?_, ?_⟩
  · unfold sessionsOf
    rw [List.filterMap_append]
    simpa [sessionsOf] using tidy.sorted
  · intro entry inside source isSource
    cases List.mem_append.mp inside with
    | inl old => exact tidy.known entry old source isSource
    | inr new =>
        rw [List.mem_singleton.mp new] at isSource
        cases isSource

/-- A byte of the latest session. -/
theorem tidy_put (tidy : Tidy calls output) {sessions : Nat} (here : calls[id]? = some call)
    (past : ∀ call ∈ calls, call.session < sessions) (latest : call.session + 1 = sessions) :
    Tidy calls (output ++ [(some { session := call.session, call := id }, c)]) := by
  refine ⟨?_, ?_⟩
  · unfold sessionsOf
    rw [List.filterMap_append]
    apply List.pairwise_append.mpr
    refine ⟨tidy.sorted, List.pairwise_singleton .., ?_⟩
    intro earlier inside session isSession
    obtain ⟨entry, old, isEarlier⟩ := List.mem_filterMap.mp inside
    obtain ⟨known, isSource, number⟩ := Option.map_eq_some_iff.mp isEarlier
    obtain ⟨first, there, was⟩ := tidy.known entry old known isSource
    have bound := past first (List.mem_of_getElem? there)
    have isLatest : session = call.session := List.mem_singleton.mp isSession
    omega
  · intro entry inside other isSource
    cases List.mem_append.mp inside with
    | inl old => exact tidy.known entry old other isSource
    | inr new =>
        rw [List.mem_singleton.mp new] at isSource
        cases isSource
        exact ⟨call, here, rfl⟩

end Output

section Calls

variable {m next : Machine} {t : Tid} {id : Nat} {call : Call}

/-- The session of a call that begins is the latest, and the thread's. -/
theorem begin_session (tells : Telling m) (able : m.Able (some t)) :
    (m.sessionsAt t).length - 1 + 1 = (m.sessionsAt t).length ∧
      (m.sessionsAt t)[(m.sessionsAt t).length - 1]? = some t ∧ m.sessions <+: m.sessionsAt t := by
  unfold Machine.sessionsAt
  cases inside : m.inside t with
  | nil =>
      rw [if_pos rfl, List.length_append, List.length_singleton, Nat.add_sub_cancel,
        List.getElem?_concat_length]
      exact ⟨rfl, rfl, List.prefix_append _ _⟩
  | cons id outer =>
      have top : id ∈ m.inside t := by
        rw [inside]
        exact List.mem_cons_self
      obtain ⟨call, _, isOwner, latest⟩ := tells.owner t id top
      rw [if_neg (List.cons_ne_nil _ _), ← latest able, Nat.add_sub_cancel]
      exact ⟨rfl, isOwner, List.prefix_refl _⟩

theorem prefix_get {α : Type} {early late : List α} {index : Nat} {value : α} (grown : early <+: late)
    (here : early[index]? = some value) : late[index]? = some value := by
  obtain ⟨more, isLate⟩ := grown
  obtain ⟨small, _⟩ := List.getElem?_eq_some_iff.mp here
  rw [← isLate, List.getElem?_append_left small, here]

theorem begin_tells (tells : Telling m) (able : m.Able (some t))
    (alone : ∀ u ≠ t, m.Able (some u) → m.inside u = []) (text : List Byte) :
    Telling (m.begin t text) := by
  obtain ⟨latest, isOwner, grown⟩ := begin_session tells able
  have appended : ∀ id call, (m.begin t text).calls[id]? = some call → m.calls[id]? = some call ∨
      id = m.calls.length ∧
        call = { session := (m.sessionsAt t).length - 1, text := text, left := text, inHand := none } := by
    intro id call here
    rw [Machine.begin, List.getElem?_append] at here
    grind
  constructor
  case owner =>
    intro u id inside
    have old : id ∈ m.inside u → ∃ call, (m.begin t text).calls[id]? = some call ∧
        (m.sessionsAt t)[call.session]? = some u ∧
          (m.Able (some u) → call.session + 1 = (m.sessionsAt t).length) := by
      intro before
      obtain ⟨call, here, owner, current⟩ := tells.owner u id before
      refine ⟨call, prefix_get (List.prefix_append _ _) here, prefix_get grown owner, ?_⟩
      intro ableToo
      have other : u = t := by
        by_contra other
        rw [alone u other ableToo] at before
        exact List.not_mem_nil before
      rw [other] at before
      rw [current ableToo, Machine.sessionsAt, if_neg (List.ne_nil_of_mem before)]
    change id ∈ Function.update m.inside t (m.calls.length :: m.inside t) u at inside
    by_cases mine : u = t
    · rw [mine, Function.update_self] at inside
      cases List.mem_cons.mp inside with
      | inl new =>
          rw [new, mine]
          exact ⟨_, List.getElem?_concat_length, isOwner, fun _ => latest⟩
      | inr deeper => exact old (by rw [mine]; exact deeper)
    · rw [Function.update_of_ne mine] at inside
      exact old inside
  case past =>
    intro call inside
    cases List.mem_append.mp inside with
    | inl old => exact Nat.lt_of_lt_of_le (tells.past call old) grown.length_le
    | inr new =>
        rw [List.mem_singleton.mp new]
        exact Nat.lt_of_succ_le (Nat.le_of_eq latest)
  case printing =>
    intro id call here
    cases appended id call here with
    | inl old => exact ⟨(tells.printing id call old).serial, (tells.printing id call old).screen⟩
    | inr new =>
        rw [new.1, new.2]
        refine ⟨?_, ?_⟩
        · exact congrArg (· ++ text) (bytes_of_new tells.serial)
        · exact (congrArg (· ++ []) (bytes_of_new tells.screen)).trans (bytes_of_new tells.serial).symm
  case printed =>
    intro id call here over_
    have still : ∀ u, id ∉ m.inside u := by
      intro u before
      apply over_ u
      change id ∈ Function.update m.inside t (m.calls.length :: m.inside t) u
      grind
    cases appended id call here with
    | inl old => exact tells.printed id call old still
    | inr new =>
        refine absurd ?_ (over_ t)
        change id ∈ Function.update m.inside t (m.calls.length :: m.inside t) t
        rw [Function.update_self, new.1]
        exact List.mem_cons_self
  case serial => exact tidy_keeps tells.serial (keeps_append _)
  case screen => exact tidy_keeps tells.screen (keeps_append _)

/-- Interrupt handlers do not mix with the bytes of calls. -/
theorem handler_tells (tells : Telling m) (c : Byte) :
    Telling ((m.putSerial none c).putScreen none c) where
  owner := tells.owner
  past := tells.past
  printing := by
    intro id call here
    have printing := tells.printing id call here
    refine ⟨?_, ?_⟩
    · change bytesOf (m.serial ++ [(none, c)]) id ++ call.left = call.text
      rw [bytes_of_handler, printing.serial]
    · change bytesOf (m.screen ++ [(none, c)]) id ++ call.inHand.toList =
        bytesOf (m.serial ++ [(none, c)]) id
      rw [bytes_of_handler, bytes_of_handler, printing.screen]
  printed := tells.printed
  serial := tidy_handler tells.serial
  screen := tidy_handler tells.screen

/-- A call that a thread is in goes on, and all others are as they were. -/
structure Goes (m next : Machine) (id : Nat) (call change : Call) : Prop where
  here : m.calls[id]? = some call
  inside : ∃ t, id ∈ m.inside t
  isNext : next = { m with
    calls := m.calls.set id change
    writeCnt := next.writeCnt
    serial := next.serial
    screen := next.screen }
  session : change.session = call.session
  others : ∀ other ≠ id, bytesOf next.serial other = bytesOf m.serial other ∧
    bytesOf next.screen other = bytesOf m.screen other

theorem goes_tells {change : Call} (tells : Telling m) (goes : Goes m next id call change)
    (printing : Printing next id change) (serial : Tidy m.calls next.serial)
    (screen : Tidy m.calls next.screen) : Telling next := by
  obtain ⟨here, ⟨t, inside⟩, isNext, session, others⟩ := goes
  have keeps := keeps_set here session
  have calls : next.calls = m.calls.set id change := by rw [isNext]
  have sameInside : next.inside = m.inside := by rw [isNext]
  have sessions : next.sessions = m.sessions := by rw [isNext]
  have old : ∀ other ≠ id, ∀ one, next.calls[other]? = some one → m.calls[other]? = some one := by
    intro other apart one there
    rw [calls, List.getElem?_set_ne (Ne.symm apart)] at there
    exact there
  have changed : ∀ one, next.calls[id]? = some one → one = change := by
    intro one there
    obtain ⟨small, _⟩ := List.getElem?_eq_some_iff.mp here
    rw [calls, List.getElem?_set_self small] at there
    exact (Option.some.inj there).symm
  constructor
  case owner =>
    intro u other there
    rw [sameInside] at there
    obtain ⟨one, isOne, owner, current⟩ := tells.owner u other there
    obtain ⟨kept, isKept, same⟩ := keeps other one isOne
    rw [calls, sessions, isNext]
    refine ⟨kept, isKept, ?_⟩
    rw [same]
    exact ⟨owner, current⟩
  case past =>
    intro one there
    rw [sessions]
    rw [calls] at there
    cases List.mem_or_eq_of_mem_set there with
    | inl old => exact tells.past one old
    | inr new =>
        rw [new, session]
        exact tells.past call (List.mem_of_getElem? here)
  case printing =>
    intro other one there
    by_cases apart : other = id
    · rw [apart] at there ⊢
      rw [changed one there]
      exact printing
    · obtain ⟨sameSerial, sameScreen⟩ := others other apart
      have before := tells.printing other one (old other apart one there)
      refine ⟨?_, ?_⟩
      · rw [sameSerial, before.serial]
      · rw [sameScreen, sameSerial, before.screen]
  case printed =>
    intro other one there over_
    rw [sameInside] at over_
    refine tells.printed other one (old other ?_ one there) over_
    intro same
    rw [same] at over_
    exact over_ t inside
  case serial =>
    rw [calls]
    exact tidy_keeps serial keeps
  case screen =>
    rw [calls]
    exact tidy_keeps screen keeps

/-- A call of which all bytes are out is over. -/
theorem leave_tells {outer : List Nat} (tells : Telling m) (inside : m.inside t = id :: outer)
    (here : m.calls[id]? = some call) (all : call.left = []) (out : call.inHand = none) :
    Telling (m.setInside t outer) where
  owner := by
    intro u other there
    apply tells.owner u other
    change other ∈ Function.update m.inside t outer u at there
    grind
  past := tells.past
  printing := fun other one there =>
    ⟨(tells.printing other one there).serial, (tells.printing other one there).screen⟩
  printed := by
    intro other one there over_
    by_cases same : other = id
    · rw [same] at there
      rw [Option.some.inj (there.symm.trans here)]
      exact ⟨all, out⟩
    · refine tells.printed other one there fun u old => over_ u ?_
      change other ∈ Function.update m.inside t outer u
      grind
  serial := tells.serial
  screen := tells.screen

/-- Where the lock is does not matter to what has been printed. -/
theorem lock_tells {holder : Option Tid} {depth : Nat} (tells : Telling m) :
    Telling { m with holder := holder, consoleLockDepth := depth } where
  owner := tells.owner
  past := tells.past
  printing := fun id call here =>
    ⟨(tells.printing id call here).serial, (tells.printing id call here).screen⟩
  printed := tells.printed
  serial := tells.serial
  screen := tells.screen

/-- Only the one that panics goes on to print. -/
theorem panic_tells {who : Option Tid} (tells : Telling m) (able : m.Able who) :
    Telling { consolePanic m with panicked := some who } where
  owner := by
    intro u id inside
    obtain ⟨call, here, owner, current⟩ := tells.owner u id inside
    refine ⟨call, here, owner, ?_⟩
    intro ableToo
    apply current
    cases ableToo with
    | inl calm => cases calm
    | inr same =>
        cases same
        exact able
  past := tells.past
  printing := fun id call here =>
    ⟨(tells.printing id call here).serial, (tells.printing id call here).screen⟩
  printed := tells.printed
  serial := tells.serial
  screen := tells.screen

end Calls


section Steps

variable {m next : Machine} {t : Tid} {id session : Nat} {text left : List Byte} {c : Byte}
  {inHand : Option Byte}

theorem current_some {call : Call} (current : m.current t = some (id, call)) :
    ∃ outer, m.inside t = id :: outer ∧ m.calls[id]? = some call := by
  obtain ⟨top, isTop, found⟩ := Option.bind_eq_some_iff.mp current
  obtain ⟨one, here, same⟩ := Option.bind_eq_some_iff.mp found
  cases same
  obtain ⟨outer, inside⟩ := List.head?_eq_some_iff.mp isTop
  exact ⟨outer, inside, here⟩

/-- What the innermost call has put is in its latest session. -/
theorem current_tidy {call : Call} {output : List (Option Source × Byte)} (orderly : Orderly m)
    (able : m.Able (some t)) (current : m.current t = some (id, call)) (tidy : Tidy m.calls output)
    (c : Byte) : Tidy m.calls (output ++ [(some { session := call.session, call := id }, c)]) := by
  obtain ⟨outer, inside, here⟩ := current_some current
  have top : id ∈ m.inside t := by
    rw [inside]
    exact List.mem_cons_self
  obtain ⟨one, isOne, _, latest⟩ := orderly.owner t id top
  rw [here] at isOne
  cases isOne
  exact tidy_put tidy here orderly.past (latest able)

theorem current_goes {call change : Call} {serial screen : List (Option Source × Byte)} {count : Nat}
    (current : m.current t = some (id, call)) (session : change.session = call.session)
    (others : ∀ other ≠ id, bytesOf serial other = bytesOf m.serial other ∧
      bytesOf screen other = bytesOf m.screen other) :
    Goes m { m with
      calls := m.calls.set id change
      writeCnt := count
      serial := serial
      screen := screen } id call change := by
  obtain ⟨outer, inside, here⟩ := current_some current
  refine ⟨here, ⟨t, ?_⟩, rfl, session, others⟩
  rw [inside]
  exact List.mem_cons_self

theorem bytes_of_others {output : List (Option Source × Byte)} {other : Nat} (apart : other ≠ id) :
    bytesOf (output ++ [(some { session := session, call := id }, c)]) other = bytesOf output other := by
  rw [bytes_of_put, if_neg fun same => apart same.symm, List.append_nil]

theorem enter_orderly {got : Machine} (orderly : Orderly m) (able : m.Able (some t))
    (acquired : acquireConsole m t = some got) (text : List Byte) : Orderly (got.begin t text) := by
  obtain ⟨locks, free, isGot⟩ := acquire_locks orderly.toLocking acquired text
  have alone : ∀ u ≠ t, m.Able (some u) → m.inside u = [] := by
    intro u other ableToo
    by_cases calm : m.panicked = none
    · exact free calm u other
    · have mine := able.resolve_left calm
      rw [ableToo.resolve_left calm] at mine
      exact absurd (Option.some.inj (Option.some.inj mine)) other
  have before : Telling got := by
    rw [isGot]
    exact lock_tells orderly.toTelling
  refine { locks with toTelling := begin_tells before ?_ ?_ text, count := ?_ }
  · rw [isGot]
    exact able
  · rw [isGot]
    exact alone
  · rw [isGot]
    exact orderly.count

theorem serial_orderly (orderly : Orderly m) (able : m.Able (some t))
    (current : m.current t = some (id, ⟨session, text, c :: left, none⟩)) :
    Orderly ((m.putSerial (some { session := session, call := id }) c).setCall id
      ⟨session, text, left, some c⟩) := by
  obtain ⟨_, _, here⟩ := current_some current
  obtain ⟨serial, screen⟩ := orderly.printing id _ here
  dsimp only at serial screen
  rw [Option.toList_none, List.append_nil] at screen
  constructor
  case toLocking => exact locking_same orderly.toLocking rfl rfl rfl rfl rfl
  case toTelling =>
    refine goes_tells orderly.toTelling
      (current_goes current rfl fun other apart => ⟨bytes_of_others apart, rfl⟩) ⟨?_, ?_⟩
      (current_tidy orderly able current orderly.serial c) orderly.screen
    · change bytesOf (m.serial ++ [(some { session := session, call := id }, c)]) id ++ left = text
      rw [bytes_of_put, if_pos rfl, List.append_assoc]
      exact serial
    · change bytesOf m.screen id ++ [c] =
        bytesOf (m.serial ++ [(some { session := session, call := id }, c)]) id
      rw [bytes_of_put, if_pos rfl, screen]
  case count =>
    change m.writeCnt + 1 = (m.serial ++ [_]).length
    rw [List.length_append, List.length_singleton, orderly.count]

theorem screen_orderly (orderly : Orderly m) (able : m.Able (some t))
    (current : m.current t = some (id, ⟨session, text, left, some c⟩)) :
    Orderly ((m.putScreen (some { session := session, call := id }) c).setCall id
      ⟨session, text, left, none⟩) := by
  obtain ⟨_, _, here⟩ := current_some current
  obtain ⟨serial, screen⟩ := orderly.printing id _ here
  constructor
  case toLocking => exact locking_same orderly.toLocking rfl rfl rfl rfl rfl
  case toTelling =>
    refine goes_tells orderly.toTelling
      (current_goes current rfl fun other apart => ⟨rfl, bytes_of_others apart⟩) ⟨serial, ?_⟩
      orderly.serial (current_tidy orderly able current orderly.screen c)
    change bytesOf (m.screen ++ [(some { session := session, call := id }, c)]) id ++ [] =
      bytesOf m.serial id
    rw [bytes_of_put, if_pos rfl, List.append_nil]
    exact screen
  case count => exact orderly.count

theorem handler_orderly (orderly : Orderly m) (text : List Byte) : Orderly (m.putAll text) := by
  induction text generalizing m with
  | nil => exact orderly
  | cons c rest ih =>
      apply ih
      exact {
        toLocking := locking_same orderly.toLocking rfl rfl rfl rfl rfl
        toTelling := handler_tells orderly.toTelling c
        count := by
          change m.writeCnt + 1 = (m.serial ++ [_]).length
          rw [List.length_append, List.length_singleton, orderly.count] }

theorem leave_orderly (orderly : Orderly m)
    (current : m.current t = some (id, ⟨session, text, [], none⟩)) :
    ∃ next, releaseConsole (m.setInside t (m.inside t).tail) t = some next ∧ Orderly next := by
  obtain ⟨outer, inside, here⟩ := current_some current
  rw [inside, List.tail_cons]
  obtain ⟨next, released, locks, isNext⟩ := release_locks orderly.toLocking inside
  refine ⟨next, released, { locks with toTelling := ?_, count := ?_ }⟩
  · rw [isNext]
    exact lock_tells (leave_tells orderly.toTelling inside here rfl rfl)
  · rw [isNext]
    exact orderly.count

theorem panic_orderly {who : Option Tid} (orderly : Orderly m) (able : m.Able who) :
    Orderly { consolePanic m with panicked := some who } := by
  constructor
  case toLocking =>
    refine ⟨⟨fun locked => ?_, fun calm => ?_⟩, fun calm => ?_, fun calm => ?_⟩
    · cases locked
    · cases calm
    · cases calm
    · cases calm
  case toTelling => exact panic_tells orderly.toTelling able
  case count => exact orderly.count

theorem step_orderly {action : Action} (orderly : Orderly m) (taken : step m action = some next) :
    Orderly next := by
  cases action with
  | enter t print =>
      obtain ⟨able, entered⟩ := Option.ite_none_right_eq_some.mp taken
      obtain ⟨got, acquired, isNext⟩ := Option.map_eq_some_iff.mp entered
      rw [← isNext]
      exact enter_orderly orderly able acquired print.text
  | serial t =>
      simp only [step] at taken
      split at taken
      · next current =>
          obtain ⟨⟨able, _⟩, isNext⟩ := Option.ite_none_right_eq_some.mp taken
          cases isNext
          exact serial_orderly orderly able current
      · cases taken
  | screen t =>
      simp only [step] at taken
      split at taken
      · next current =>
          obtain ⟨able, isNext⟩ := Option.ite_none_right_eq_some.mp taken
          cases isNext
          exact screen_orderly orderly able current
      · cases taken
  | leave t =>
      simp only [step] at taken
      split at taken
      · next current =>
          obtain ⟨able, released⟩ := Option.ite_none_right_eq_some.mp taken
          obtain ⟨last, isLast, ends⟩ := leave_orderly orderly current
          rw [isLast] at released
          cases released
          exact ends
      · cases taken
  | handler print =>
      obtain ⟨_, isNext⟩ := Option.ite_none_right_eq_some.mp taken
      cases isNext
      exact handler_orderly orderly _
  | panic who =>
      obtain ⟨able, isNext⟩ := Option.ite_none_right_eq_some.mp taken
      cases isNext
      exact panic_orderly orderly able

theorem boot_orderly : Orderly boot := by
  have tidy : Tidy [] [] := ⟨.nil, fun _ inside => absurd inside List.not_mem_nil⟩
  constructor
  case toLocking => exact ⟨⟨fun _ => rfl, fun _ => rfl⟩, fun _ _ => rfl, fun _ _ => rfl⟩
  case toTelling =>
    exact ⟨fun _ _ inside => absurd inside List.not_mem_nil,
      fun _ inside => absurd inside List.not_mem_nil, fun _ _ here => (by cases here),
      fun _ _ here => (by cases here), tidy, tidy⟩
  case count => rfl

/-- A thread in a call is never stuck in it: no assertion fails. -/
theorem call_goes_on (orderly : Orderly m) (able : m.Able (some t)) (inside : m.inside t ≠ []) :
    (step m (.serial t)).isSome ∨ (step m (.screen t)).isSome ∨ (step m (.leave t)).isSome := by
  have locked : consoleLockedByCurrentThread m t = true := by
    unfold consoleLockedByCurrentThread
    by_cases calm : m.panicked = none
    · by_cases holds : m.holder = some t
      · rw [decide_eq_true holds, Bool.or_true]
      · exact absurd (inside_nil orderly.toLocking calm holds) inside
    · have unlocked : ¬m.useConsoleLock = true := fun locked => calm (orderly.lock.mp locked)
      rw [Bool.eq_false_iff.mpr unlocked]
      rfl
  obtain ⟨id, outer, isInside⟩ := List.exists_cons_of_ne_nil inside
  obtain ⟨call, here, _⟩ := orderly.owner t id (by rw [isInside]; exact List.mem_cons_self)
  have current : m.current t = some (id, call) := by
    unfold Machine.current
    rw [isInside, List.head?_cons, Option.bind_eq_bind, Option.bind_some, here]
    rfl
  obtain ⟨session, text, left, inHand⟩ := call
  cases inHand with
  | some c => exact .inr (.inl (by simp [step, current, able]))
  | none =>
      cases left with
      | cons c left => exact .inl (by simp [step, current, able, locked])
      | nil =>
          obtain ⟨next, released, _⟩ := leave_orderly orderly current
          exact .inr (.inr (by simp [step, current, able, released]))

end Steps

/-- In every run, on the serial port and on the screen, the sessions come one after the other, so
that the bytes of two threads do not mix; what a call has put is the beginning of its text, in
order, and all of it when no thread is in the call any more; and no thread gets stuck in a call. -/
theorem console_keeps_sessions_apart {m : Machine} {actions : List Action}
    (run : performs step boot actions = some m) :
    Tidy m.calls m.serial ∧ Tidy m.calls m.screen ∧
    (∀ t, ∀ id ∈ m.inside t, ∃ call, m.calls[id]? = some call ∧ m.sessions[call.session]? = some t) ∧
    (∀ id call, m.calls[id]? = some call → Printing m id call ∧
      ((∀ t, id ∉ m.inside t) → call.left = [] ∧ call.inHand = none)) ∧
    (∀ t, m.Able (some t) → m.inside t ≠ [] →
      (step m (.serial t)).isSome ∨ (step m (.screen t)).isSome ∨ (step m (.leave t)).isSome) ∧
    m.writeCnt = m.serial.length := by
  have orderly : Orderly m :=
    performs_invariant Orderly (fun _ _ _ orderly taken => step_orderly orderly taken) actions
      boot_orderly run
  refine ⟨orderly.serial, orderly.screen, ?_,
    fun id call here => ⟨orderly.printing id call here, orderly.printed id call here⟩,
    fun t able inside => call_goes_on orderly able inside, orderly.count⟩
  intro t id inside
  obtain ⟨call, here, owner, _⟩ := orderly.owner t id inside
  exact ⟨call, here, owner⟩

/-- An interrupt handler prints in the middle of a call of thread 1, then thread 2 prints. -/
def twoThreads : List Action :=
  [.enter 1 (.putchar 0x41), .serial 1, .handler (.putchar 0x2a), .screen 1, .leave 1,
    .enter 2 (.puts []), .serial 2]

theorem console_keeps_sessions_apart_two :
    ∃ m, performs step boot twoThreads = some m ∧ m.serial.map Prod.snd = [0x41, 0x2a, 0x0a] ∧
      m.screen.map Prod.snd = [0x2a, 0x41] ∧ Tidy m.calls m.serial ∧ m.writeCnt = 3 := by
  have possible : (performs step boot twoThreads).any (fun m =>
      m.serial.map Prod.snd = [0x41, 0x2a, 0x0a] ∧ m.screen.map Prod.snd = [0x2a, 0x41]) = true := by
    decide
  rw [Option.any_eq_true] at possible
  obtain ⟨m, run, check⟩ := possible
  obtain ⟨serial, screen⟩ := of_decide_eq_true check
  obtain ⟨tidy, _, _, _, _, count⟩ := console_keeps_sessions_apart run
  rw [← List.length_map (f := Prod.snd), serial] at count
  exact ⟨m, run, serial, screen, tidy, count⟩

end UtSystems.Libc.Console
