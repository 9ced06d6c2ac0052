import UtSystems.Lib.GuardedRun
import Mathlib.Data.List.Basic
import Mathlib.Logic.Function.Basic

/-!
# Who is inside the file system

`syscall_handler` takes `filesys_lock` around most system calls. `sys_close`, `sys_exit`,
`load` and `shutdown_power_off` call the file system without it. Only what decides which
operations a thread calls is kept: a route through the kernel is the list of its lock
operations, file-system operations and waits, and the run chooses the route. The getters
`file_length`, `file_tell` and `inode_length` are not listed.

The parent waits on a semaphore pair of its own for each child; a `semList` without a free
pair is not modelled.
-/

namespace UtSystems.Userprog.FilesysLock

open Lib.GuardedRun

set_option autoImplicit false

inductive Op where
  | filesysCreate
  | filesysOpen
  | filesysRemove
  | filesysDone
  | fileClose
  | fileRead
  | fileWrite
  | fileSeek
  | fileDenyWrite
  deriving DecidableEq, Repr

/-- How far `load` gets. For each program header: the pages that `load_segment` reads, if the
header describes a loadable segment. -/
inductive Launch where
  | noPageDirectory
  | openFailed
  | badHeader
  -- `goto done` after so many operations for the program headers, or at the stack
  | stopped (headers : List (Option Nat)) (operations : Nat)
  | success (headers : List (Option Nat))
  deriving DecidableEq, Repr

inductive Instr where
  | acquire
  | release
  | call (op : Op)
  -- `thread_create` of the child; the boot thread also waits for its end
  | create (launch : Launch) (reap : Bool)
  -- `add_sem_list_entry` and `add_proc_list_entry`
  | register (child : Nat)
  -- `sema_down` of the child's `launched`
  | awaitLaunch (child : Nat)
  -- `sema_up` of the process's own `launched`
  | launched
  -- `sema_down` of the child's `exiting`
  | awaitExit (child : Nat)
  | addFdtEntry
  | clearFdtEntry
  | setFileToExe
  | sysExit
  | threadExit
  | powerOff
  deriving DecidableEq, Repr

def segmentCode : Option Nat → List Instr
  | none => [.call .fileSeek, .call .fileRead]
  | some pages => [.call .fileSeek, .call .fileRead, .call .fileSeek] ++
      List.replicate pages (.call .fileRead)

/-- `load` and the rest of `start_process`. -/
def startProcess : Launch → List Instr
  | .noPageDirectory => [.call .fileClose, .sysExit]
  | .openFailed => [.call .filesysOpen, .call .fileClose, .sysExit]
  -- `sys_exit(12)`
  | .badHeader => [.call .filesysOpen, .call .fileRead, .sysExit]
  | .stopped headers operations =>
      [.call .filesysOpen, .call .fileRead] ++ (headers.flatMap segmentCode).take operations ++
        [.call .fileClose, .sysExit]
  | .success headers =>
      [.call .filesysOpen, .call .fileRead] ++ headers.flatMap segmentCode ++
        [.call .fileClose, .call .filesysOpen, .setFileToExe, .call .fileDenyWrite, .launched]

/-- A thread: the rest of its way through the kernel, empty in user code. -/
structure Thread where
  code : List Instr
  -- the operation between whose call and return the thread is
  inside : Option Op := none
  -- descriptors in use
  files : Nat := 0
  fileToExe : Bool := false
  registered : Bool := false
  launched : Bool := false
  dead : Bool := false
  deriving DecidableEq, Repr

/-- What a process does that enters the kernel, with what decides the route there. -/
inductive Route where
  | halt
  -- also a page fault and a pointer that `syscall_handler` rejects
  | exit
  -- the file is found; `process_execute` gets its page and its thread
  | exec (found : Bool) (launch : Option Launch)
  -- none when `process_wait` returns at once
  | wait (child : Option Nat)
  | create (nameOk : Bool)
  | remove (nameOk : Bool)
  | openFile (nameOk found : Bool)
  | filesize
  -- whether the descriptor names an open file
  | read (present : Bool)
  | write (present : Bool)
  | seek (present : Bool)
  | tell
  | close (present : Bool)
  -- `kill` and an unknown system call
  | killed
  deriving DecidableEq, Repr

def locked (body : List Instr) : List Instr := .acquire :: (body ++ [.release])

def callIf (condition : Bool) (op : Op) : List Instr := if condition then [.call op] else []

def syscallHandler : Route → List Instr
  | .halt => [.call .filesysDone, .powerOff]
  | .exit => [.sysExit]
  | .exec false _ => locked [.call .filesysOpen]
  | .exec true none => locked [.call .filesysOpen, .call .fileClose]
  | .exec true (some launch) => locked [.call .filesysOpen, .call .fileClose, .create launch false]
  | .wait none => []
  | .wait (some child) => [.awaitExit child]
  | .create nameOk => locked (callIf nameOk .filesysCreate)
  | .remove nameOk => locked (callIf nameOk .filesysRemove)
  | .openFile nameOk found =>
      locked (callIf nameOk .filesysOpen ++ if nameOk && found then [.addFdtEntry] else [])
  | .filesize => locked []
  | .read present => locked (callIf present .fileRead)
  | .write present => locked (callIf present .fileWrite)
  | .seek present => locked (callIf present .fileSeek)
  | .tell => locked []
  | .close present => callIf present .fileClose ++ if present then [.clearFdtEntry] else []
  | .killed => [.threadExit]

/-- A descriptor can only be present when the process has one. -/
def Route.possible (route : Route) (files : Nat) : Bool :=
  match route with
  | .read present | .write present | .seek present | .close present => !present || 0 < files
  | _ => true

/-- `sys_exit` closes every descriptor and then the executable. -/
def sysExit (thread : Thread) : List Instr :=
  List.replicate thread.files (.call .fileClose) ++ callIf thread.fileToExe .fileClose ++
    [.threadExit]

structure Machine where
  filesysLock : Option Nat
  threads : Nat → Thread
  count : Nat
  off : Bool

def Machine.put (m : Machine) (t : Nat) (thread : Thread) : Machine :=
  { m with threads := Function.update m.threads t thread }

inductive Action where
  -- `run_task` of the boot thread
  | runTask (launch : Launch)
  | trap (t : Nat) (route : Route)
  -- the thread goes on in the kernel
  | run (t : Nat)
  deriving DecidableEq, Repr

def execute (m : Machine) (t : Nat) (thread : Thread) : Option Machine :=
  match thread.code with
  | [] => none
  | .acquire :: rest =>
      if m.filesysLock = none then
        some ({ m with filesysLock := some t }.put t { thread with code := rest })
      else none
  | .release :: rest => some ({ m with filesysLock := none }.put t { thread with code := rest })
  | .call op :: rest =>
      match thread.inside with
      | none => some (m.put t { thread with inside := some op })
      | some _ => some (m.put t { thread with inside := none, code := rest })
  | .create launch reap :: rest =>
      some (({ m with count := m.count + 1 }.put m.count { code := startProcess launch }).put t
        { thread with
          code := .register m.count :: .awaitLaunch m.count ::
            (if reap then .awaitExit m.count :: rest else rest) })
  | .register child :: rest =>
      some ((m.put t { thread with code := rest }).put child
        { (m.put t { thread with code := rest }).threads child with registered := true })
  | .awaitLaunch child :: rest =>
      if (m.threads child).launched then some (m.put t { thread with code := rest }) else none
  -- an unregistered process has no semaphore pair and the kernel panics
  | .launched :: rest =>
      if thread.registered then some (m.put t { thread with code := rest, launched := true })
      else none
  | .awaitExit child :: rest =>
      if (m.threads child).dead then some (m.put t { thread with code := rest }) else none
  | .addFdtEntry :: rest =>
      some (m.put t { thread with
        code := rest
        files := if thread.files < 126 then thread.files + 1 else thread.files })
  | .clearFdtEntry :: rest => some (m.put t { thread with code := rest, files := thread.files - 1 })
  | .setFileToExe :: rest => some (m.put t { thread with code := rest, fileToExe := true })
  | .sysExit :: _ => some (m.put t { thread with code := sysExit thread })
  | .threadExit :: _ => some (m.put t { thread with code := [], dead := true })
  | .powerOff :: _ => some { m with off := true }

def step (m : Machine) (action : Action) : Option Machine :=
  if m.off then none
  else
    match action with
    | .runTask launch =>
        if (m.threads 0).code = [] then
          some (m.put 0 { m.threads 0 with code := [.create launch true] })
        else none
    | .trap t route =>
        if t ≠ 0 ∧ (m.threads t).code = [] ∧ (m.threads t).dead = false ∧
            route.possible (m.threads t).files then
          some (m.put t { m.threads t with code := syscallHandler route })
        else none
    | .run t => execute m t (m.threads t)

def boot : Machine where
  filesysLock := none
  threads t := { code := [], dead := t ≠ 0 }
  count := 1
  off := false

def Inside (m : Machine) (t : Nat) : Prop := (m.threads t).inside ≠ none

/-- At most one thread is between the call and the return of a file-system operation. -/
def Excluded (m : Machine) : Prop := ∀ first second, Inside m first → Inside m second → first = second

/-- The child that the thread waits for in `process_execute`. -/
def waitsFor : List Instr → Option Nat
  | .register child :: _ => some child
  | .awaitLaunch child :: _ => some child
  | _ => none

/-- The parent waits, with `filesys_lock`, for the thread to come out of `load`. -/
def Covered (m : Machine) (t : Nat) : Prop :=
  ∃ parent ∈ m.filesysLock, waitsFor (m.threads parent).code = some t ∧
    (m.threads t).launched = false

def Quiet (m : Machine) : Prop := ∀ t < m.count, ¬Inside m t

/-- An operation is begun with `filesys_lock`, of the thread or of the parent waiting for it,
or else while the lock is free and no operation is under way; and the lock is not taken
while an operation is under way. -/
def Serialised (m : Machine) : Action → Prop
  | .run t =>
      match (m.threads t).code with
      | .call _ :: _ => ¬Inside m t →
          m.filesysLock = some t ∨ Covered m t ∨ m.filesysLock = none ∧ Quiet m
      | .acquire :: _ => Quiet m
      | _ => True
  | _ => True

instance (m : Machine) (t : Nat) : Decidable (Inside m t) :=
  inferInstanceAs (Decidable ((m.threads t).inside ≠ none))

instance (m : Machine) : Decidable (Quiet m) :=
  inferInstanceAs (Decidable (∀ t < m.count, ¬Inside m t))

instance (m : Machine) (t : Nat) : Decidable (Covered m t) :=
  match held : m.filesysLock with
  | none => isFalse (by rintro ⟨parent, holds, _⟩; rw [held] at holds; cases holds)
  | some parent =>
      decidable_of_iff (waitsFor (m.threads parent).code = some t ∧ (m.threads t).launched = false)
        ⟨fun both => ⟨parent, held, both⟩, fun ⟨other, holds, both⟩ => by
          rw [held] at holds
          cases holds
          exact both⟩

instance (m : Machine) (action : Action) : Decidable (Serialised m action) := by
  unfold Serialised
  cases action with
  | runTask launch => exact isTrue trivial
  | trap t route => exact isTrue trivial
  | run t =>
      dsimp only
      split <;> infer_instance

/-- The thread has the lock exactly between `acquire` and `release`. -/
def bracketed : Bool → List Instr → Bool
  | held, [] => !held
  | held, .acquire :: rest => !held && bracketed true rest
  | held, .release :: rest => held && bracketed false rest
  | held, .sysExit :: _ => !held
  | held, .threadExit :: _ => !held
  | held, .powerOff :: _ => !held
  | held, _ :: rest => bracketed held rest

def Unregistering (code : List Instr) : Prop := ∀ child, .register child ∉ code

/-- Only `create` makes a thread register a child, and it then waits for that child. -/
def Paired (code : List Instr) : Prop :=
  Unregistering code ∨ ∃ child rest,
    code = .register child :: .awaitLaunch child :: rest ∧ Unregistering rest

structure Codes (m : Machine) : Prop where
  started : 0 < m.count
  vacant : ∀ t, m.count ≤ t →
    (m.threads t).code = [] ∧ (m.threads t).inside = none ∧ (m.threads t).dead = true
  brackets : ∀ t, bracketed (m.filesysLock == some t) (m.threads t).code = true
  paired : ∀ t, Paired (m.threads t).code

structure Inv (m : Machine) : Prop where
  codes : Codes m
  heads : ∀ t, Inside m t → ∃ op rest, (m.threads t).code = .call op :: rest
  within : ∀ t, Inside m t → m.filesysLock = some t ∨ Covered m t ∨ m.filesysLock = none
  alone : Excluded m

section Routes

theorem bracketed_calls {held : Bool} {body rest : List Instr}
    (calls : ∀ instr ∈ body, ∃ op, instr = .call op) (after : bracketed held rest = true) :
    bracketed held (body ++ rest) = true := by
  induction body with
  | nil => exact after
  | cons first others ih =>
      obtain ⟨op, rfl⟩ := calls first List.mem_cons_self
      exact ih fun instr member => calls instr (List.mem_cons_of_mem _ member)

theorem segment_calls (header : Option Nat) :
    ∀ instr ∈ segmentCode header, ∃ op, instr = .call op := by
  intro instr member
  cases header with
  | none =>
      simp only [segmentCode, List.mem_cons, List.not_mem_nil, or_false] at member
      rcases member with rfl | rfl <;> exact ⟨_, rfl⟩
  | some pages =>
      simp only [segmentCode, List.mem_append, List.mem_cons, List.not_mem_nil, or_false,
        List.mem_replicate] at member
      rcases member with (rfl | rfl | rfl) | ⟨_, rfl⟩ <;> exact ⟨_, rfl⟩

theorem segments_calls (headers : List (Option Nat)) :
    ∀ instr ∈ headers.flatMap segmentCode, ∃ op, instr = .call op := by
  intro instr member
  obtain ⟨header, _, within⟩ := List.mem_flatMap.mp member
  exact segment_calls header instr within

theorem unregistering_calls {body rest : List Instr}
    (calls : ∀ instr ∈ body, ∃ op, instr = .call op) (after : Unregistering rest) :
    Unregistering (body ++ rest) := by
  intro child member
  rcases List.mem_append.mp member with early | late
  · obtain ⟨op, impossible⟩ := calls _ early
    cases impossible
  · exact after child late

/-- The process is started outside the lock. -/
theorem start_process_code (launch : Launch) :
    bracketed false (startProcess launch) = true ∧ Unregistering (startProcess launch) := by
  cases launch with
  | noPageDirectory => exact ⟨rfl, by simp [Unregistering, startProcess]⟩
  | openFailed => exact ⟨rfl, by simp [Unregistering, startProcess]⟩
  | badHeader => exact ⟨rfl, by simp [Unregistering, startProcess]⟩
  | stopped headers operations =>
      have calls : ∀ instr ∈ (headers.flatMap segmentCode).take operations,
          ∃ op, instr = .call op :=
        fun instr member => segments_calls headers instr (List.mem_of_mem_take member)
      dsimp only [startProcess]
      rw [List.append_assoc]
      exact ⟨bracketed_calls (by simp) (bracketed_calls calls rfl),
        unregistering_calls (by simp) (unregistering_calls calls (by simp [Unregistering]))⟩
  | success headers =>
      have calls := segments_calls headers
      dsimp only [startProcess]
      rw [List.append_assoc]
      exact ⟨bracketed_calls (by simp) (bracketed_calls calls rfl),
        unregistering_calls (by simp) (unregistering_calls calls (by simp [Unregistering]))⟩

theorem syscall_handler_code (route : Route) :
    bracketed false (syscallHandler route) = true ∧ Unregistering (syscallHandler route) := by
  have plain : ∀ (condition : Bool) (op : Op), bracketed false (locked (callIf condition op)) = true ∧
      Unregistering (locked (callIf condition op)) := by
    intro condition op
    cases condition <;> exact ⟨rfl, by simp [Unregistering, locked, callIf]⟩
  cases route with
  | halt => exact ⟨rfl, by simp [Unregistering, syscallHandler]⟩
  | exit => exact ⟨rfl, by simp [Unregistering, syscallHandler]⟩
  | exec found launch =>
      cases found <;> cases launch <;>
        exact ⟨rfl, by simp [Unregistering, syscallHandler, locked]⟩
  | wait child => cases child <;> exact ⟨rfl, by simp [Unregistering, syscallHandler]⟩
  | create nameOk => exact plain nameOk _
  | remove nameOk => exact plain nameOk _
  | openFile nameOk found =>
      cases nameOk <;> cases found <;>
        exact ⟨rfl, by simp [Unregistering, syscallHandler, locked, callIf]⟩
  | filesize => exact ⟨rfl, by simp [Unregistering, syscallHandler, locked]⟩
  | read present => exact plain present _
  | write present => exact plain present _
  | seek present => exact plain present _
  | tell => exact ⟨rfl, by simp [Unregistering, syscallHandler, locked]⟩
  | close present =>
      cases present <;> exact ⟨rfl, by simp [Unregistering, syscallHandler, callIf]⟩
  | killed => exact ⟨rfl, by simp [Unregistering, syscallHandler]⟩

theorem sys_exit_code (thread : Thread) :
    bracketed false (sysExit thread) = true ∧ Unregistering (sysExit thread) := by
  have calls : ∀ instr ∈ List.replicate thread.files (Instr.call .fileClose) ++
      callIf thread.fileToExe .fileClose, ∃ op, instr = .call op := by
    intro instr member
    rcases List.mem_append.mp member with descriptor | executable
    · exact ⟨_, (List.mem_replicate.mp descriptor).2⟩
    · unfold callIf at executable
      split at executable
      · exact ⟨_, List.mem_singleton.mp executable⟩
      · cases executable
  exact ⟨bracketed_calls calls rfl, unregistering_calls calls (by simp [Unregistering])⟩

theorem paired_tail {instr : Instr} {rest : List Instr} (paired : Paired (instr :: rest)) :
    Paired rest := by
  rcases paired with clean | ⟨child, after, eq, clean⟩
  · exact .inl fun child member => clean child (List.mem_cons_of_mem _ member)
  · cases eq
    refine .inl fun other member => ?_
    rcases List.mem_cons.mp member with impossible | late
    · cases impossible
    · exact clean other late

end Routes

section Steps

variable {m next : Machine} {t : Nat} {thread : Thread}

theorem put_self : (m.put t thread).threads t = thread := Function.update_self ..

theorem put_other {other : Nat} (different : other ≠ t) :
    (m.put t thread).threads other = m.threads other := Function.update_of_ne different ..

/-- With the lock taken, only its holder and the child it waits for can be inside. -/
theorem inside_of_held (inv : Inv m) {holder : Nat} (held : m.filesysLock = some holder) {a : Nat}
    (inside : Inside m a) :
    a = holder ∨ waitsFor (m.threads holder).code = some a ∧ (m.threads a).launched = false := by
  rcases inv.within a inside with own | ⟨parent, lent, waits⟩ | free
  · rw [held] at own
    cases own
    exact .inl rfl
  · rw [held] at lent
    cases lent
    exact .inr waits
  · rw [held] at free
    cases free

theorem inside_alone (inv : Inv m) {holder : Nat} (held : m.filesysLock = some holder)
    (stays : waitsFor (m.threads holder).code = none) {a : Nat} (inside : Inside m a) :
    a = holder := by
  rcases inside_of_held inv held inside with same | ⟨waits, _⟩
  · exact same
  · rw [stays] at waits
    cases waits

theorem not_inside (inv : Inv m)
    (notCall : ∀ op rest, (m.threads t).code ≠ .call op :: rest) : ¬Inside m t := by
  intro inside
  obtain ⟨op, rest, code⟩ := inv.heads t inside
  exact notCall op rest code

/-- Nobody is inside when the lock's holder neither calls an operation nor waits for a child. -/
theorem nobody_inside (inv : Inv m) {holder : Nat} (held : m.filesysLock = some holder)
    (notCall : ∀ op rest, (m.threads holder).code ≠ .call op :: rest)
    (stays : waitsFor (m.threads holder).code = none) (a : Nat) : ¬Inside m a := by
  intro inside
  have same := inside_alone inv held stays inside
  subst same
  exact not_inside inv notCall inside

theorem codes_put (codes : Codes m) (exists_ : t < m.count) {lock : Option Nat}
    (own : bracketed (lock == some t) thread.code = true) (paired : Paired thread.code)
    (others : ∀ a ≠ t, (lock == some a) = (m.filesysLock == some a)) :
    Codes ({ m with filesysLock := lock }.put t thread) := by
  constructor
  case started => exact codes.started
  case vacant =>
    intro a beyond
    have different : a ≠ t := by
      rintro rfl
      exact absurd exists_ (Nat.not_lt_of_le beyond)
    rw [put_other different]
    exact codes.vacant a beyond
  case brackets =>
    intro a
    by_cases same : a = t
    · subst same
      rw [put_self]
      exact own
    · rw [put_other same]
      exact (congrArg (bracketed · _) (others a same)).trans (codes.brackets a)
  case paired =>
    intro a
    by_cases same : a = t
    · subst same
      rw [put_self]
      exact paired
    · rw [put_other same]
      exact codes.paired a

theorem exists_of_code (codes : Codes m) {instr : Instr} {rest : List Instr}
    (code : (m.threads t).code = instr :: rest) : t < m.count := by
  by_contra beyond
  have empty := (codes.vacant t (Nat.le_of_not_lt beyond)).1
  rw [code] at empty
  cases empty

theorem inv_nobody (codes : Codes m) (nobody : ∀ a, ¬Inside m a) : Inv m where
  codes := codes
  heads a inside := absurd inside (nobody a)
  within a inside := absurd inside (nobody a)
  alone first _ one _ := absurd one (nobody first)

/-- A step of a thread that is not inside, neither before nor after. -/
theorem inv_move (inv : Inv m) (codes : Codes (m.put t thread)) (staysOutside : thread.inside = none)
    (keeps : ∀ a, a ≠ t → waitsFor (m.threads t).code = some a →
      (m.threads a).launched = false → waitsFor thread.code = some a) :
    Inv (m.put t thread) := by
  have insides : ∀ a, Inside (m.put t thread) a → a ≠ t ∧ Inside m a := by
    intro a inside
    unfold Inside at inside ⊢
    by_cases same : a = t
    · subst same
      rw [put_self] at inside
      exact absurd staysOutside inside
    · rw [put_other same] at inside
      exact ⟨same, inside⟩
  constructor
  case codes => exact codes
  case heads =>
    intro a inside
    obtain ⟨different, before⟩ := insides a inside
    rw [put_other different]
    exact inv.heads a before
  case within =>
    intro a inside
    obtain ⟨different, before⟩ := insides a inside
    rcases inv.within a before with own | ⟨parent, lent, waits, loading⟩ | free
    · exact .inl own
    · refine .inr (.inl ⟨parent, lent, ?_, ?_⟩)
      · by_cases same : parent = t
        · subst same
          rw [put_self]
          exact keeps a different waits loading
        · rw [put_other same]
          exact waits
      · rw [put_other different]
        exact loading
    · exact .inr (.inr free)
  case alone =>
    intro first second one two
    exact inv.alone first second (insides first one).2 (insides second two).2

/-- The thread's next statement is neither a lock operation nor a call, and it goes on. -/
theorem inv_next (inv : Inv m) {instr : Instr} {rest : List Instr}
    (code : (m.threads t).code = instr :: rest) (notCall : ∀ op, instr ≠ .call op)
    (sameCode : thread.code = rest) (sameInside : thread.inside = (m.threads t).inside)
    (brackets : ∀ held, bracketed held (instr :: rest) = bracketed held rest)
    (keeps : ∀ a, waitsFor (instr :: rest) = some a → (m.threads a).launched = false →
      waitsFor rest = some a) :
    Inv (m.put t thread) := by
  have outside : ¬Inside m t := by
    apply not_inside inv
    intro op others isCall
    rw [code] at isCall
    cases isCall
    exact notCall op rfl
  have before := inv.codes.brackets t
  rw [code, brackets] at before
  have paired := inv.codes.paired t
  rw [code] at paired
  apply inv_move inv
  · apply codes_put inv.codes (exists_of_code inv.codes code)
    · rw [sameCode]
      exact before
    · rw [sameCode]
      exact paired_tail paired
    · exact fun _ _ => rfl
  · rw [sameInside]
    exact not_not.mp outside
  · intro a _ waits loading
    rw [code] at waits
    rw [sameCode]
    exact keeps a waits loading

/-- A lock operation while nobody is inside. -/
theorem inv_lock (inv : Inv m) (nobody : ∀ a, ¬Inside m a) {instr : Instr} {rest : List Instr}
    (code : (m.threads t).code = instr :: rest) {lock : Option Nat}
    (own : bracketed (lock == some t) rest = true)
    (others : ∀ a ≠ t, (lock == some a) = (m.filesysLock == some a)) :
    Inv ({ m with filesysLock := lock }.put t { m.threads t with code := rest }) := by
  have paired := inv.codes.paired t
  rw [code] at paired
  apply inv_nobody
  · exact codes_put inv.codes (exists_of_code inv.codes code) own (paired_tail paired) others
  · intro a inside
    unfold Inside at inside
    by_cases same : a = t
    · subst same
      rw [put_self] at inside
      exact nobody a inside
    · rw [put_other same] at inside
      exact nobody a inside

theorem quiet_nobody (inv : Inv m) (quiet : Quiet m) (a : Nat) : ¬Inside m a := by
  intro inside
  by_cases exists_ : a < m.count
  · exact quiet a exists_ inside
  · exact inside (inv.codes.vacant a (Nat.le_of_not_lt exists_)).2.1

theorem inv_acquire (inv : Inv m) {rest : List Instr} (code : (m.threads t).code = .acquire :: rest)
    (free : m.filesysLock = none) (quiet : Quiet m) :
    Inv ({ m with filesysLock := some t }.put t { m.threads t with code := rest }) := by
  have brackets := inv.codes.brackets t
  rw [code, free] at brackets
  apply inv_lock inv (quiet_nobody inv quiet) code
  · rw [beq_self_eq_true]
    exact brackets
  · intro a different
    rw [free]
    simpa using fun equal : t = a => different equal.symm

/-- The thread whose next statement is `release` has the lock. -/
theorem inv_release (inv : Inv m) {rest : List Instr} (code : (m.threads t).code = .release :: rest) :
    Inv ({ m with filesysLock := none }.put t { m.threads t with code := rest }) := by
  have brackets := inv.codes.brackets t
  rw [code] at brackets
  obtain ⟨holds, own⟩ := Bool.and_eq_true_iff.mp brackets
  have held : m.filesysLock = some t := eq_of_beq holds
  have nobody : ∀ a, ¬Inside m a := by
    apply nobody_inside inv held
    · intro op others isCall
      rw [code] at isCall
      cases isCall
    · rw [code]
      rfl
  apply inv_lock inv nobody code
  · exact own
  · intro a different
    rw [held]
    simpa using fun equal : t = a => different equal.symm

theorem inv_begin (inv : Inv m) {op : Op} {rest : List Instr}
    (code : (m.threads t).code = .call op :: rest)
    (nobody : ∀ a, a ≠ t → ¬Inside m a)
    (within : m.filesysLock = some t ∨ Covered m t ∨ m.filesysLock = none) :
    Inv (m.put t { m.threads t with inside := some op }) := by
  have only : ∀ a, Inside (m.put t { m.threads t with inside := some op }) a → a = t := by
    intro a inside
    by_contra different
    unfold Inside at inside
    rw [put_other different] at inside
    exact nobody a different inside
  have same : ((m.put t { m.threads t with inside := some op }).threads t) =
      { m.threads t with inside := some op } := put_self
  constructor
  case codes =>
    exact codes_put inv.codes (exists_of_code inv.codes code) (inv.codes.brackets t)
      (inv.codes.paired t) fun _ _ => rfl
  case heads =>
    intro a inside
    rw [only a inside, same]
    exact ⟨op, rest, code⟩
  case within =>
    intro a inside
    rw [only a inside]
    rcases within with own | ⟨parent, lent, waits, loading⟩ | free
    · exact .inl own
    · have different : parent ≠ t := by
        rintro rfl
        rw [code] at waits
        cases waits
      refine .inr (.inl ⟨parent, lent, ?_, ?_⟩)
      · rw [put_other different]
        exact waits
      · rw [same]
        exact loading
    · exact .inr (.inr free)
  case alone =>
    intro first second one two
    rw [only first one, only second two]

theorem inv_end (inv : Inv m) (inside : Inside m t) {op : Op} {rest : List Instr}
    (code : (m.threads t).code = .call op :: rest) :
    Inv (m.put t { m.threads t with inside := none, code := rest }) := by
  have brackets := inv.codes.brackets t
  rw [code] at brackets
  have paired := inv.codes.paired t
  rw [code] at paired
  apply inv_nobody
  · exact codes_put inv.codes (exists_of_code inv.codes code) brackets (paired_tail paired)
      fun _ _ => rfl
  · intro a after
    unfold Inside at after
    by_cases same : a = t
    · subst same
      rw [put_self] at after
      exact after rfl
    · rw [put_other same] at after
      exact same (inv.alone a t after inside)

/-- The operation the thread calls is the only one under way. -/
theorem inv_call (inv : Inv m) {op : Op} {rest : List Instr}
    (code : (m.threads t).code = .call op :: rest)
    (serialised : m.filesysLock = some t ∨ Covered m t ∨ m.filesysLock = none ∧ Quiet m) :
    Inv (m.put t { m.threads t with inside := some op }) := by
  rcases serialised with own | ⟨parent, lent, waits, loading⟩ | ⟨free, quiet⟩
  · apply inv_begin inv code _ (.inl own)
    intro a different inside
    have stays : waitsFor (m.threads t).code = none := by
      rw [code]
      rfl
    exact different (inside_alone inv own stays inside)
  · apply inv_begin inv code _ (.inr (.inl ⟨parent, lent, waits, loading⟩))
    intro a different inside
    rcases inside_of_held inv lent inside with rfl | ⟨others, _⟩
    · obtain ⟨_, _, call⟩ := inv.heads a inside
      rw [call] at waits
      cases waits
    · rw [waits] at others
      cases others
      exact different rfl
  · apply inv_begin inv code _ (.inr (.inr free))
    exact fun a _ => quiet_nobody inv quiet a

/-- A thread without the lock starts on another way through the kernel, or ends. -/
theorem inv_jump (inv : Inv m) (exists_ : t < m.count) (outside : ¬Inside m t)
    (unheld : m.filesysLock ≠ some t) (stays : waitsFor (m.threads t).code = none)
    (sameInside : thread.inside = (m.threads t).inside)
    (fresh : bracketed false thread.code = true ∧ Unregistering thread.code) :
    Inv (m.put t thread) := by
  have notHeld : (m.filesysLock == some t) = false := beq_false_of_ne unheld
  apply inv_move inv
  · apply codes_put inv.codes exists_ _ (.inl fresh.2) fun _ _ => rfl
    rw [notHeld]
    exact fresh.1
  · rw [sameInside]
    exact not_not.mp outside
  · intro a _ waits
    rw [stays] at waits
    cases waits

theorem unheld_of_code (inv : Inv m) {code : List Instr} (at_ : (m.threads t).code = code)
    (idle : ∀ held, bracketed held code = !held) : m.filesysLock ≠ some t := by
  intro held
  have brackets := inv.codes.brackets t
  rw [at_, idle, held, beq_self_eq_true] at brackets
  cases brackets

/-- A new thread, which nobody has met. -/
theorem inv_spawn (inv : Inv m) (launch : Launch) :
    Inv ({ m with count := m.count + 1 }.put m.count { code := startProcess launch }) := by
  obtain ⟨emptyCode, _, _⟩ := inv.codes.vacant m.count (Nat.le_refl _)
  have unheld : m.filesysLock ≠ some m.count := unheld_of_code inv emptyCode fun _ => rfl
  obtain ⟨brackets, clean⟩ := start_process_code launch
  have notHeld : (m.filesysLock == some m.count) = false := beq_false_of_ne unheld
  have insides : ∀ a, Inside ({ m with count := m.count + 1 }.put m.count
      { code := startProcess launch }) a → a ≠ m.count ∧ Inside m a := by
    intro a inside
    unfold Inside at inside ⊢
    by_cases same : a = m.count
    · subst same
      rw [put_self] at inside
      exact absurd rfl inside
    · rw [put_other same] at inside
      exact ⟨same, inside⟩
  constructor
  case codes =>
    constructor
    case started => exact Nat.succ_pos _
    case vacant =>
      intro a beyond
      have different : a ≠ m.count := Nat.ne_of_gt beyond
      rw [put_other different]
      exact inv.codes.vacant a (Nat.le_of_succ_le beyond)
    case brackets =>
      intro a
      by_cases same : a = m.count
      · subst same
        rw [put_self]
        exact (congrArg (bracketed · _) notHeld).trans brackets
      · rw [put_other same]
        exact inv.codes.brackets a
    case paired =>
      intro a
      by_cases same : a = m.count
      · subst same
        rw [put_self]
        exact .inl clean
      · rw [put_other same]
        exact inv.codes.paired a
  case heads =>
    intro a inside
    obtain ⟨different, before⟩ := insides a inside
    rw [put_other different]
    exact inv.heads a before
  case within =>
    intro a inside
    obtain ⟨different, before⟩ := insides a inside
    rcases inv.within a before with own | ⟨parent, lent, waits, loading⟩ | free
    · exact .inl own
    · have known : parent ≠ m.count := by
        rintro rfl
        exact unheld lent
      refine .inr (.inl ⟨parent, lent, ?_, ?_⟩)
      · rw [put_other known]
        exact waits
      · rw [put_other different]
        exact loading
    · exact .inr (.inr free)
  case alone =>
    intro first second one two
    exact inv.alone first second (insides first one).2 (insides second two).2

theorem inv_create (inv : Inv m) {launch : Launch} {reap : Bool} {rest after : List Instr}
    (code : (m.threads t).code = .create launch reap :: rest)
    (brackets : ∀ held, bracketed held after = bracketed held rest)
    (clean : Unregistering rest → Unregistering after) :
    Inv (({ m with count := m.count + 1 }.put m.count { code := startProcess launch }).put t
      { m.threads t with code := .register m.count :: .awaitLaunch m.count :: after }) := by
  have spawned := inv_spawn inv launch
  have exists_ := exists_of_code inv.codes code
  have different : t ≠ m.count := Nat.ne_of_lt exists_
  have outside : ¬Inside m t := by
    apply not_inside inv
    intro op others isCall
    rw [code] at isCall
    cases isCall
  have before := inv.codes.brackets t
  rw [code] at before
  have paired := inv.codes.paired t
  rw [code] at paired
  have cleanRest : Unregistering rest := by
    rcases paired with clean | ⟨_, _, impossible, _⟩
    · exact fun child member => clean child (List.mem_cons_of_mem _ member)
    · cases impossible
  apply inv_move spawned
  · apply codes_put spawned.codes (Nat.lt_succ_of_lt exists_)
    · exact (brackets _).trans before
    · exact .inr ⟨m.count, after, rfl, clean cleanRest⟩
    · exact fun _ _ => rfl
  · exact not_not.mp outside
  · intro a _ waits
    rw [put_other different, code] at waits
    cases waits

/-- A change of what the invariant does not look at. -/
theorem inv_same (inv : Inv m) (code : thread.code = (m.threads t).code)
    (inside : thread.inside = (m.threads t).inside)
    (launched : thread.launched = (m.threads t).launched)
    (dead : thread.dead = (m.threads t).dead) : Inv (m.put t thread) := by
  have codes : ∀ a, ((m.put t thread).threads a).code = (m.threads a).code := by
    intro a
    by_cases same : a = t
    · subst same
      rw [put_self, code]
    · rw [put_other same]
  have insides : ∀ a, ((m.put t thread).threads a).inside = (m.threads a).inside := by
    intro a
    by_cases same : a = t
    · subst same
      rw [put_self, inside]
    · rw [put_other same]
  have launches : ∀ a, ((m.put t thread).threads a).launched = (m.threads a).launched := by
    intro a
    by_cases same : a = t
    · subst same
      rw [put_self, launched]
    · rw [put_other same]
  have deaths : ∀ a, ((m.put t thread).threads a).dead = (m.threads a).dead := by
    intro a
    by_cases same : a = t
    · subst same
      rw [put_self, dead]
    · rw [put_other same]
  constructor
  case codes =>
    constructor
    case started => exact inv.codes.started
    case vacant =>
      intro a
      rw [codes, insides, deaths]
      exact inv.codes.vacant a
    case brackets =>
      intro a
      rw [codes]
      exact inv.codes.brackets a
    case paired =>
      intro a
      rw [codes]
      exact inv.codes.paired a
  case heads =>
    intro a
    unfold Inside
    rw [insides, codes]
    exact inv.heads a
  case within =>
    intro a
    unfold Inside Covered
    rw [insides, launches]
    intro before
    rcases inv.within a before with own | ⟨parent, lent, waits⟩ | free
    · exact .inl own
    · refine .inr (.inl ⟨parent, lent, ?_⟩)
      rw [codes]
      exact waits
    · exact .inr (.inr free)
  case alone =>
    intro first second
    unfold Inside
    rw [insides, insides]
    exact inv.alone first second

theorem inv_register (inv : Inv m) {child : Nat} {rest : List Instr}
    (code : (m.threads t).code = .register child :: rest) :
    Inv (m.put t { m.threads t with code := rest }) := by
  have paired := inv.codes.paired t
  rw [code] at paired
  obtain ⟨after, rfl⟩ : ∃ after, rest = .awaitLaunch child :: after := by
    rcases paired with clean | ⟨_, after, eq, _⟩
    · exact absurd List.mem_cons_self (clean child)
    · cases eq
      exact ⟨after, rfl⟩
  refine inv_next inv code nofun rfl rfl (fun _ => rfl) ?_
  intro a waits _
  exact waits

theorem execute_inv (inv : Inv m) (serialised : Serialised m (.run t))
    (taken : execute m t (m.threads t) = some next) : Inv next := by
  unfold execute at taken
  split at taken
  · cases taken
  · next rest code =>
    obtain ⟨free, eq⟩ := Option.ite_none_right_eq_some.mp taken
    cases eq
    simp only [Serialised, code] at serialised
    exact inv_acquire inv code free serialised
  · next rest code =>
    cases taken
    exact inv_release inv code
  · next op rest code =>
    simp only [Serialised, code] at serialised
    split at taken
    · next outside =>
      cases taken
      exact inv_call inv code (serialised (not_not.mpr outside))
    · next current inside =>
      cases taken
      apply inv_end inv _ code
      unfold Inside
      rw [inside]
      exact Option.some_ne_none _
  · next launch reap rest code =>
    cases taken
    apply inv_create inv code
    · intro held
      cases reap <;> rfl
    · intro clean child member
      cases reap with
      | false => exact clean child member
      | true =>
          rcases List.mem_cons.mp member with impossible | late
          · cases impossible
          · exact clean child late
  · next child rest code =>
    cases taken
    exact inv_same (inv_register inv code) rfl rfl rfl rfl
  · next child rest code =>
    obtain ⟨launched, eq⟩ := Option.ite_none_right_eq_some.mp taken
    cases eq
    refine inv_next inv code nofun rfl rfl (fun _ => rfl) ?_
    intro a waits loading
    cases waits
    rw [launched] at loading
    cases loading
  · next rest code =>
    obtain ⟨_, eq⟩ := Option.ite_none_right_eq_some.mp taken
    cases eq
    exact inv_next inv code nofun rfl rfl (fun _ => rfl) nofun
  · next child rest code =>
    obtain ⟨_, eq⟩ := Option.ite_none_right_eq_some.mp taken
    cases eq
    exact inv_next inv code nofun rfl rfl (fun _ => rfl) nofun
  · next rest code =>
    cases taken
    exact inv_next inv code nofun rfl rfl (fun _ => rfl) nofun
  · next rest code =>
    cases taken
    exact inv_next inv code nofun rfl rfl (fun _ => rfl) nofun
  · next rest code =>
    cases taken
    exact inv_next inv code nofun rfl rfl (fun _ => rfl) nofun
  · next rest code =>
    cases taken
    exact inv_jump inv (exists_of_code inv.codes code) (not_inside inv (by rw [code]; nofun))
      (unheld_of_code inv code fun _ => rfl) (by rw [code]; rfl) rfl (sys_exit_code _)
  · next rest code =>
    cases taken
    exact inv_jump inv (exists_of_code inv.codes code) (not_inside inv (by rw [code]; nofun))
      (unheld_of_code inv code fun _ => rfl) (by rw [code]; rfl) rfl ⟨rfl, nofun⟩
  · cases taken
    exact ⟨⟨inv.codes.started, inv.codes.vacant, inv.codes.brackets, inv.codes.paired⟩,
      inv.heads, inv.within, inv.alone⟩

theorem step_inv (inv : Inv m) {action : Action} (serialised : Serialised m action)
    (taken : step m action = some next) : Inv next := by
  unfold step at taken
  obtain ⟨_, on⟩ := Option.ite_none_left_eq_some.mp taken
  cases action with
  | runTask launch =>
      obtain ⟨idle, eq⟩ := Option.ite_none_right_eq_some.mp on
      cases eq
      exact inv_jump inv inv.codes.started (not_inside inv (by rw [idle]; nofun))
        (unheld_of_code inv idle fun _ => rfl) (by rw [idle]; rfl) rfl
        ⟨rfl, by simp [Unregistering]⟩
  | trap t route =>
      obtain ⟨⟨_, idle, alive, _⟩, eq⟩ := Option.ite_none_right_eq_some.mp on
      cases eq
      have exists_ : t < m.count := by
        by_contra beyond
        rw [(inv.codes.vacant t (Nat.le_of_not_lt beyond)).2.2] at alive
        cases alive
      exact inv_jump inv exists_ (not_inside inv (by rw [idle]; nofun))
        (unheld_of_code inv idle fun _ => rfl) (by rw [idle]; rfl) rfl (syscall_handler_code route)
  | run t => exact execute_inv inv serialised on

end Steps

theorem boot_inv : Inv boot := by
  apply inv_nobody
  · constructor
    case started => exact Nat.one_pos
    case vacant =>
      intro t beyond
      refine ⟨rfl, rfl, ?_⟩
      simp only [boot, decide_eq_true_eq]
      exact Nat.ne_of_gt beyond
    case brackets => exact fun _ => rfl
    case paired => exact fun _ => .inl nofun
  · exact fun _ inside => inside rfl

/-- In every interleaving whose steps are serialised at most one thread is between the call
and the return of a file-system operation. -/
theorem filesys_excluded (m : Machine) (run : Reaches step Serialised boot m) : Excluded m := by
  have inv := reaches_invariant Inv boot_inv
    (fun _ _ _ inv serialised taken => step_inv inv serialised taken) run
  exact inv.alone

/-- The boot thread starts a process and waits until it runs. -/
def firstProcess : List Action :=
  [.runTask (.success []), .run 0, .run 0] ++ List.replicate 12 (.run 1) ++ [.run 0]

/-- The first process starts another one, up to the new thread. -/
def secondProcess : List Action :=
  .trap 1 (.exec true (some (.success []))) :: List.replicate 6 (.run 1)

/-- A child is in `load` while its parent holds the lock. -/
theorem filesys_excluded_during_load :
    ∃ m, Reaches step Serialised boot m ∧ m.filesysLock = some 1 ∧ Inside m 2 ∧ Excluded m := by
  obtain ⟨m, run, check⟩ := @reaches_of_check _ _ step Serialised _ boot
    (firstProcess ++ secondProcess ++ [.run 2])
    (fun m => decide (m.filesysLock = some 1 ∧ Inside m 2)) (by decide +kernel)
  obtain ⟨held, inside⟩ := of_decide_eq_true check
  exact ⟨m, run, held, inside, filesys_excluded m run⟩

/-- One process is in `filesys_create`, and another one exits. -/
theorem exit_overlaps_create :
    ∃ m, Reaches step (fun _ _ => True) boot m ∧
      (m.threads 1).inside = some .filesysCreate ∧ (m.threads 2).inside = some .fileClose ∧
      ¬Excluded m := by
  obtain ⟨m, run, check⟩ := @reaches_of_check _ _ step (fun _ _ => True) _ boot
    (firstProcess ++ secondProcess ++ .run 1 :: List.replicate 12 (.run 2) ++
      [.run 1, .run 1, .trap 1 (.create true), .run 1, .run 1, .trap 2 .exit, .run 2, .run 2])
    (fun m => decide ((m.threads 1).inside = some .filesysCreate ∧
      (m.threads 2).inside = some .fileClose)) (by decide +kernel)
  obtain ⟨creates, closes⟩ := of_decide_eq_true check
  refine ⟨m, run, creates, closes, fun excluded => ?_⟩
  have firstInside : Inside m 1 := by
    unfold Inside
    rw [creates]
    exact Option.some_ne_none _
  have secondInside : Inside m 2 := by
    unfold Inside
    rw [closes]
    exact Option.some_ne_none _
  exact absurd (excluded 1 2 firstInside secondInside) (by decide)

end UtSystems.Userprog.FilesysLock
