import UtSystems.Lib.Descriptors
import UtSystems.Yash.JobManager

/-!
# The descriptors of a launch

`launch_commander` and `launch_command_helper` with the descriptor tables of the shell and of its
children. Whether `open` and `fork` succeed is given for each call, and `pipe` succeeds. What does
not touch a descriptor is left out: the job table, the signals, the process groups, and the built-in
commands, which run in the shell itself. A child is left with the table that it has at `execvp`.
-/

namespace UtSystems.Yash.LaunchDescriptors

open Lib.Descriptors

set_option autoImplicit false

/-- What a descriptor stands for. -/
inductive Handle where
  -- what was open before
  | held (file : Nat)
  | input
  | output
  | error
  -- the pipe made for a stage
  | readEnd (stage : Nat)
  | writeEnd (stage : Nat)
deriving DecidableEq

structure Process where
  type : JobManager.CommandType
  inputPath : Option String
  outputPath : Option String
  errorPath : Option String

/-- Which calls succeed. -/
structure Calls where
  openInput : Bool
  openOutput : Bool
  openError : Bool
  -- by the number of the process
  fork : Nat → Bool

/-- A child with the number of its process. -/
structure Child where
  stage : Nat
  table : Table Handle

structure System where
  shell : Table Handle
  children : List Child

/-- The child's part of `launch_command_helper`: each `if` with `dup2` and `close`. -/
def childTable (shell : Table Handle) (inFd outFd errorFd : Nat) : Table Handle :=
  ((shell.move inFd 0).move outFd 1).move errorFd 2

def launchCommandHelper (calls : Calls) (s : System) (stage : Nat) (proc : Process)
    (inFd outFd errorFd : Nat) : System :=
  if proc.type ≠ .external then s
  else if calls.fork stage then
    { s with
      children := s.children ++
        [{ stage := stage, table := childTable s.shell inFd outFd errorFd }] }
  else s

/-- `open` for a path that is not null; otherwise, and when it fails, the descriptor is the default. -/
def openPath (shell : Table Handle) (path : Option String) (succeeds : Bool) (handle : Handle)
    (default : Nat) : Nat × Table Handle :=
  match path with
  | none => (default, shell)
  | some _ => if succeeds then shell.openFile handle else (default, shell)

/-- The loop, from the process with this number on. -/
def launchStages (calls : Calls) (s : System) (stage inFd : Nat) : List Process → System
  | [] => s
  | [proc] =>
      let (outFd, shell) := openPath s.shell proc.outputPath calls.openOutput .output 1
      let (errorFd, shell) := openPath shell proc.errorPath calls.openError .error 2
      launchCommandHelper calls { s with shell := shell } stage proc inFd outFd errorFd
  | proc :: next :: rest =>
      -- `pipe (fd)`
      let (readFd, shell) := s.shell.openFile (.readEnd stage)
      let (writeFd, shell) := shell.openFile (.writeEnd stage)
      let s := launchCommandHelper calls { s with shell := shell } stage proc inFd writeFd 2
      launchStages calls { s with shell := s.shell.close writeFd } (stage + 1) readFd (next :: rest)

/-- The processes of the job are the root and the rest. -/
def launchCommander (calls : Calls) (shell : Table Handle) (root : Process) (rest : List Process) :
    System :=
  match root.inputPath with
  | none => launchStages calls { shell := shell, children := [] } 0 0 (root :: rest)
  | some _ =>
      if calls.openInput then
        let (inFd, shell) := shell.openFile .input
        launchStages calls { shell := shell, children := [] } 0 inFd (root :: rest)
      else { shell := shell, children := [] }

/-! ## What stays open -/

section Staying

variable {calls : Calls} {s : System} {shell : Table Handle} {fd : Nat}

@[simp] theorem helper_shell (calls : Calls) (s : System) (stage : Nat) (proc : Process)
    (inFd outFd errorFd : Nat) :
    (launchCommandHelper calls s stage proc inFd outFd errorFd).shell = s.shell := by
  unfold launchCommandHelper
  split
  · rfl
  · split
    · rfl
    · rfl

/-- With the read end of the pipe, with both ends, and when the shell has closed the write end. -/
def withRead (shell : Table Handle) (stage : Nat) : Table Handle :=
  shell.put shell.lowest (.readEnd stage)

def withPipe (shell : Table Handle) (stage : Nat) : Table Handle :=
  (withRead shell stage).put (withRead shell stage).lowest (.writeEnd stage)

def afterStage (shell : Table Handle) (stage : Nat) : Table Handle :=
  (withPipe shell stage).close (withRead shell stage).lowest

theorem stages_pipe (calls : Calls) (s : System) (stage inFd : Nat) (proc next : Process)
    (rest : List Process) :
    launchStages calls s stage inFd (proc :: next :: rest) =
      launchStages calls
        { shell := afterStage s.shell stage
          children := (launchCommandHelper calls { s with shell := withPipe s.shell stage } stage
            proc inFd (withRead s.shell stage).lowest 2).children }
        (stage + 1) s.shell.lowest (next :: rest) := by
  rw [launchStages]
  simp only [helper_shell]
  rfl

theorem after_stage_entry (shell : Table Handle) (stage : Nat) :
    (afterStage shell stage).entry = (withRead shell stage).entry :=
  close_put_entry (lowest_free (withRead shell stage))

theorem open_file_entry (isOpen : shell.IsOpen fd) (handle : Handle) :
    (shell.openFile handle).2.entry fd = shell.entry fd :=
  put_entry_of_ne (open_not_lowest isOpen)

theorem open_path_entry (isOpen : shell.IsOpen fd) (path : Option String) (succeeds : Bool)
    (handle : Handle) (default : Nat) :
    (openPath shell path succeeds handle default).2.entry fd = shell.entry fd := by
  unfold openPath
  split
  · rfl
  · split
    · exact open_file_entry isOpen handle
    · rfl

theorem open_path_stays (isOpen : shell.IsOpen fd) (path : Option String) (succeeds : Bool)
    (handle : Handle) (default : Nat) :
    (openPath shell path succeeds handle default).2.IsOpen fd := by
  unfold Table.IsOpen
  rw [open_path_entry isOpen]
  exact isOpen

/-- The shell closes only the write end that it has just opened. -/
theorem stages_stay {list : List Process} {stage inFd : Nat} (isOpen : s.shell.IsOpen fd) :
    (launchStages calls s stage inFd list).shell.IsOpen fd := by
  induction list generalizing s stage inFd with
  | nil => exact isOpen
  | cons proc rest ih =>
      cases rest with
      | nil =>
          unfold launchStages
          rw [helper_shell]
          exact open_path_stays (open_path_stays isOpen _ _ _ _) _ _ _ _
      | cons next rest =>
          rw [stages_pipe]
          apply ih
          unfold Table.IsOpen
          rw [after_stage_entry]
          unfold withRead
          rw [put_entry_of_ne (open_not_lowest isOpen)]
          exact isOpen

theorem opened_is_new (shell : Table Handle) (handle : Handle) :
    ¬ shell.IsOpen (shell.openFile handle).1 ∧
      (shell.openFile handle).2.IsOpen (shell.openFile handle).1 := by
  constructor
  · intro isOpen
    exact isOpen (lowest_free shell)
  · exact is_open_some (put_entry_self _ _ _)

end Staying

/-! ## Leaks -/

/-- The same descriptors are open. -/
def SameOpen (t now : Table Handle) : Prop := ∀ fd, now.IsOpen fd ↔ t.IsOpen fd

/-- `open` fails or is not called. -/
def NotOpened (path : Option String) (succeeds : Bool) : Prop := path = none ∨ succeeds = false

/-- A file is not opened for the job, and no pipe is made. -/
def OpensNothing (calls : Calls) (root : Process) (rest : List Process) : Prop :=
  root.inputPath ≠ none ∧ calls.openInput = false ∨
    root.inputPath = none ∧ rest = [] ∧ NotOpened root.outputPath calls.openOutput ∧
      NotOpened root.errorPath calls.openError

theorem open_path_not_opened {shell : Table Handle} {path : Option String} {succeeds : Bool}
    (not : NotOpened path succeeds) (handle : Handle) (default : Nat) :
    openPath shell path succeeds handle default = (default, shell) := by
  unfold openPath
  cases not with
  | inl null => rw [null]
  | inr fails =>
      rw [fails]
      cases path with
      | none => rfl
      | some path => rfl

theorem open_path_opened {shell : Table Handle} {path : Option String} {succeeds : Bool}
    (opened : ¬ NotOpened path succeeds) (handle : Handle) (default : Nat) :
    openPath shell path succeeds handle default = shell.openFile handle := by
  unfold NotOpened at opened
  unfold openPath
  cases path with
  | none => exact absurd (Or.inl rfl) opened
  | some path =>
      cases succeeds with
      | false => exact absurd (Or.inr rfl) opened
      | true => rfl

/-- A descriptor that was not open and is open at the end. -/
theorem leaks {t now : Table Handle} {fd : Nat} (closed : ¬ t.IsOpen fd) (isOpen : now.IsOpen fd) :
    ¬ SameOpen t now := fun same => closed ((same fd).mp isOpen)

theorem pipe_leaks {calls : Calls} {s : System} {stage inFd : Nat} {proc next : Process}
    {rest : List Process} : ∃ fd, ¬ s.shell.IsOpen fd ∧
      (launchStages calls s stage inFd (proc :: next :: rest)).shell.IsOpen fd := by
  obtain ⟨closed, isOpen⟩ := opened_is_new s.shell (.readEnd stage)
  refine ⟨_, closed, ?_⟩
  rw [stages_pipe]
  apply stages_stay
  unfold Table.IsOpen
  rw [after_stage_entry]
  exact isOpen

theorem last_stage_same_iff {calls : Calls} {s : System} {stage inFd : Nat} {proc : Process} :
    SameOpen s.shell (launchStages calls s stage inFd [proc]).shell ↔
      NotOpened proc.outputPath calls.openOutput ∧ NotOpened proc.errorPath calls.openError := by
  unfold launchStages
  rw [helper_shell]
  by_cases output : NotOpened proc.outputPath calls.openOutput
  · rw [open_path_not_opened output]
    by_cases error : NotOpened proc.errorPath calls.openError
    · rw [open_path_not_opened error]
      exact iff_of_true (fun _ => Iff.rfl) ⟨output, error⟩
    · rw [open_path_opened error]
      obtain ⟨closed, isOpen⟩ := opened_is_new s.shell .error
      exact iff_of_false (leaks closed isOpen) fun both => error both.2
  · rw [open_path_opened output]
    obtain ⟨closed, isOpen⟩ := opened_is_new s.shell .output
    exact iff_of_false (leaks closed (open_path_stays isOpen _ _ _ _)) fun both => output both.1

theorem launch_keeps_descriptors_iff (calls : Calls) (shell : Table Handle) (root : Process)
    (rest : List Process) :
    SameOpen shell (launchCommander calls shell root rest).shell ↔ OpensNothing calls root rest := by
  unfold launchCommander OpensNothing
  cases root.inputPath with
  | some path =>
      cases opens : calls.openInput with
      | false => exact iff_of_true (fun _ => Iff.rfl) (Or.inl ⟨Option.some_ne_none path, rfl⟩)
      | true =>
          obtain ⟨closed, isOpen⟩ := opened_is_new shell .input
          apply iff_of_false
          · exact leaks closed (stages_stay isOpen)
          · intro nothing
            cases nothing with
            | inl fails => cases fails.2
            | inr single => cases single.1
  | none =>
      cases rest with
      | nil =>
          have last := @last_stage_same_iff calls { shell := shell, children := [] } 0 0 root
          exact last.trans (by simp)
      | cons next rest =>
          obtain ⟨fd, closed, isOpen⟩ := @pipe_leaks calls { shell := shell, children := [] } 0 0 root
            next rest
          exact iff_of_false (leaks closed isOpen) (by simp)

/-- Descriptors 0 to 2 are the terminal. -/
def terminal : Table Handle where
  entry := fun fd => if fd < 3 then some (.held fd) else none
  bound := 3
  unused := by
    intro fd high
    exact if_neg (by omega)

def allSucceed : Calls := { openInput := true, openOutput := true, openError := true
                            fork := fun _ => true }

/-- `sort < f`: the input file stays open under 3. -/
theorem input_file_stays_open :
    ∃ root, root.inputPath ≠ none ∧
      (launchCommander allSucceed terminal root []).shell.entry 3 = some .input ∧
      ¬ SameOpen terminal (launchCommander allSucceed terminal root []).shell := by
  let root : Process :=
    { type := .external, inputPath := some "f", outputPath := none, errorPath := none }
  have stays : (launchCommander allSucceed terminal root []).shell.entry 3 = some .input := by decide
  refine ⟨root, Option.some_ne_none _, stays, ?_⟩
  have closed : ¬ terminal.IsOpen 3 := fun isOpen => isOpen rfl
  exact leaks closed (is_open_some stays)

end UtSystems.Yash.LaunchDescriptors
