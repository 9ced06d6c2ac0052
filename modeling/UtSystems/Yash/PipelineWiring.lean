import UtSystems.Yash.LaunchDescriptors

/-!
# The wiring of a pipeline

Every child of a pipeline has the read end of the pipe before it as descriptor 0 and the write end
of its own pipe as descriptor 1. The shell has no write end when it forks the next child, so that no
other process has this one.
-/

namespace UtSystems.Yash.PipelineWiring

open Lib.Descriptors Yash.LaunchDescriptors

set_option autoImplicit false

/-- Only descriptors that the shell had before are open, 0 to 2 among them. -/
structure Fresh (shell : Table Handle) : Prop where
  held : ∀ fd handle, shell.entry fd = some handle → ∃ file, handle = .held file
  standard : ∀ fd < 3, shell.IsOpen fd

/-- All processes are external commands and every `fork` succeeds. -/
structure AllForked (calls : Calls) (list : List Process) : Prop where
  external : ∀ proc ∈ list, proc.type = .external
  forks : ∀ stage, calls.fork stage = true

/-- What descriptor 0 of a stage stands for. -/
def inputOf (shell : Table Handle) (root : Process) : Nat → Option Handle
  | 0 => if root.inputPath = none then shell.entry 0 else some .input
  | stage + 1 => some (.readEnd stage)

/-- What descriptor 1 of a stage stands for, where there are `count` stages. -/
def outputOf (calls : Calls) (shell : Table Handle) (last : Process) (count stage : Nat) :
    Option Handle :=
  if stage + 1 < count then some (.writeEnd stage)
  else if last.outputPath ≠ none ∧ calls.openOutput = true then some .output
  else shell.entry 1

structure Wired (child : Child) (input output : Option Handle) : Prop where
  input : child.table.entry 0 = input
  output : child.table.entry 1 = output
  -- it has no write end but its own, and that only once
  writeEnd : ∀ fd stage, child.table.entry fd = some (.writeEnd stage) →
    stage = child.stage ∧ fd = 1

/-- The shell when it comes to a stage, with the descriptor from which the stage reads. -/
structure Ready (start shell : Table Handle) (inFd : Nat) (input : Option Handle) : Prop where
  standard : ∀ fd < 3, shell.entry fd = start.entry fd
  used : ∀ fd < 3, start.IsOpen fd
  input : shell.entry inFd = input
  isOpen : shell.IsOpen inFd
  behind : inFd = 0 ∨ 3 ≤ inFd
  noWriteEnd : ∀ fd stage, shell.entry fd ≠ some (.writeEnd stage)

section Stages

variable {calls : Calls} {start shell : Table Handle} {inFd stage : Nat} {input : Option Handle}

theorem ready_behind (ready : Ready start shell inFd input) : 3 ≤ shell.lowest := by
  apply lowest_behind
  intro fd before
  unfold Table.IsOpen
  rw [ready.standard fd before]
  exact ready.used fd before

/-- Opening a file under the lowest descriptor. -/
theorem ready_put (ready : Ready start shell inFd input) {handle : Handle}
    (noWriteEnd : ∀ stage, handle ≠ .writeEnd stage) :
    Ready start (shell.put shell.lowest handle) inFd input := by
  have behind := ready_behind ready
  have notInput : inFd ≠ shell.lowest := open_not_lowest ready.isOpen
  exact {
    standard := by
      intro fd before
      rw [put_entry_of_ne (by omega)]
      exact ready.standard fd before
    used := ready.used
    input := by
      rw [put_entry_of_ne notInput]
      exact ready.input
    isOpen := by
      unfold Table.IsOpen
      rw [put_entry_of_ne notInput]
      exact ready.isOpen
    behind := ready.behind
    noWriteEnd := by
      intro fd stage
      by_cases isNew : fd = shell.lowest
      · rw [isNew, put_entry_self]
        intro same
        exact noWriteEnd stage (Option.some.inj same)
      · rw [put_entry_of_ne isNew]
        exact ready.noWriteEnd fd stage }

/-- The next stage reads from the new read end. -/
theorem ready_next (ready : Ready start shell inFd input) (stage : Nat) :
    Ready start (afterStage shell stage) shell.lowest (some (.readEnd stage)) := by
  have read := @ready_put _ _ _ _ ready (.readEnd stage) fun _ => by simp
  have same := after_stage_entry shell stage
  exact {
    standard := by
      rw [same]
      exact read.standard
    used := ready.used
    input := by
      rw [same]
      exact put_entry_self _ _ _
    isOpen := by
      unfold Table.IsOpen
      rw [same]
      exact (opened_is_new shell (.readEnd stage)).2
    behind := Or.inr (ready_behind ready)
    noWriteEnd := by
      rw [same]
      exact read.noWriteEnd }

/-- The child moves its descriptors to 0, 1 and 2. -/
theorem child_wired {outFd errorFd : Nat} {table : Table Handle} (inputOpen : table.IsOpen inFd)
    (outputOpen : table.IsOpen outFd)
    (outBehind : outFd = 1 ∨ 3 ≤ outFd) (errorBehind : errorFd = 2 ∨ 3 ≤ errorFd)
    (apart : outFd ≠ inFd)
    (onlyOutput : ∀ fd other, table.entry fd = some (.writeEnd other) →
      other = stage ∧ fd = outFd) :
    Wired { stage := stage, table := childTable table inFd outFd errorFd } (table.entry inFd)
      (table.entry outFd) := by
  obtain ⟨inHandle, isInput⟩ := Option.ne_none_iff_exists'.mp inputOpen
  obtain ⟨outHandle, isOutput⟩ := Option.ne_none_iff_exists'.mp outputOpen
  have kept : (table.move inFd 0).entry outFd = some outHandle := by
    rw [move_entry_of_ne apart (by omega)]
    exact isOutput
  -- the write end is moved away from the descriptor that it had
  have first : ∀ fd other, (table.move inFd 0).entry fd = some (.writeEnd other) →
      other = stage ∧ fd = outFd := by
    intro fd other found
    cases move_holds found with
    | inl moved => exact absurd (onlyOutput inFd other moved.2).2 (Ne.symm apart)
    | inr stays => exact onlyOutput fd other stays.2
  have second : ∀ fd other, ((table.move inFd 0).move outFd 1).entry fd = some (.writeEnd other) →
      other = stage ∧ fd = 1 := by
    intro fd other found
    cases move_holds found with
    | inl moved => exact ⟨(first outFd other moved.2).1, moved.1⟩
    | inr stays => exact absurd (first fd other stays.2).2 stays.1
  exact {
    input := by
      unfold childTable
      rw [move_entry_of_ne (by omega) (by omega), move_entry_of_ne (by omega) (by omega),
        move_entry_new isInput, isInput]
    output := by
      unfold childTable
      rw [move_entry_of_ne (by omega) (by omega), move_entry_new kept, isOutput]
    writeEnd := by
      intro fd other found
      cases move_holds found with
      | inl moved =>
          have one := (second errorFd other moved.2).2
          omega
      | inr stays => exact second fd other stays.2 }

/-- A file that may be opened for the last stage. -/
theorem open_path_ready (ready : Ready start shell inFd input) (path : Option String)
    (succeeds : Bool) {handle : Handle} (noWriteEnd : ∀ stage, handle ≠ .writeEnd stage)
    {default : Nat} (isStandard : default < 3) :
    Ready start (openPath shell path succeeds handle default).2 inFd input ∧
      (openPath shell path succeeds handle default).2.entry
          (openPath shell path succeeds handle default).1 =
        (if path ≠ none ∧ succeeds = true then some handle else start.entry default) ∧
      ((openPath shell path succeeds handle default).1 = default ∨
        3 ≤ (openPath shell path succeeds handle default).1 ∧
          (openPath shell path succeeds handle default).1 ≠ inFd) := by
  by_cases opened : path ≠ none ∧ succeeds = true
  · have notOpened : ¬ NotOpened path succeeds := by
      intro not
      cases not with
      | inl null => exact opened.1 null
      | inr fails => rw [fails] at opened; cases opened.2
    rw [if_pos opened, open_path_opened notOpened]
    refine ⟨ready_put ready noWriteEnd, put_entry_self _ _ _, Or.inr ⟨ready_behind ready, ?_⟩⟩
    exact Ne.symm (open_not_lowest ready.isOpen)
  · have notOpened : NotOpened path succeeds := by
      cases path with
      | none => exact Or.inl rfl
      | some path =>
          right
          simpa using opened
    rw [if_neg opened, open_path_not_opened notOpened]
    exact ⟨ready, ready.standard default isStandard, Or.inl rfl⟩

/-- An external command whose `fork` succeeds becomes a child. -/
theorem helper_forks {list : List Process} {s : System} {proc : Process} (forked : AllForked calls list)
    (member : proc ∈ list) (stage inFd outFd errorFd : Nat) :
    (launchCommandHelper calls s stage proc inFd outFd errorFd).children =
      s.children ++ [{ stage := stage, table := childTable s.shell inFd outFd errorFd }] := by
  unfold launchCommandHelper
  rw [if_neg (Decidable.not_not.mpr (forked.external proc member)), if_pos (forked.forks stage)]

/-- A stage that is not the last one. -/
theorem piped_wired (ready : Ready start shell inFd input) (stage : Nat) :
    Wired
      { stage := stage
        table := childTable (withPipe shell stage) inFd (withRead shell stage).lowest 2 }
      input (some (.writeEnd stage)) := by
  have read : Ready start (withRead shell stage) inFd input := ready_put ready fun _ => by simp
  have behind := ready_behind read
  have notInput := open_not_lowest read.isOpen
  have inputEntry : (withPipe shell stage).entry inFd = input := by
    unfold withPipe
    rw [put_entry_of_ne notInput]
    exact read.input
  have outputEntry : (withPipe shell stage).entry (withRead shell stage).lowest =
      some (.writeEnd stage) := put_entry_self _ _ _
  have wired := @child_wired inFd stage (withRead shell stage).lowest 2 (withPipe shell stage)
    (by
      unfold Table.IsOpen
      rw [inputEntry, ← ready.input]
      exact ready.isOpen)
    (is_open_some outputEntry)
    (Or.inr behind) (Or.inl rfl) (Ne.symm notInput)
    (by
      intro fd other found
      by_cases isWrite : fd = (withRead shell stage).lowest
      · rw [isWrite, outputEntry] at found
        cases found
        exact ⟨rfl, isWrite⟩
      · unfold withPipe at found
        rw [put_entry_of_ne isWrite] at found
        exact absurd found (read.noWriteEnd fd other))
  rw [inputEntry, outputEntry] at wired
  exact wired

/-- The last stage. -/
theorem last_wired {list : List Process} {s : System} {proc : Process} (forked : AllForked calls list)
    (member : proc ∈ list) (ready : Ready start s.shell inFd input) (stage : Nat) :
    ∃ table, (launchStages calls s stage inFd [proc]).children =
        s.children ++ [{ stage := stage, table := table }] ∧
      Wired { stage := stage, table := table } input
        (if proc.outputPath ≠ none ∧ calls.openOutput = true then some .output
          else start.entry 1) ∧
      ∀ fd other, (launchStages calls s stage inFd [proc]).shell.entry fd ≠
        some (.writeEnd other) := by
  obtain ⟨readyOutput, outEntry, outBehind⟩ := @open_path_ready start s.shell inFd input ready
    proc.outputPath calls.openOutput .output (fun _ => by simp) 1 (by decide)
  obtain ⟨readyError, _, errorBehind⟩ := @open_path_ready start _ inFd input readyOutput
    proc.errorPath calls.openError .error (fun _ => by simp) 2 (by decide)
  have outputOpen : (openPath s.shell proc.outputPath calls.openOutput .output 1).2.IsOpen
      (openPath s.shell proc.outputPath calls.openOutput .output 1).1 := by
    unfold Table.IsOpen
    rw [outEntry]
    split
    · exact Option.some_ne_none _
    · exact ready.used 1 (by decide)
  have apart : (openPath s.shell proc.outputPath calls.openOutput .output 1).1 ≠ inFd := by
    have behind := ready.behind
    omega
  have stays := open_path_entry outputOpen proc.errorPath calls.openError .error 2
  rw [outEntry] at stays
  have wired := @child_wired inFd stage _ _ _ readyError.isOpen
    (open_path_stays outputOpen proc.errorPath calls.openError .error 2) (by omega)
    (errorBehind.imp_right And.left) apart
    (fun fd other found => absurd found (readyError.noWriteEnd fd other))
  rw [readyError.input, stays] at wired
  refine ⟨_, helper_forks forked member stage inFd _ _, wired, ?_⟩
  unfold launchStages
  rw [helper_shell]
  exact readyError.noWriteEnd

theorem stages_wired {list : List Process} {s : System} {root last : Process} {count : Nat}
    (forked : AllForked calls list) (ready : Ready start s.shell inFd (inputOf start root stage))
    (isLast : list.getLast? = some last) (counted : stage + list.length = count) :
    ∃ more, (launchStages calls s stage inFd list).children = s.children ++ more ∧
      more.map Child.stage = List.range' stage list.length ∧
      (∀ child ∈ more, Wired child (inputOf start root child.stage)
        (outputOf calls start last count child.stage)) ∧
      ∀ fd other, (launchStages calls s stage inFd list).shell.entry fd ≠
        some (.writeEnd other) := by
  induction list generalizing s stage inFd with
  | nil => cases isLast
  | cons proc rest ih =>
      cases rest with
      | nil =>
          cases isLast
          obtain ⟨table, children, wired, noWriteEnd⟩ :=
            last_wired forked List.mem_cons_self ready stage
          refine ⟨_, children, rfl, ?_, noWriteEnd⟩
          intro child member
          rw [List.mem_singleton.mp member]
          have isEnd : ¬ stage + 1 < count := by
            rw [List.length_singleton] at counted
            omega
          unfold outputOf
          rw [if_neg isEnd]
          exact wired
      | cons next rest =>
          have forkedRest : AllForked calls (next :: rest) := {
            external := fun other member => forked.external other (List.mem_cons_of_mem proc member)
            forks := forked.forks }
          rw [List.getLast?_cons_cons] at isLast
          have counts : stage + 1 + (next :: rest).length = count := by
            rw [← counted, List.length_cons (a := proc)]
            omega
          have readyNext : Ready start (afterStage s.shell stage) s.shell.lowest
              (inputOf start root (stage + 1)) := ready_next ready stage
          let child : Child := {
            stage := stage
            table := childTable (withPipe s.shell stage) inFd (withRead s.shell stage).lowest 2 }
          have isChild : (launchCommandHelper calls { s with shell := withPipe s.shell stage } stage
              proc inFd (withRead s.shell stage).lowest 2).children = s.children ++ [child] :=
            helper_forks forked List.mem_cons_self stage inFd _ _
          obtain ⟨more, children, stages, wired, noWriteEnd⟩ :=
            ih (s := { shell := afterStage s.shell stage, children := s.children ++ [child] })
              forkedRest readyNext isLast counts
          rw [stages_pipe, isChild]
          refine ⟨child :: more, ?_, ?_, ?_, noWriteEnd⟩
          · rw [children, List.append_assoc]
            rfl
          · rw [List.map_cons, stages]
            rfl
          · intro other member
            cases List.mem_cons.mp member with
            | inl isFirst =>
                have isInner : stage + 1 < count := by
                  rw [List.length_cons] at counts
                  omega
                rw [isFirst]
                unfold outputOf
                rw [if_pos isInner]
                exact piped_wired ready stage
            | inr later => exact wired other later

end Stages

/-! ## The whole pipeline -/

/-- No process has the write end of the pipe of this stage: its reader is at the end of the file. -/
def AtEndOfFile (s : System) (stage : Nat) : Prop :=
  ¬ s.shell.Holds (.writeEnd stage) ∧ ∀ child ∈ s.children, ¬ child.table.Holds (.writeEnd stage)

/-- The child of a stage closes its descriptor 1. -/
def closeOutput (s : System) (stage : Nat) : System :=
  { s with
    children := s.children.map fun child =>
      if child.stage = stage then { child with table := child.table.close 1 } else child }

/-- The pipeline is launched, and each pipe has one writer. -/
structure IsPipeline (calls : Calls) (start : Table Handle) (root last : Process) (count : Nat)
    (s : System) : Prop where
  children : s.children.map Child.stage = List.range count
  input : ∀ child ∈ s.children, child.table.entry 0 = inputOf start root child.stage
  output : ∀ child ∈ s.children, child.table.entry 1 = outputOf calls start last count child.stage
  writer : ∀ stage, stage + 1 < count → ¬ s.shell.Holds (.writeEnd stage) ∧
    ∀ child ∈ s.children, child.table.Holds (.writeEnd stage) ↔ child.stage = stage
  ends : ∀ stage, stage + 1 < count → AtEndOfFile (closeOutput s stage) stage

theorem wired_pipeline {calls : Calls} {start : Table Handle} {root last : Process} {count : Nat}
    {s : System} (children : s.children.map Child.stage = List.range count)
    (wired : ∀ child ∈ s.children, Wired child (inputOf start root child.stage)
      (outputOf calls start last count child.stage))
    (noWriteEnd : ∀ fd other, s.shell.entry fd ≠ some (.writeEnd other)) :
    IsPipeline calls start root last count s where
  children := children
  input := fun child member => (wired child member).input
  output := fun child member => (wired child member).output
  writer := by
    intro stage inner
    refine ⟨?_, ?_⟩
    · intro holds
      obtain ⟨fd, found⟩ := holds
      exact noWriteEnd fd stage found
    · intro child member
      constructor
      · intro holds
        obtain ⟨fd, found⟩ := holds
        exact ((wired child member).writeEnd fd stage found).1.symm
      · intro own
        refine ⟨1, ?_⟩
        rw [(wired child member).output, own]
        exact if_pos inner
  ends := by
    intro stage _
    refine ⟨?_, ?_⟩
    · intro holds
      obtain ⟨fd, found⟩ := holds
      exact noWriteEnd fd stage found
    · intro closed member holds
      obtain ⟨child, isChild, same⟩ := List.mem_map.mp member
      obtain ⟨fd, found⟩ := holds
      rw [← same] at found
      by_cases own : child.stage = stage
      · rw [if_pos own] at found
        by_cases isOutput : fd = 1
        · subst isOutput
          rw [close_entry_self] at found
          cases found
        · rw [close_entry_of_ne isOutput] at found
          exact isOutput ((wired child isChild).writeEnd fd stage found).2
      · rw [if_neg own] at found
        exact own ((wired child isChild).writeEnd fd stage found).1.symm

theorem ready_pipeline {calls : Calls} {start shell : Table Handle} {root last : Process}
    {list : List Process} {inFd : Nat} (forked : AllForked calls list)
    (isLast : list.getLast? = some last) (ready : Ready start shell inFd (inputOf start root 0)) :
    IsPipeline calls start root last list.length
      (launchStages calls { shell := shell, children := [] } 0 inFd list) := by
  obtain ⟨more, children, stages, wired, noWriteEnd⟩ :=
    stages_wired (s := { shell := shell, children := [] }) forked ready isLast (Nat.zero_add _)
  rw [List.nil_append] at children
  rw [← children] at stages wired
  rw [← List.range_eq_range'] at stages
  exact wired_pipeline stages wired noWriteEnd

/-- Where the input file cannot be opened there is no child at all. -/
theorem pipeline_is_wired {calls : Calls} {shell : Table Handle} {root last : Process}
    {rest : List Process} (fresh : Fresh shell) (forked : AllForked calls (root :: rest))
    (isLast : (root :: rest).getLast? = some last) :
    (root.inputPath ≠ none ∧ calls.openInput = false ∧
      (launchCommander calls shell root rest).children = []) ∨
    IsPipeline calls shell root last (root :: rest).length
      (launchCommander calls shell root rest) := by
  have noWriteEnd : ∀ fd stage, shell.entry fd ≠ some (.writeEnd stage) := by
    intro fd stage found
    obtain ⟨file, isHeld⟩ := fresh.held fd _ found
    cases isHeld
  have ready : Ready shell shell 0 (shell.entry 0) := {
    standard := fun _ _ => rfl
    used := fresh.standard
    input := rfl
    isOpen := fresh.standard 0 (by decide)
    behind := Or.inl rfl
    noWriteEnd := noWriteEnd }
  unfold launchCommander
  cases path : root.inputPath with
  | none =>
      right
      have readyRoot : Ready shell shell 0 (inputOf shell root 0) := by
        unfold inputOf
        rw [if_pos path]
        exact ready
      exact ready_pipeline forked isLast readyRoot
  | some file =>
      cases opens : calls.openInput with
      | false => exact Or.inl ⟨Option.some_ne_none _, rfl, rfl⟩
      | true =>
          right
          have opened := @ready_put _ _ _ _ ready .input fun _ => by simp
          have readyRoot : Ready shell (shell.put shell.lowest .input) shell.lowest
              (inputOf shell root 0) := by
            unfold inputOf
            rw [if_neg (by rw [path]; exact Option.some_ne_none _)]
            exact {
              standard := opened.standard
              used := opened.used
              input := put_entry_self _ _ _
              isOpen := (opened_is_new shell .input).2
              behind := Or.inr (ready_behind ready)
              noWriteEnd := opened.noWriteEnd }
          exact ready_pipeline forked isLast readyRoot

def command : Process :=
  { type := .external, inputPath := none, outputPath := none, errorPath := none }

/-- `sort < f | uniq | wc > g`, with the terminal as descriptors 0 to 2. -/
theorem pipeline_is_wired_three :
    IsPipeline allSucceed terminal { command with inputPath := some "f" }
      { command with outputPath := some "g" } 3
      (launchCommander allSucceed terminal { command with inputPath := some "f" }
        [command, { command with outputPath := some "g" }]) := by
  have fresh : Fresh terminal := {
    held := by
      intro fd handle found
      change (if fd < 3 then some (Handle.held fd) else none) = some handle at found
      split at found
      · cases found
        exact ⟨fd, rfl⟩
      · cases found
    standard := by
      intro fd before
      change (if fd < 3 then some (Handle.held fd) else none) ≠ none
      rw [if_pos before]
      exact Option.some_ne_none _ }
  have forked : AllForked allSucceed [{ command with inputPath := some "f" }, command,
      { command with outputPath := some "g" }] := {
    external := by decide
    forks := fun _ => rfl }
  cases pipeline_is_wired fresh forked rfl with
  | inl fails => cases fails.2.1
  | inr wired => exact wired

end UtSystems.Yash.PipelineWiring
