import UtSystems.Userprog.StackArgs
import UtSystems.Userprog.HeldSteps

/-!
# The names in a command

`sys_exec` looks for the file that the first word between blanks names, `load` opens the one that
the first word between blanks, tabs and newlines names, and `format_stack_args` splits the command
as `sys_exec` does.
-/

namespace UtSystems.Userprog.CommandNames

open Lib.Bytes Lib.Effects Lib.GuardedRun Lib.MemoryWords Lib.Tokens Libc.Strings Filesys.Volume
open Filesys.Directory Userprog.Elf Userprog.Descriptors Userprog.HeldSteps Userprog.StackArgs

set_option autoImplicit false

/-- The string that the first call of `strtok_r` returns. -/
def firstToken (delimiters buf : List Byte) : Except Fault (Option (List Byte)) := do
  let (token, buf, _) ← strtokR delimiters buf 0
  match token with
  | none => .ok none
  | some token =>
      let name ← readString buf token
      .ok (some name)

/-- `fn_cp` of `sys_exec`; the block it is copied to is as long as the command. -/
def execFileName (cmdLine : List Byte) : Except Fault (Option (List Byte)) := do
  let block ← strlcpy (List.replicate (cmdLine.length + 1) 0) cmdLine (cmdLine.length + 1)
  firstToken [0x20] block

/-- `file_name` of `load`, which it passes to both calls of `filesys_open`. -/
def loadFileName (cmdstr : List Byte) : Except Fault (Option (List Byte)) := do
  let cmdstrCpy1 ← localCopy cmdstr
  firstToken [0x20, 0x09, 0x0a] cmdstrCpy1

section Names

variable {delimiters buf text : List Byte}

theorem first_token (has : HasString buf 0 text) :
    firstToken delimiters buf = .ok (tokens (separates delimiters) text).head? := by
  cases @strtok_next delimiters _ _ _ has with
  | inl none =>
      obtain ⟨all, save, called⟩ := none
      rw [firstToken, called, all]
      rfl
  | inr some =>
      obtain ⟨word, more, token, after, save, later, all, called, stands, _⟩ := some
      rw [firstToken, called, all]
      change (readString after token >>= _) = _
      rw [read_string stands]
      rfl

theorem exec_file_name (noNul : (0 : Byte) ∉ text) :
    execFileName text = .ok (argsOf text).head? := by
  have fits : text.length < (List.replicate (text.length + 1) (0 : Byte)).length := by
    rw [List.length_replicate]
    exact Nat.lt_succ_self _
  unfold execFileName
  rw [strlcpy_whole fits]
  exact first_token ⟨noNul, _, rfl⟩

theorem load_file_name (noNul : (0 : Byte) ∉ text) (short : text.length ≤ 99) :
    loadFileName text = .ok (tokens (separates [0x20, 0x09, 0x0a]) text).head? := by
  obtain ⟨buf, copied, has⟩ := local_copy noNul short
  unfold loadFileName
  rw [copied]
  exact first_token has

/-- The first token, as the model of the calls has it. -/
theorem strtok_head (delimiters text : List Byte) :
    strtok delimiters text = (tokens (separates delimiters) text).head? := by
  have isSep : ∀ x, separates delimiters x = decide (x ∈ delimiters) := by
    intro x
    exact List.contains_eq_mem x delimiters
  cases tokens_cases (separates delimiters) text with
  | inl none =>
      have gone : text.dropWhile (fun x => decide (x ∈ delimiters)) = [] := by
        rw [List.dropWhile_eq_nil_iff]
        intro x inside
        rw [← isSep]
        exact none.1 x inside
      rw [none.2, strtok, gone]
      rfl
  | inr some =>
      obtain ⟨gap, word, rest, split, isGap, nonempty, free, ends⟩ := some
      obtain ⟨first, others, begins⟩ := List.exists_cons_of_ne_nil nonempty
      have skipped : text.dropWhile (fun x => decide (x ∈ delimiters)) = word ++ rest := by
        rw [split, List.append_assoc, List.dropWhile_append_of_pos]
        · rw [begins, List.cons_append, List.dropWhile_cons_of_neg]
          rw [← isSep, free first (begins ▸ List.mem_cons_self)]
          exact Bool.false_ne_true
        · intro x inside
          rw [← isSep]
          exact isGap x inside
      have taken : (word ++ rest).takeWhile (fun x => decide (x ∉ delimiters)) = word := by
        rw [List.takeWhile_append_of_pos]
        · cases ends with
          | inl last => rw [last.1, List.takeWhile_nil, List.append_nil]
          | inr cut =>
              obtain ⟨d, later, isRest, isDelimiter, _⟩ := cut
              rw [isSep, decide_eq_true_eq] at isDelimiter
              rw [isRest, List.takeWhile_cons_of_neg, List.append_nil]
              rw [decide_eq_true_eq]
              exact fun out => out isDelimiter
        · intro x inside
          have notSep := free x inside
          rw [isSep, decide_eq_false_iff_not] at notSep
          exact decide_eq_true notSep
      have head : (tokens (separates delimiters) text).head? = Option.some word := by
        cases ends with
        | inl last => rw [last.2, List.head?_cons]
        | inr cut =>
            obtain ⟨_, _, _, _, all⟩ := cut
            rw [all, List.head?_cons]
      rw [head, strtok, skipped]
      rw [begins] at taken ⊢
      exact congrArg Option.some taken

end Names

/-! ## The local arrays -/

theorem buffers_suffice_iff (cmdStr : List Byte) (memory : Memory) (noNul : (0 : Byte) ∉ cmdStr) :
    (∃ name, loadFileName cmdStr = .ok name) ∧
      (∃ after esp, setupStack cmdStr memory = .ok (after, esp)) ↔ cmdStr.length ≤ 99 := by
  constructor
  · intro kept
    obtain ⟨⟨name, loaded⟩, _⟩ := kept
    by_contra long
    unfold loadFileName at loaded
    rw [local_copy_overrun (by omega)] at loaded
    cases loaded
  · intro short
    constructor
    · exact ⟨_, load_file_name noNul short⟩
    · obtain ⟨cleared, called, _⟩ := format_stack_args memory noNul short rfl rfl
      exact ⟨_, _, called⟩

/-- `echo x` -/
theorem buffers_suffice_iff_echo :
    ∃ name, loadFileName [0x65, 0x63, 0x68, 0x6f, 0x20, 0x78] = .ok name :=
  ((buffers_suffice_iff [0x65, 0x63, 0x68, 0x6f, 0x20, 0x78] (fun _ => 0) (by decide)).mpr
    (by decide)).1

/-- A command of 100 characters: its null byte lies behind `cmdstrCpy1`. -/
theorem long_command_overruns :
    loadFileName (List.replicate 100 0x61) = .error .overrun := by
  unfold loadFileName
  rw [local_copy_overrun (by rw [List.length_replicate])]
  rfl

/-! ## One name -/

/-- The file that is looked for, the file that is loaded and `argv[0]` have this name. -/
structure OneName (cmdStr name : List Byte) : Prop where
  checked : execFileName cmdStr = .ok (some name)
  loaded : loadFileName cmdStr = .ok (some name)
  argv0 : ∀ memory : Memory, (∀ y, physBase - pgSize ≤ y → y < physBase → memory y = 0) →
    ∃ after esp, setupStack cmdStr memory = .ok (after, esp) ∧
      slice after (argAt after esp 0) (name.length + 1) = name ++ [0]

theorem open_null {fs next : FileSys} {file : Ptr} :
    filesysOpen none fs ≠ .ok (some file) next := by
  intro ran
  unfold filesysOpen at ran
  obtain ⟨root, opened, _, ran⟩ := bind_ok ran
  cases root with
  | none =>
      obtain ⟨block, third, _, ran⟩ := bind_ok ran
      obtain ⟨_, fourth, _, ran⟩ := bind_ok ran
      cases ran
  | some dir =>
      obtain ⟨inode, third, looked, _⟩ := bind_ok ran
      obtain ⟨entry, fourth, found, _⟩ := bind_ok looked
      cases found

/-- The calls of `sys_exec` and `load` in the file system take these names. -/
theorem exec_opens (cmdLine : List Byte) (noNul : (0 : Byte) ∉ cmdLine) :
    execFileName cmdLine = .ok (strtok [0x20] cmdLine) := by
  rw [exec_file_name noNul, strtok_head]
  rfl

theorem load_opens (cmdstr : List Byte) (noNul : (0 : Byte) ∉ cmdstr)
    (short : cmdstr.length ≤ 99) :
    loadFileName cmdstr = .ok (strtok [0x20, 0x09, 0x0a] cmdstr) := by
  rw [load_file_name noNul short, strtok_head]

theorem exec_names {cmdLine : List Byte} {fs next : FileSys}
    (checked : sysExec cmdLine fs = .ok true next) : argsOf cmdLine ≠ [] := by
  intro blank
  unfold sysExec at checked
  obtain ⟨file, opened, opening, rest⟩ := bind_ok checked
  rw [strtok_head] at opening
  change filesysOpen (argsOf cmdLine).head? fs = _ at opening
  rw [blank] at opening
  cases file with
  | none => cases rest
  | some file => exact open_null opening

/-- Blanks separate words in both lists of delimiters; tabs and newlines only in one. -/
theorem heads_agree_iff {cmdStr first : List Byte} {more : List (List Byte)}
    (args : argsOf cmdStr = first :: more) :
    (tokens (separates [0x20, 0x09, 0x0a]) cmdStr).head? = some first ↔
      (0x09 : Byte) ∉ first ∧ (0x0a : Byte) ∉ first := by
  constructor
  · intro same
    have free : ∀ x ∈ first, separates [0x20, 0x09, 0x0a] x = false := by
      cases tokens_cases (separates [0x20, 0x09, 0x0a]) cmdStr with
      | inl none =>
          rw [none.2] at same
          cases same
      | inr some =>
          obtain ⟨gap, word, rest, _, _, _, free, ends⟩ := some
          have isFirst : word = first := by
            cases ends with
            | inl last =>
                rw [last.2, List.head?_cons] at same
                exact Option.some.inj same
            | inr cut =>
                obtain ⟨_, _, _, _, all⟩ := cut
                rw [all, List.head?_cons] at same
                exact Option.some.inj same
          exact isFirst ▸ free
    constructor
    · intro tab
      exact absurd (free _ tab) (by decide)
    · intro newline
      exact absurd (free _ newline) (by decide)
  · intro clean
    cases tokens_cases (separates [0x20]) cmdStr with
    | inl none =>
        rw [argsOf, none.2] at args
        cases args
    | inr some =>
        obtain ⟨gap, word, rest, split, isGap, nonempty, free, ends⟩ := some
        have isFirst : word = first := by
          unfold argsOf at args
          cases ends with
          | inl last =>
              rw [last.2] at args
              exact (List.cons.inj args).1
          | inr cut =>
              obtain ⟨_, _, _, _, all⟩ := cut
              rw [all] at args
              exact (List.cons.inj args).1
        have blank : ∀ x : Byte, separates [0x20] x = true →
            separates [0x20, 0x09, 0x0a] x = true := by
          intro x isBlank
          rw [separates, List.contains_iff_mem] at isBlank ⊢
          exact List.mem_cons.mpr (Or.inl (List.mem_singleton.mp isBlank))
        have wordFree : ∀ x ∈ word, separates [0x20, 0x09, 0x0a] x = false := by
          intro x inside
          have notBlank := free x inside
          rw [separates, List.contains_eq_mem, decide_eq_false_iff_not] at notBlank ⊢
          intro isSep
          simp only [List.mem_cons, List.not_mem_nil, or_false] at isSep notBlank
          cases isSep with
          | inl isBlank => exact notBlank isBlank
          | inr isOther =>
              cases isOther with
              | inl isTab => exact clean.1 (isFirst ▸ isTab ▸ inside)
              | inr isNewline => exact clean.2 (isFirst ▸ isNewline ▸ inside)
        rw [split, List.append_assoc, tokens_gap fun x inside => blank x (isGap x inside)]
        cases ends with
        | inl last =>
            rw [last.1, List.append_nil, tokens_last nonempty wordFree, isFirst]
            rfl
        | inr cut =>
            obtain ⟨d, later, isRest, isSep, _⟩ := cut
            rw [isRest, tokens_word nonempty wordFree (blank d isSep), isFirst]
            rfl

theorem one_name_iff (cmdStr : List Byte) (noNul : (0 : Byte) ∉ cmdStr)
    (short : cmdStr.length ≤ 99) {fs next : FileSys} (checked : sysExec cmdStr fs = .ok true next) :
    (∃ name, OneName cmdStr name) ↔
      ∀ first, (argsOf cmdStr).head? = some first →
        (0x09 : Byte) ∉ first ∧ (0x0a : Byte) ∉ first := by
  obtain ⟨first, more, args⟩ := List.exists_cons_of_ne_nil (exec_names checked)
  constructor
  · intro same word isFirst
    obtain ⟨name, one⟩ := same
    have isName := one.checked
    rw [exec_file_name noNul, args] at isName
    have isLoaded := one.loaded
    rw [load_file_name noNul short] at isLoaded
    have nameFirst : first = name := Option.some.inj (Except.ok.inj isName)
    have wordFirst : first = word := by
      rw [args] at isFirst
      exact Option.some.inj isFirst
    rw [← wordFirst]
    apply (heads_agree_iff args).mp
    rw [nameFirst]
    exact Except.ok.inj isLoaded
  · intro clean
    have heads := (heads_agree_iff args).mpr (clean first (by rw [args]; rfl))
    refine ⟨first, ?_, ?_, ?_⟩
    · rw [exec_file_name noNul, args]
      rfl
    · rw [load_file_name noNul short, heads]
    · intro memory zeroed
      obtain ⟨last, esp, called, laid, _⟩ := arguments_are_laid_out cmdStr memory noNul short zeroed
      have some_ : 0 < (argsOf cmdStr).length := by
        rw [args]
        exact Nat.succ_pos _
      have string := laid.strings 0 some_
      have isFirst : (argsOf cmdStr)[0] = first := by
        simp only [args, List.getElem_cons_zero]
      rw [isFirst] at string
      exact ⟨last, esp, called, string⟩

/-- The check of `sys_exec` passes for the command, and `load` then succeeds. -/
def starts (cmdStr : List Byte) (system : System) : Bool :=
  match sysExec cmdStr system.fs with
  | .ok true next =>
      match load roomy cmdStr next with
      | .ok (.success _) _ => true
      | _ => false
  | _ => false

theorem starts_ok {cmdStr : List Byte} {system : System} (passes : starts cmdStr system = true) :
    ∃ next after fileToExe, sysExec cmdStr system.fs = .ok true next ∧
      load roomy cmdStr next = .ok (.success fileToExe) after := by
  unfold starts at passes
  split at passes
  · next next checked =>
    split at passes
    · next fileToExe after loaded => exact ⟨next, after, fileToExe, checked, loaded⟩
    · cases passes
  · cases passes

/-- `a x`, with an executable `a`. -/
theorem one_name_iff_a : ∃ name, OneName [0x61, 0x20, 0x78] name := by
  obtain ⟨system, _, passes⟩ := @reaches_of_check _ _ step (fun _ _ => True) _ (booted 8)
    [.extract [0x61] zeroPageProgram] (starts [0x61, 0x20, 0x78]) (by decide +kernel)
  obtain ⟨_, _, _, checked, _⟩ := starts_ok passes
  exact (one_name_iff [0x61, 0x20, 0x78] (by decide) (by decide) checked).mpr (by decide)

/-- There are executables `a` and `a<tab>b`; the command names the second, and the first is loaded. -/
theorem tab_splits_the_name :
    ∃ system next after fileToExe, Reaches step (fun _ _ => True) (booted 8) system ∧
      sysExec [0x61, 0x09, 0x62] system.fs = .ok true next ∧
      load roomy [0x61, 0x09, 0x62] next = .ok (.success fileToExe) after ∧
      execFileName [0x61, 0x09, 0x62] = .ok (some [0x61, 0x09, 0x62]) ∧
      loadFileName [0x61, 0x09, 0x62] = .ok (some [0x61]) := by
  obtain ⟨system, run, passes⟩ := @reaches_of_check _ _ step (fun _ _ => True) _ (booted 8)
    [.extract [0x61] zeroPageProgram, .extract [0x61, 0x09, 0x62] zeroPageProgram]
    (starts [0x61, 0x09, 0x62]) (by decide +kernel)
  obtain ⟨next, after, fileToExe, checked, loaded⟩ := starts_ok passes
  refine ⟨system, next, after, fileToExe, run, checked, loaded, ?_, ?_⟩
  · rw [exec_opens _ (by decide)]
    rfl
  · rw [load_opens _ (by decide) (by decide)]
    rfl

end UtSystems.Userprog.CommandNames
