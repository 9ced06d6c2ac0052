import UtSystems.Libc.DecimalRoundTrip
import UtSystems.Libc.Strings

/-!
# The kernel command line

`make_kernel_command_line` of utils/Pintos.pm writes it into the loader, and `read_command_line`,
`parse_options` and `run_actions` of threads/init.c take it apart. A script of options and actions
that fits is carried out as it was given.

The kernel is the one of this project, with user programs and file systems and without virtual
memory.
-/

namespace UtSystems.Threads.BootCommands

open Lib.Bytes
open Libc.Stdio (text isDigit)
open Libc.DecimalRoundTrip Libc.Strings

set_option autoImplicit false

abbrev Text := List Byte

inductive Halt where
  | panic (message : List Byte)
  -- an array is accessed outside of its bounds
  | overrun
  -- `ASSERT (s != NULL)` of `atoi`
  | nullString
  -- `usage`
  | poweredOff
  deriving DecidableEq, Repr

def strnlen : List Byte → Nat → Except Halt Nat
  | [], _ => .error .overrun
  | c :: string, maxlen =>
      if c ≠ 0 ∧ 0 < maxlen then do
        let length ← strnlen string (maxlen - 1)
        return length + 1
      else return 0

def readAt (memory : List Byte) (p : Nat) : Except Halt Text :=
  match readString memory p with
  | .ok string => .ok string
  | .error _ => .error .overrun

inductive ShutdownType where
  | none | powerOff | reboot
  deriving DecidableEq, Repr

structure Config where
  shutdown : ShutdownType
  formatFilesys : Bool
  filesysBdevName : Option Text
  scratchBdevName : Option Text
  -- what `random_init` has been called with last
  seed : Option Word
  threadMlfqs : Bool
  userPageLimit : Word
  deriving DecidableEq, Repr

def number (value : Option Text) : Except Halt Word :=
  match value with
  | none => throw .nullString
  | some value =>
      match atoi (value ++ [0]) with
      | .ok value => return value
      | .error _ => throw .overrun

/-- A call of one of the functions in the table of actions. -/
inductive Command where
  | run (task : Text)
  | ls
  | cat (file : Text)
  | rm (file : Text)
  | extract
  | append (file : Text)
  deriving DecidableEq, Repr

structure ActionEntry where
  name : Text
  argc : Nat
  function : List Text → Command

def actions : List ActionEntry :=
  [⟨text "run", 2, fun argv => .run (argv.getD 1 [])⟩,
    ⟨text "ls", 1, fun _ => .ls⟩,
    ⟨text "cat", 2, fun argv => .cat (argv.getD 1 [])⟩,
    ⟨text "rm", 2, fun argv => .rm (argv.getD 1 [])⟩,
    ⟨text "extract", 1, fun _ => .extract⟩,
    ⟨text "append", 2, fun argv => .append (argv.getD 1 [])⟩]

inductive Setting where
  | powerOff
  | reboot
  | format
  | filesys (name : Text)
  | scratch (name : Text)
  | seed (value : Word)
  | mlfqs
  | userPages (count : Word)

def Setting.name : Setting → Text
  | .powerOff => text "-q"
  | .reboot => text "-r"
  | .format => text "-f"
  | .filesys _ => text "-filesys"
  | .scratch _ => text "-scratch"
  | .seed _ => text "-rs"
  | .mlfqs => text "-mlfqs"
  | .userPages _ => text "-ul"

def Setting.value : Setting → Option Text
  | .filesys name => some name
  | .scratch name => some name
  | .seed value => some (decimalText value)
  | .userPages count => some (decimalText count)
  | .powerOff | .reboot | .format | .mlfqs => none

/-- `NAME` or `NAME=VALUE`. -/
def Setting.render (setting : Setting) : Text :=
  match setting.value with
  | none => setting.name
  | some value => setting.name ++ 0x3d :: value

def Setting.apply (config : Config) : Setting → Config
  | .powerOff => { config with shutdown := .powerOff }
  | .reboot => { config with shutdown := .reboot }
  | .format => { config with formatFilesys := true }
  | .filesys name => { config with filesysBdevName := some name }
  | .scratch name => { config with scratchBdevName := some name }
  | .seed value => { config with seed := some value }
  | .mlfqs => { config with threadMlfqs := true }
  | .userPages count => { config with userPageLimit := count }

/-- A value is not empty and ends at its null byte. -/
def Setting.Proper (setting : Setting) : Prop :=
  ∀ value ∈ setting.value, value ≠ [] ∧ (0 : Byte) ∉ value

def Command.render : Command → List Text
  | .run task => [text "run", task]
  | .ls => [text "ls"]
  | .cat file => [text "cat", file]
  | .rm file => [text "rm", file]
  | .extract => [text "extract"]
  | .append file => [text "append", file]

structure Script where
  settings : List Setting
  commands : List Command

def Script.render (script : Script) : List Text :=
  script.settings.map Setting.render ++ script.commands.flatMap Command.render

/-- Values can be told from names, and no argument contains a null byte. -/
structure Script.Proper (script : Script) : Prop where
  settings : ∀ setting ∈ script.settings, setting.Proper
  noNul : ∀ arg ∈ script.commands.flatMap Command.render, (0 : Byte) ∉ arg

section Reading

variable {memory junk : List Byte} {args : List Text} {p : Nat}

/-- Where the arguments begin. -/
def starts : Nat → List Text → List Nat
  | _, [] => []
  | p, arg :: args => p :: starts (p + arg.length + 1) args

end Reading

section Options

variable {config : Config} {name value : Text}

end Options

section Actions

variable {argv args : List Text} {commands : List Command} {a : ActionEntry}

end Actions

end UtSystems.Threads.BootCommands
