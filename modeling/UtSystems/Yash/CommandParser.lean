import Mathlib.Logic.Function.Basic
import UtSystems.Lib.Tokens
import UtSystems.Lib.Traces
import UtSystems.Libc.Strings
import UtSystems.Yash.JobManager
import UtSystems.Yash.ReadLine

/-!
# The parser of the stand-alone shell

`parse_commander` and `parse_segment_commander`. What they do with the array `tokens` and with the
strings in it is a trace: a slot is read that was filled or not, a function of `string.h` is called
with a pointer, an element of an array is written that the array has or not. Such a call with
something else than a string is the end; a write behind the end of an array is lost.
-/

namespace UtSystems.Yash.CommandParser

open Lib.Bytes Lib.Tokens Lib.Traces Libc.Strings Yash.JobManager Yash.ReadLine

set_option autoImplicit false

def tokenBufsize : Nat := 64

/-- `" \t\r\n\a"` -/
def tokenDelimiters : List Byte := [0x20, 0x09, 0x0d, 0x0a, 0x07]

abbrev Text : Type := List Byte

/-- What `strtok` gives one after the other. -/
def words (segment : Text) : List Text := tokens (separates tokenDelimiters) segment

/-- A pointer, also one that was never written. -/
inductive Slot where
  | unfilled
  | null
  | text (word : Text)
deriving DecidableEq

inductive Access where
  -- a slot of `tokens` is read that has this in it
  | read (slot : Slot)
  -- `strcmp`, `strlen` or `strcpy` gets this pointer
  | string (pointer : Slot)
  | write (index size : Nat)

abbrev Parse : Type → Type := Traced Access

/-- `tokens`, with the slots for which there is memory. -/
structure Tokens where
  bufsize : Nat
  slot : Nat → Slot

def Tokens.start : Tokens := { bufsize := tokenBufsize, slot := fun _ => .unfilled }

def Tokens.put (tokens : Tokens) (i : Nat) (slot : Slot) : Parse Tokens := do
  note (.write i tokens.bufsize)
  return { tokens with slot := Function.update tokens.slot i slot }

def string : Slot → Parse Text
  | .text word => do
      note (.string (.text word))
      return word
  | pointer => do
      note (.string pointer)
      stop

/-- The string of `tokens[i]`. -/
def stringAt (tokens : Tokens) (i : Nat) : Parse Text := do
  note (.read (tokens.slot i))
  string (tokens.slot i)

/-! ## parse_segment_commander -/

/-- The first loop: the words, where those with `*` or `?` are the paths that `glob` finds. -/
def storeAll (tokens : Tokens) (position : Nat) : List Text → Parse (Tokens × Nat)
  | [] => return (tokens, position)
  | path :: rest => do
      let tokens ← tokens.put position (.text path)
      storeAll tokens (position + 1) rest

def isPattern (token : Text) : Bool := token.contains 0x2a || token.contains 0x3f

def globPaths (glob : Text → List Text) (token : Text) : List Text :=
  if isPattern token then glob token else []

def storeTokens (glob : Text → List Text) (tokens : Tokens) (position : Nat) :
    List Text → Parse (Tokens × Nat)
  | [] => return (tokens, position)
  | token :: rest => do
      let paths := globPaths glob token
      let tokens :=
        if tokens.bufsize ≤ position + paths.length then
          { tokens with bufsize := tokens.bufsize + tokenBufsize + paths.length }
        else tokens
      if 0 < paths.length then
        let (tokens, position) ← storeAll tokens position paths
        storeTokens glob tokens position rest
      else
        let tokens ← tokens.put position (.text token)
        storeTokens glob tokens (position + 1) rest

/-- The operators, by what they redirect. -/
inductive Operator where
  | input
  | output
  | error
deriving DecidableEq

def Operator.text : Operator → Text
  | .input => [0x3c]
  | .output => [0x3e]
  | .error => [0x32, 0x3e]

/-- `strcmp (tokens[i], ..) == 0` -/
def equals (tokens : Tokens) (i : Nat) (op : Operator) : Parse Bool := do
  let word ← stringAt tokens i
  return word = op.text

/-- The loop that looks for the first operator, for at most so many rounds. -/
def findOperator (tokens : Tokens) (position : Nat) : Nat → Nat → Parse Nat
  | 0, i => return i
  | rounds + 1, i =>
      if i < position then do
        if ← equals tokens i .output then return i
        else if ← equals tokens i .input then return i
        else if ← equals tokens i .error then return i
        else findOperator tokens position rounds (i + 1)
      else return i

structure Paths where
  input : Option Text
  output : Option Text
  error : Option Text
deriving DecidableEq

def Paths.none : Paths := { input := .none, output := .none, error := .none }

def Paths.set (paths : Paths) (path : Text) : Operator → Paths
  | .input => { paths with input := some path }
  | .output => { paths with output := some path }
  | .error => { paths with error := some path }

/-- What the three branches of the loop do when `tokens[i]` is the operator: the copied path, and
`i`. -/
def copyPath (tokens : Tokens) (i : Nat) (op : Operator) : Parse (Text × Nat) := do
  let word ← stringAt tokens i
  if word.length = op.text.length then
    -- `strlen`, then `strcpy`
    let _ ← stringAt tokens (i + 1)
    let path ← stringAt tokens (i + 1)
    return (path, i + 1)
  else
    let _ ← stringAt tokens i
    let word ← stringAt tokens i
    return (word.drop 1, i)

/-- The loop over the redirections, for at most so many rounds. -/
def redirect (tokens : Tokens) (position : Nat) : Nat → Nat → Paths → Parse Paths
  | 0, _, paths => return paths
  | rounds + 1, i, paths =>
      if i < position then do
        if ← equals tokens i .input then
          let (path, i) ← copyPath tokens i .input
          redirect tokens position rounds (i + 1) (paths.set path .input)
        else if ← equals tokens i .output then
          let (path, i) ← copyPath tokens i .output
          redirect tokens position rounds (i + 1) (paths.set path .output)
        else if ← equals tokens i .error then
          let (path, i) ← copyPath tokens i .error
          redirect tokens position rounds (i + 1) (paths.set path .error)
        else return paths
      else return paths

/-- `for (i = argc; i <= position; i++) tokens[i] = NULL;`, with the number of rounds. -/
def clear (tokens : Tokens) : Nat → Nat → Parse Tokens
  | 0, _ => return tokens
  | rounds + 1, i => do
      let tokens ← tokens.put i .null
      clear tokens rounds (i + 1)

def getProcessType (command : Slot) : Parse CommandType := do
  if (← string command) = [0x6a, 0x6f, 0x62, 0x73] then return .jobs
  else if (← string command) = [0x66, 0x67] then return .fg
  else if (← string command) = [0x62, 0x67] then return .bg
  else return .external

/-- Its pid is -1, and its status is not set. -/
structure Process where
  command : Text
  argc : Nat
  argv : Tokens
  inputPath : Option Text
  outputPath : Option Text
  errorPath : Option Text
  type : CommandType

def parseSegmentCommander (glob : Text → List Text) (segment : Text) : Parse Process := do
  let (tokens, position) ← storeTokens glob .start 0 (words segment)
  let argc ← findOperator tokens position position 0
  let paths ← redirect tokens position position argc .none
  let tokens ← clear tokens (position + 1 - argc) argc
  note (.read (tokens.slot 0))
  let type ← getProcessType (tokens.slot 0)
  return {
    command := segment
    argc := argc
    argv := tokens
    inputPath := paths.input
    outputPath := paths.output
    errorPath := paths.error
    type := type }

/-! ## parse_commander -/

/-- The loop over the line, for at most so many rounds: `line_cursor` and `c` are what stands there,
and `seg` is a copy of the first `seg_len` characters at `line_cursor`. -/
def parseSegments (glob : Text → List Text) : Nat → Text → Nat → Text → Parse (List Process)
  | 0, _, _, _ => stop
  | _ + 1, lineCursor, segLen, [] => do
      let proc ← parseSegmentCommander glob (lineCursor.take segLen)
      return [proc]
  | rounds + 1, lineCursor, segLen, char :: c =>
      if char = 0x7c then do
        let proc ← parseSegmentCommander glob (lineCursor.take segLen)
        let lineCursor := c.dropWhile isBlank
        let rest ← parseSegments glob rounds lineCursor 0 lineCursor
        return proc :: rest
      else parseSegments glob rounds lineCursor (segLen + 1) c

/-- Its pgid is -1 and its `bgcommand` goes with its mode. -/
structure Job where
  processes : List Process
  command : Text
  mode : Mode

def parseCommander (glob : Text → List Text) (line : List Byte) : Parse Job :=
  match helperStrtrim line with
  | none => stop
  | some trim => do
      note (.write trim.written line.length)
      let text := trim.text
      -- `line[strlen (line) - 1]`
      if trim.head + text.length = 0 then stop
      else
        let isBackground : Bool := trim.line[trim.head + text.length - 1]? = some 0x26
        let mode : Mode := if isBackground then .background else .foreground
        let active := if isBackground then text.dropLast else text
        let processes ← parseSegments glob (active.length + 1) active 0 active
        return { processes := processes, command := text, mode := mode }

end UtSystems.Yash.CommandParser
