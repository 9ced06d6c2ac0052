import UtSystems.Lib.AddressRanges

/-!
# Formatted output

`__vprintf` of `lib/stdio.c` and the functions it is made of. A pointer into a format string is
what is left of its array from there on, and a character past the end of it cannot be read. A
`va_list` is the words that are left on the stack. Characters go to a callback.
-/

namespace UtSystems.Libc.Stdio

open Lib.Bytes Lib.AddressRanges

set_option autoImplicit false

inductive Fault where
  -- a character past the end of the format
  | overrun
  -- a store past the end of `buf`
  | buffer
  -- a loop does not come to its end
  | endless
deriving DecidableEq, Repr

def char (c : Char) : Byte := BitVec.ofNat 8 c.toNat

def text (s : String) : List Byte := s.toList.map char

/-- `flags` of `struct printf_conversion`. -/
structure Flags where
  minus : Bool
  plus : Bool
  space : Bool
  pound : Bool
  zero : Bool
  group : Bool
deriving DecidableEq, Repr

def noFlags : Flags := ⟨false, false, false, false, false, false⟩

inductive ArgType where
  | char | short | int | intmax | long | longlong | ptrdifft | sizet
deriving DecidableEq, Repr

/-- `struct printf_conversion`; the numbers are of type `int`. -/
structure Conversion where
  flags : Flags
  width : Word
  precision : Word
  type : ArgType
deriving DecidableEq, Repr

structure IntegerBase where
  base : Nat
  digits : List Byte
  /-- The `x` character, or 0. -/
  x : Byte
  group : Nat
deriving DecidableEq, Repr

def baseD : IntegerBase := ⟨10, text "0123456789", 0, 3⟩
def baseO : IntegerBase := ⟨8, text "01234567", 0, 3⟩
def baseLowX : IntegerBase := ⟨16, text "0123456789abcdef", char 'x', 4⟩
def baseX : IntegerBase := ⟨16, text "0123456789ABCDEF", char 'X', 4⟩

/-- The words that `va_arg` has not taken yet. -/
abbrev VaList := Nat → Word

def dropArgs (args : VaList) (count : Nat) : VaList := fun i => args (count + i)

/-! ## The conversion specification -/

def isDigit (c : Byte) : Bool := char '0' ≤ c && c ≤ char '9'

def flagOf (c : Byte) (flags : Flags) : Option Flags :=
  if c = char '-' then some { flags with minus := true }
  else if c = char '+' then some { flags with plus := true }
  else if c = char ' ' then some { flags with space := true }
  else if c = char '#' then some { flags with pound := true }
  else if c = char '0' then some { flags with zero := true }
  -- the apostrophe
  else if c = 0x27 then some { flags with group := true }
  else none

def parseFlags : List Byte → Flags → Except Fault (Flags × List Byte)
  | [], _ => .error .overrun
  | c :: format, flags =>
      match flagOf c flags with
      | some flags => parseFlags format flags
      | none => .ok (flags, c :: format)

def parseDigits : List Byte → Word → Except Fault (Word × List Byte)
  | [], _ => .error .overrun
  | c :: format, value =>
      if isDigit c then parseDigits format (value * 10 + c.setWidth 32 - 0x30)
      else .ok (value, c :: format)

/-- A number or `*`. -/
def parseNumber (format : List Byte) (args : VaList) : Except Fault (Word × List Byte × VaList) :=
  match format with
  | [] => .error .overrun
  | c :: rest =>
      if c = char '*' then .ok (args 0, rest, dropArgs args 1)
      else do
        let (value, format) ← parseDigits format 0
        .ok (value, format, args)

def parsePrecision (format : List Byte) (args : VaList) :
    Except Fault (Word × List Byte × VaList) :=
  match format with
  | [] => .error .overrun
  | c :: rest =>
      if c = char '.' then do
        let (precision, format, args) ← parseNumber rest args
        .ok (if precision.toInt < 0 then -1 else precision, format, args)
      else .ok (-1, format, args)

/-- A letter that stands for one type, and for another when it is doubled. -/
def parseDoubled (letter : Byte) (single double : ArgType) (format : List Byte) :
    Except Fault (ArgType × List Byte) :=
  match format with
  | [] => .error .overrun
  | c :: rest => if c = letter then .ok (double, rest) else .ok (single, format)

def parseType (format : List Byte) : Except Fault (ArgType × List Byte) :=
  match format with
  | [] => .error .overrun
  | c :: rest =>
      if c = char 'h' then parseDoubled (char 'h') .short .char rest
      else if c = char 'j' then .ok (.intmax, rest)
      else if c = char 'l' then parseDoubled (char 'l') .long .longlong rest
      else if c = char 't' then .ok (.ptrdifft, rest)
      else if c = char 'z' then .ok (.sizet, rest)
      else .ok (.int, format)

/-- The conversion, its last character with what follows it, and the arguments that are left. -/
def parseConversion (format : List Byte) (args : VaList) :
    Except Fault (Conversion × List Byte × VaList) := do
  let (flags, format) ← parseFlags format noFlags
  let flags := if flags.minus then { flags with zero := false } else flags
  let flags := if flags.plus then { flags with space := false } else flags
  let (width, format, args) ← parseNumber format args
  let (width, flags) :=
    if width.toInt < 0 then (-width, { flags with minus := true }) else (width, flags)
  let (precision, format, args) ← parsePrecision format args
  let flags := if 0 ≤ precision.toInt then { flags with zero := false } else flags
  let (type, format) ← parseType format
  .ok (⟨flags, width, precision, type⟩, format, args)

/-! ## Output -/

section Output

variable {σ : Type} (output : Byte → σ → σ)

def outputDup (ch : Byte) : Nat → σ → σ
  | 0, aux => aux
  | cnt + 1, aux => outputDup ch cnt (output ch aux)

def outputAll : List Byte → σ → σ
  | [], aux => aux
  | ch :: rest, aux => outputAll rest (output ch aux)

/-- The buffer of `format_integer`, the last character stored first. -/
def store (ch : Byte) (buf : List Byte) : Except Fault (List Byte) :=
  if buf.length < 64 then .ok (ch :: buf) else .error .buffer

def storeDigits (b : IntegerBase) (group : Bool) :
    Nat → Nat → Nat → List Byte → Except Fault (List Byte)
  | 0, _, _, _ => .error .endless
  | fuel + 1, value, digitCnt, buf =>
      if value > 0 then do
        let buf ← if group ∧ digitCnt > 0 ∧ digitCnt % b.group = 0 then store (char ',') buf
          else .ok buf
        let buf ← store (b.digits.getD (value % b.base) 0) buf
        storeDigits b group fuel (value / b.base) (digitCnt + 1) buf
      else .ok buf

/-- Zeros, as long as there is room before the last place of the buffer. -/
def storeZeros (precision : Word) : Nat → List Byte → Except Fault (List Byte)
  | 0, buf => .ok buf
  | room + 1, buf =>
      if (buf.length : Int) < precision.toInt then do
        let buf ← store (char '0') buf
        storeZeros precision room buf
      else .ok buf

/-- The zero an octal number starts with. -/
def storeLeading (b : IntegerBase) (pound : Bool) (buf : List Byte) : Except Fault (List Byte) :=
  if pound ∧ b.base = 8 ∧ buf.head? ≠ some (char '0') then store (char '0') buf else .ok buf

def signOf (isSigned negative : Bool) (flags : Flags) : Byte :=
  if isSigned then
    if flags.plus then if negative then char '-' else char '+'
    else if flags.space then if negative then char '-' else char ' '
    else if negative then char '-'
    else 0
  else 0

def formatInteger (value : BitVec 64) (isSigned negative : Bool) (b : IntegerBase) (c : Conversion)
    (aux : σ) : Except Fault σ := do
  let sign := signOf isSigned negative c.flags
  let x := if c.flags.pound ∧ value ≠ 0 then b.x else 0
  let buf ← storeDigits b c.flags.group 65 value.toNat 0 []
  let precision := if c.precision.toInt < 0 then 1 else c.precision
  let buf ← storeZeros precision (63 - buf.length) buf
  let buf ← storeLeading b c.flags.pound buf
  let padCnt := c.width - BitVec.ofNat 32 buf.length - (if x ≠ 0 then 2 else 0) -
    (if sign ≠ 0 then 1 else 0)
  let padCnt := if padCnt.toInt < 0 then 0 else padCnt
  let aux := if ¬(c.flags.minus ∨ c.flags.zero) then outputDup output (char ' ') padCnt.toNat aux
    else aux
  let aux := if sign ≠ 0 then output sign aux else aux
  let aux := if x ≠ 0 then output x (output (char '0') aux) else aux
  let aux := if c.flags.zero then outputDup output (char '0') padCnt.toNat aux else aux
  let aux := outputAll output buf aux
  .ok (if c.flags.minus then outputDup output (char ' ') padCnt.toNat aux else aux)

/-- `length` is of type `int`. -/
def formatString (string : Nat → Byte) (length : Word) (c : Conversion) (aux : σ) : σ :=
  let aux := if c.width.toInt > length.toInt ∧ ¬c.flags.minus then
    outputDup output (char ' ') (c.width - length).toNat aux else aux
  let aux := outputAll output ((List.range length.toInt.toNat).map string) aux
  if c.width.toInt > length.toInt ∧ c.flags.minus then
    outputDup output (char ' ') (c.width - length).toNat aux else aux

end Output

/-! ## Arguments -/

/-- Two words, the low one first. -/
def wideArg (args : VaList) : BitVec 64 := args 1 ++ args 0

def signedArg (args : VaList) : ArgType → BitVec 64 × VaList
  | .char => (((args 0).setWidth 8).signExtend 64, dropArgs args 1)
  | .short => (((args 0).setWidth 16).signExtend 64, dropArgs args 1)
  | .int | .long | .ptrdifft => ((args 0).signExtend 64, dropArgs args 1)
  | .intmax | .longlong => (wideArg args, dropArgs args 2)
  | .sizet =>
      let value := (args 0).setWidth 64
      (if value > 4294967295 / 2 then value - 4294967295 - 1 else value, dropArgs args 1)

def unsignedArg (args : VaList) : ArgType → BitVec 64 × VaList
  | .char => (((args 0).setWidth 8).setWidth 64, dropArgs args 1)
  | .short => (((args 0).setWidth 16).setWidth 64, dropArgs args 1)
  | .int | .long | .sizet => ((args 0).setWidth 64, dropArgs args 1)
  | .intmax | .longlong => (wideArg args, dropArgs args 2)
  | .ptrdifft => ((args 0).signExtend 64 &&& (2147483647 <<< 1 ||| 1), dropArgs args 1)

def unsignedBase (ch : Byte) : Option IntegerBase :=
  if ch = char 'o' then some baseO
  else if ch = char 'u' then some baseD
  else if ch = char 'x' then some baseLowX
  else if ch = char 'X' then some baseX
  else none

/-- The characters a string argument points to. -/
def stringAt (memory : Memory) (s : Addr) : Nat → Byte :=
  if s = 0 then fun i => (text "(null)").getD i 0 else fun i => memory (offset s i)

/-- How many characters of a string there are, at most `maxlen` more than `length`. -/
def strnlen (string : Nat → Byte) : Nat → Nat → Nat
  | 0, length => length
  | maxlen + 1, length => if string length ≠ 0 then strnlen string maxlen (length + 1) else length

/-! ## `__vprintf` -/

section Vprintf

variable {σ : Type} (memory : Memory) (output : Byte → σ → σ)

def noKernel : List Byte := text "<<no %%%c in kernel>>" ++ [0]
def noConversion : List Byte := text "<<no %%%c conversion>>" ++ [0]

/-- What is done for the last character of a conversion. `printf` is the function itself. -/
def convert (printf : List Byte → VaList → σ → Except Fault σ) (ch : Byte) (c : Conversion)
    (args : VaList) (aux : σ) : Except Fault (VaList × σ) :=
  if ch = char 'd' ∨ ch = char 'i' then do
    let (value, args) := signedArg args c.type
    let negative := value.toInt < 0
    return (args, ← formatInteger output (if negative then -value else value) true negative baseD c
      aux)
  else match unsignedBase ch with
  | some b => do
      let (value, args) := unsignedArg args c.type
      return (args, ← formatInteger output value false false b c aux)
  | none =>
      if ch = char 'c' then
        let one := (args 0).setWidth 8
        .ok (dropArgs args 1, formatString output (fun _ => one) 1 c aux)
      else if ch = char 's' then
        let string := stringAt memory (args 0)
        .ok (dropArgs args 1, formatString output string
          (BitVec.ofNat 32 (strnlen string c.precision.toNat 0)) c aux)
      else if ch = char 'p' then do
        let pointer := { c with flags := { noFlags with pound := true } }
        return (dropArgs args 1,
          ← formatInteger output ((args 0).setWidth 64) false false baseLowX pointer aux)
      else
        let message := if (text "feEgGn").contains ch then noKernel else noConversion
        do return (args, ← printf message (fun _ => ch.signExtend 32) aux)

def vprintf : Nat → List Byte → VaList → σ → Except Fault σ
  | 0, _, _, _ => .error .endless
  | _ + 1, [], _, _ => .error .overrun
  | fuel + 1, ch :: format, args, aux =>
      if ch = 0 then .ok aux
      else if ch ≠ char '%' then vprintf fuel format args (output ch aux)
      else
        match format with
        | [] => .error .overrun
        | next :: rest =>
            if next = char '%' then vprintf fuel rest args (output next aux)
            else do
              let (c, format, args) ← parseConversion (next :: rest) args
              match format with
              | [] => .error .overrun
              | ch :: format =>
                  let (args, aux) ← convert memory output (vprintf fuel) ch c args aux
                  vprintf fuel format args aux

variable {memory output} {fuel : Nat} {ch next : Byte} {format rest : List Byte} {args left : VaList}
  {aux : σ} {c : Conversion}

theorem vprintf_nul : vprintf memory output (fuel + 1) (0 :: format) args aux = .ok aux := rfl

theorem vprintf_plain (other : ch ≠ 0) (plain : ch ≠ char '%') :
    vprintf memory output (fuel + 1) (ch :: format) args aux =
      vprintf memory output fuel format args (output ch aux) := by
  rw [vprintf.eq_def]
  simp only [if_neg other, if_pos plain]

theorem vprintf_percent :
    vprintf memory output (fuel + 1) (char '%' :: char '%' :: rest) args aux =
      vprintf memory output fuel rest args (output (char '%') aux) := rfl

theorem vprintf_unparsed {fault : Fault} (other : next ≠ char '%')
    (parsed : parseConversion (next :: rest) args = .error fault) :
    vprintf memory output (fuel + 1) (char '%' :: next :: rest) args aux = .error fault := by
  rw [vprintf.eq_def]
  simp only [if_neg (show char '%' ≠ 0 by decide), ne_eq, not_true_eq_false, if_false, if_neg other,
    parsed]
  rfl

theorem vprintf_cut (other : next ≠ char '%')
    (parsed : parseConversion (next :: rest) args = .ok (c, [], left)) :
    vprintf memory output (fuel + 1) (char '%' :: next :: rest) args aux = .error .overrun := by
  rw [vprintf.eq_def]
  simp only [if_neg (show char '%' ≠ 0 by decide), ne_eq, not_true_eq_false, if_false, if_neg other,
    parsed]
  rfl

theorem vprintf_parsed (other : next ≠ char '%')
    (parsed : parseConversion (next :: rest) args = .ok (c, ch :: format, left)) :
    vprintf memory output (fuel + 1) (char '%' :: next :: rest) args aux =
      (convert memory output (vprintf memory output fuel) ch c left aux >>= fun done =>
        vprintf memory output fuel format done.1 done.2) := by
  rw [vprintf.eq_def]
  simp only [if_neg (show char '%' ≠ 0 by decide), ne_eq, not_true_eq_false, if_false, if_neg other,
    parsed]
  rfl

end Vprintf

/-! ## `vsnprintf` -/

/-- `struct vsnprintf_aux`; `p` is the place in the buffer, the lengths are of type `int`. -/
structure Aux where
  buffer : Nat → Byte
  p : Nat
  length : Word
  maxLength : Word

def vsnprintfHelper (ch : Byte) (aux : Aux) : Aux :=
  if aux.length.toInt < aux.maxLength.toInt then
    { aux with
      buffer := Function.update aux.buffer aux.p ch
      p := aux.p + 1
      length := aux.length + 1 }
  else { aux with length := aux.length + 1 }

/-- The buffer and the value returned. -/
def vsnprintf (memory : Memory) (fuel : Nat) (buffer : Nat → Byte) (bufSize : Word)
    (format : List Byte) (args : VaList) : Except Fault ((Nat → Byte) × Word) := do
  let aux ← vprintf memory vsnprintfHelper fuel format args
    ⟨buffer, 0, 0, if bufSize > 0 then bufSize - 1 else 0⟩
  let buffer := if bufSize > 0 then Function.update aux.buffer aux.p 0 else aux.buffer
  return (buffer, aux.length)

end UtSystems.Libc.Stdio
