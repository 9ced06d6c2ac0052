import UtSystems.Lib.Bytes

/-!
# The executable's headers

What `load` reads off the bytes of an `Elf32_Ehdr` and of an `Elf32_Phdr`, and the name of the
file in a command.
-/

namespace UtSystems.Userprog.Elf

open Lib.Bytes

set_option autoImplicit false

def pgSize : Nat := 4096
def physBase : Nat := 0xC0000000

/-- The first token that `strtok_r` returns. -/
def strtok (delimiters : List Byte) (text : List Byte) : Option (List Byte) :=
  match text.dropWhile (· ∈ delimiters) with
  | [] => none
  | first :: rest => some ((first :: rest).takeWhile (· ∉ delimiters))

def wordAt (bytes : List Byte) (offset : Nat) : Nat := (readWord (bytes.drop offset)).toNat

def halfAt (bytes : List Byte) (offset : Nat) : Nat := wordAt bytes offset % 2 ^ 16

/-- The checks of the `Elf32_Ehdr` that was read. -/
def ehdrOk (ehdr : List Byte) : Bool :=
  ehdr.length = 52 && ehdr.take 7 = [0x7f, 0x45, 0x4c, 0x46, 1, 1, 1] && halfAt ehdr 16 = 2 &&
    halfAt ehdr 18 = 3 && wordAt ehdr 20 = 1 && halfAt ehdr 42 = 32 && halfAt ehdr 44 ≤ 1024

def ePhoff (ehdr : List Byte) : Nat := wordAt ehdr 28

def ePhnum (ehdr : List Byte) : Nat := halfAt ehdr 44

/-- `validate_segment` of the `Elf32_Phdr` that was read from a file of this length. -/
def validateSegment (fileLength : Nat) (phdr : List Byte) : Bool :=
  let offset := wordAt phdr 4
  let vaddr := wordAt phdr 8
  let filesz := wordAt phdr 16
  let memsz := wordAt phdr 20
  offset % pgSize = vaddr % pgSize && offset ≤ fileLength && filesz ≤ memsz && memsz ≠ 0 &&
    vaddr < physBase && (vaddr + memsz) % 2 ^ 32 < physBase && vaddr ≤ (vaddr + memsz) % 2 ^ 32 &&
    pgSize ≤ vaddr

def roundUp (x : Nat) : Nat := (x + pgSize - 1) / pgSize * pgSize

/-- The arguments of `load_segment`; the address of the first page is given by its number. -/
structure Segment where
  ofs : Nat
  upage : Nat
  readBytes : Nat
  zeroBytes : Nat
  deriving DecidableEq, Repr

def segmentOf (phdr : List Byte) : Segment :=
  let pageOffset := wordAt phdr 8 % pgSize
  let filesz := wordAt phdr 16
  let memsz := wordAt phdr 20
  { ofs := wordAt phdr 4 / pgSize * pgSize
    upage := wordAt phdr 8 / pgSize
    readBytes := if 0 < filesz then pageOffset + filesz else 0
    zeroBytes := if 0 < filesz then roundUp (pageOffset + memsz) - (pageOffset + filesz)
      else roundUp (pageOffset + memsz) }

/-- What `load` does with a program header. -/
inductive Treatment where
  | ignore
  | reject
  | load (segment : Segment)
  deriving DecidableEq, Repr

def treatment (fileLength : Nat) (phdr : List Byte) : Treatment :=
  match wordAt phdr 0 with
  | 1 => if validateSegment fileLength phdr then .load (segmentOf phdr) else .reject
  -- PT_DYNAMIC, PT_INTERP and PT_SHLIB
  | 2 | 3 | 5 => .reject
  | _ => .ignore

/-- An executable with one page of zeroes. -/
def zeroPageProgram : List Byte :=
  [0x7f, 0x45, 0x4c, 0x46, 1, 1, 1, 0, 0, 0, 0, 0, 0, 0, 0, 0, 2, 0, 3, 0, 1, 0, 0, 0, 0, 0x80, 4, 8,
    52, 0, 0, 0, 0, 0, 0, 0, 0, 0, 0, 0, 52, 0, 32, 0, 1, 0, 0, 0, 0, 0, 0, 0,
    1, 0, 0, 0, 0, 0, 0, 0, 0, 0x80, 4, 8, 0, 0, 0, 0, 0, 0, 0, 0, 0, 0x10, 0, 0, 5, 0, 0, 0, 0, 0x10, 0, 0]

end UtSystems.Userprog.Elf
