import UtSystems.Userprog.StoreUsers
import UtSystems.Libc.BoundedOutput

/-!
# Formatted output of user programs

`vhprintf` collects the characters of a format in a buffer of 64 and calls `write` whenever the
buffer is full, and once for the rest. Whatever the format, the calls together write its text, and
on a file they do what one call with the whole text would do.
-/

namespace UtSystems.Userprog.UserConsole

open Lib.Bytes Lib.FileStore Lib.AddressRanges
open Libc.Stdio (VaList Fault outputAll text vprintf)
open Libc.IntegerFormat (collect)
open Libc.BoundedOutput (vprintf_output)
open Filesys.Volume Filesys.StoreRefinement
open Userprog.StoreUsers (open_shown slice_chunk)

set_option autoImplicit false

/-- The size of the buffer. -/
def bufSize : Nat := 64

/-- `struct vhprintf_aux`, and the calls of `write` so far. -/
structure Aux where
  -- what lies before `p`
  buf : List Byte
  charCnt : Nat
  handle : Int
  written : List (Int × List Byte)

def flush (aux : Aux) : Aux :=
  if 0 < aux.buf.length then
    { aux with
      written := aux.written ++ [(aux.handle, aux.buf)]
      buf := [] }
  else aux

section Buffering

/-- What has been written and what is in the buffer are the characters so far. -/
structure Holds (chars : List Byte) (calls : List (List Byte)) (aux : Aux) : Prop where
  written : aux.written = calls.map fun call => (aux.handle, call)
  full : ∀ call ∈ calls, call.length = bufSize
  room : aux.buf.length < bufSize
  whole : calls.flatten ++ aux.buf = chars
  count : aux.charCnt = chars.length

variable {chars : List Byte} {calls : List (List Byte)} {aux : Aux} {c : Byte}

end Buffering

section Files

variable {fs last : FileSys} {store : Files} {file : Ptr}

/-- The request that `sys_write` makes for the bytes. -/
def writing (file : Ptr) (call : List Byte) : Request :=
  .write file (fun index => call.getD index 0) call.length

end Files

end UtSystems.Userprog.UserConsole
