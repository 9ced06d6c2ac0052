import UtSystems.Libc.Strings
import UtSystems.Yashd.Framing

/-!
# parse_line_to_cmd of yashd

The two scans of `strtok_r` work on the same array `lineCpy`: the one for `|` cuts a piece off, and
the one for blanks cuts it up. An access outside of an array ends the computation, and so does
`strcpy` from a null pointer. What a piece comes to depends on its words alone.
-/

namespace UtSystems.Yashd.CommandLine

open Lib.Bytes Lib.Tokens Libc.Strings Yashd.Framing

set_option autoImplicit false

def maxNumArgs : Nat := 30

def maxTokenSize : Nat := 30

def maxPipeSize : Nat := 2

/-- `inputString` and `activeString` have this size. -/
def stringSize : Nat := 2001

/-- The operators, by the stream that they redirect. -/
inductive Redirect where
  | stdErr
  | stdOut
  | stdIn
deriving DecidableEq

structure SSoloCommandInfo where
  isStdErrRedirect : Bool
  isStdOutRedirect : Bool
  isStdInRedirect : Bool
  argv : List (List Byte)
  argvSize : Nat
  stdErrRedirectFileStr : List Byte
  stdOutRedirectFileStr : List Byte
  stdInRedirectFileStr : List Byte
deriving DecidableEq

structure SCommandDetail where
  isBackground : Bool
  inputString : List Byte
  activeString : List Byte
  cmdMatrix : List SSoloCommandInfo
deriving DecidableEq

/-- `{0}`. -/
def SSoloCommandInfo.zeroed : SSoloCommandInfo where
  isStdErrRedirect := false
  isStdOutRedirect := false
  isStdInRedirect := false
  argv := List.replicate (maxNumArgs + 1) (List.replicate (maxTokenSize + 1) 0)
  argvSize := 0
  stdErrRedirectFileStr := List.replicate (maxTokenSize + 1) 0
  stdOutRedirectFileStr := List.replicate (maxTokenSize + 1) 0
  stdInRedirectFileStr := List.replicate (maxTokenSize + 1) 0

def SCommandDetail.zeroed : SCommandDetail where
  isBackground := false
  inputString := List.replicate stringSize 0
  activeString := List.replicate stringSize 0
  cmdMatrix := List.replicate maxPipeSize .zeroed

def SSoloCommandInfo.flag (info : SSoloCommandInfo) : Redirect → Bool
  | .stdErr => info.isStdErrRedirect
  | .stdOut => info.isStdOutRedirect
  | .stdIn => info.isStdInRedirect

def SSoloCommandInfo.file (info : SSoloCommandInfo) : Redirect → List Byte
  | .stdErr => info.stdErrRedirectFileStr
  | .stdOut => info.stdOutRedirectFileStr
  | .stdIn => info.stdInRedirectFileStr

def SSoloCommandInfo.redirect (info : SSoloCommandInfo) (file : List Byte) :
    Redirect → SSoloCommandInfo
  | .stdErr => { info with stdErrRedirectFileStr := file, isStdErrRedirect := true }
  | .stdOut => { info with stdOutRedirectFileStr := file, isStdOutRedirect := true }
  | .stdIn => { info with stdInRedirectFileStr := file, isStdInRedirect := true }

/-- Which of `2>`, `>` and `<` the token is. -/
def operator (token : List Byte) : Option Redirect :=
  if token = [50, 62] then some .stdErr
  else if token = [62] then some .stdOut
  else if token = [60] then some .stdIn
  else none

/-- Into the array `dst`, from the string of a token or from the null pointer. -/
def strcpy (dst : List Byte) : Option (List Byte) → Except Fault (List Byte)
  | none => .error .null
  | some src => if dst.length ≤ src.length then .error .overrun else .ok (splice dst 0 (src ++ [0]))

def strncpy (dst src : List Byte) (n : Nat) : Except Fault (List Byte) :=
  if dst.length < n then .error .overrun
  else .ok (splice dst 0 (src.take n ++ List.replicate (n - src.length) 0))

def copyFile (info : SSoloCommandInfo) (op : Redirect) (src : Option (List Byte)) :
    Except Fault SSoloCommandInfo := do
  let file ← strcpy (info.file op) src
  .ok (info.redirect file op)

def addArgument (info : SSoloCommandInfo) (token : List Byte) : Except Fault SSoloCommandInfo :=
  match info.argv[info.argvSize - 1]? with
  | none => .error .overrun
  | some row => do
      let row ← strncpy row token maxTokenSize
      .ok { info with
        argv := info.argv.set (info.argvSize - 1) row
        argvSize := info.argvSize + 1 }

def readToken (buf : List Byte) : Option Nat → Except Fault (Option (List Byte))
  | none => .ok none
  | some token => do
      let text ← readString buf token
      .ok (some text)

/-- The inner loop, for at most so many rounds. -/
def parseWords : Nat → SSoloCommandInfo → List Byte → Option Nat → Nat →
    Except Fault (SSoloCommandInfo × List Byte)
  | _, info, lineCpy, none, _ => .ok (info, lineCpy)
  | 0, _, _, some _, _ => .error .endless
  | rounds + 1, info, lineCpy, some tokenCmd, cmdStr => do
      let token ← readString lineCpy tokenCmd
      match operator token with
      | some op => do
          let (target, lineCpy, cmdStr) ← strtokR [0x20] lineCpy cmdStr
          let src ← readToken lineCpy target
          let info ← copyFile info op src
          let (tokenCmd, lineCpy, cmdStr) ← strtokR [0x20] lineCpy cmdStr
          parseWords rounds info lineCpy tokenCmd cmdStr
      | none => do
          let info ← addArgument info token
          let (tokenCmd, lineCpy, cmdStr) ← strtokR [0x20] lineCpy cmdStr
          parseWords rounds info lineCpy tokenCmd cmdStr

/-- The outer loop, for at most so many rounds. -/
def parsePieces : Nat → List SSoloCommandInfo → Nat → List Byte → Option Nat → Nat →
    Except Fault (List SSoloCommandInfo)
  | _, cmdMatrix, _, _, none, _ => .ok cmdMatrix
  | 0, _, _, _, some _, _ => .error .endless
  | rounds + 1, cmdMatrix, cmdIndex, lineCpy, some tokenPipe, pipeStr =>
      match cmdMatrix[cmdIndex]? with
      | none => .error .overrun
      | some info => do
          let (tokenCmd, lineCpy, cmdStr) ← strtokR [0x20] lineCpy tokenPipe
          let (info, lineCpy) ← parseWords lineCpy.length { info with argvSize := 1 } lineCpy
            tokenCmd cmdStr
          let (tokenPipe, lineCpy, pipeStr) ← strtokR [0x7c] lineCpy pipeStr
          parsePieces rounds (cmdMatrix.set cmdIndex info) (cmdIndex + 1) lineCpy tokenPipe pipeStr

def parseScans (cmdMatrix : List SSoloCommandInfo) (lineCpy : List Byte) :
    Except Fault (List SSoloCommandInfo) := do
  let (tokenPipe, lineCpy, pipeStr) ← strtokR [0x7c] lineCpy 0
  parsePieces lineCpy.length cmdMatrix 0 lineCpy tokenPipe pipeStr

/-- `memcpy` of the whole of `lineCpy` into an array of the record. -/
def copyLine (dst lineCpy : List Byte) : Except Fault (List Byte) :=
  if dst.length < lineCpy.length then .error .overrun else .ok (splice dst 0 lineCpy)

/-- `line` are the `charNum` bytes that are copied. -/
def parseLineToCmd (cmdInfo : SCommandDetail) (line : List Byte) : Except Fault SCommandDetail :=
  let charNum := line.length
  -- `lineCpy[charNum - 1] = 0`
  if charNum = 0 then .error .overrun
  else do
    let lineCpy := line.set (charNum - 1) 0
    let inputString ← copyLine cmdInfo.inputString lineCpy
    -- `lineCpy[charNum - 2]`
    if charNum = 1 then .error .overrun
    else do
      let background : Bool := lineCpy.getD (charNum - 2) 0 = 0x26
      let lineCpy := if background then lineCpy.set (charNum - 2) 0 else lineCpy
      let activeString ← copyLine cmdInfo.activeString lineCpy
      let cmdMatrix ← parseScans cmdInfo.cmdMatrix lineCpy
      .ok {
        isBackground := background || cmdInfo.isBackground
        inputString := inputString
        activeString := activeString
        cmdMatrix := cmdMatrix }

/-- `parse_line_to_cmd (&cmdInfo, buf, strlen (buf))` for a zeroed record. -/
def yashdHandleCmd (buf : List Byte) : Except Fault SCommandDetail :=
  parseLineToCmd .zeroed (cString buf)

/-! ## What the words of a piece mean -/

inductive Item where
  | argument (word : List Byte)
  -- no target: the operator is the last word
  | redirection (op : Redirect) (target : Option (List Byte))
deriving DecidableEq

/-- The word behind an operator is its target, whatever it is. -/
def items : List (List Byte) → List Item
  | [] => []
  | [word] =>
      match operator word with
      | none => [.argument word]
      | some op => [.redirection op none]
  | word :: target :: rest =>
      match operator word with
      | none => .argument word :: items (target :: rest)
      | some op => .redirection op (some target) :: items rest

def storeItem (info : SSoloCommandInfo) : Item → Except Fault SSoloCommandInfo
  | .argument word => addArgument info word
  | .redirection op target => copyFile info op target

def storeItems : SSoloCommandInfo → List Item → Except Fault SSoloCommandInfo
  | info, [] => .ok info
  | info, item :: rest => do
      let info ← storeItem info item
      storeItems info rest

/-- The maximal pieces without `|`. -/
def pieces (text : List Byte) : List (List Byte) := tokens (separates [0x7c]) text

def words (piece : List Byte) : List (List Byte) := tokens (separates [0x20]) piece

def storePieces : List SSoloCommandInfo → Nat → List (List Byte) →
    Except Fault (List SSoloCommandInfo)
  | cmdMatrix, _, [] => .ok cmdMatrix
  | cmdMatrix, cmdIndex, piece :: rest =>
      match cmdMatrix[cmdIndex]? with
      | none => .error .overrun
      | some info => do
          let info ← storeItems { info with argvSize := 1 } (items (words piece))
          storePieces (cmdMatrix.set cmdIndex info) (cmdIndex + 1) rest

theorem items_argument {word : List Byte} (more : List (List Byte))
    (isWord : operator word = none) : items (word :: more) = .argument word :: items more := by
  cases more with
  | nil => simp [items, isWord]
  | cons target rest => rw [items, isWord]

theorem items_operator {word : List Byte} {op : Redirect} (target : List Byte)
    (rest : List (List Byte)) (isOp : operator word = some op) :
    items (word :: target :: rest) = .redirection op (some target) :: items rest := by
  rw [items, isOp]

theorem items_dangling {word : List Byte} {op : Redirect} (isOp : operator word = some op) :
    items [word] = [.redirection op none] := by
  rw [items, isOp]

/-! ## The scans -/

section Scanning

variable {delimiters lineCpy buf after later word text : List Byte} {tokenCmd tokenPipe : Option Nat}
  {s save ends : Nat} {more texts : List (List Byte)} {info : SSoloCommandInfo}

/-- `strtok_r` has returned `token`; with it, the tokens of the string that ends at `ends` are
these. -/
def Pending (delimiters buf : List Byte) (token : Option Nat) (save ends : Nat) :
    List (List Byte) → Prop
  | [] => token = none
  | text :: more => ∃ begins later, token = some begins ∧ HasString buf begins text ∧
      HasString buf save later ∧ tokens (separates delimiters) later = more ∧
      begins + text.length ≤ save ∧ save + later.length = ends

theorem strtok_pending (has : HasString buf s text) :
    ∃ token after save, strtokR delimiters buf s = .ok (token, after, save) ∧
      Pending delimiters after token save (s + text.length) (tokens (separates delimiters) text) ∧
      Kept (s + text.length) buf after := by
  rcases @strtok_next_kept delimiters buf text s has with ⟨all, save, called⟩ | found
  · rw [all]
    exact ⟨none, buf, save, called, rfl, kept_refl⟩
  · obtain ⟨word, more, token, after, save, later, all, called, stands, remains, rest, behind,
      ends, kept⟩ := found
    rw [all]
    exact ⟨some token, after, save, called, ⟨token, later, rfl, stands, remains, rest, behind, ends⟩,
      kept⟩

theorem read_token (has : HasString buf s text) : readToken buf (some s) = .ok (some text) := by
  show (readString buf s >>= _) = _
  rw [read_string has]
  rfl

/-- What the inner loop does is what these items come to. -/
def Agrees (ends : Nat) (buf : List Byte) (actual : Except Fault (SSoloCommandInfo × List Byte)) :
    Except Fault SSoloCommandInfo → Prop
  | .ok info => ∃ after, actual = .ok (info, after) ∧ Kept ends buf after
  | .error fault => actual = .error fault

theorem agrees_kept {actual : Except Fault (SSoloCommandInfo × List Byte)}
    {result : Except Fault SSoloCommandInfo} (kept : Kept ends buf after)
    (agrees : Agrees ends after actual result) : Agrees ends buf actual result := by
  cases result with
  | error fault => exact agrees
  | ok info =>
      obtain ⟨last, returned, keptLast⟩ := agrees
      exact ⟨last, returned, kept_trans kept keptLast⟩

theorem parse_words (rounds : Nat) (pending : Pending [0x20] buf tokenCmd save ends texts)
    (enough : texts.length ≤ rounds) :
    Agrees ends buf (parseWords rounds info buf tokenCmd save) (storeItems info (items texts)) := by
  induction rounds generalizing texts buf tokenCmd save info with
  | zero =>
      rw [List.length_eq_zero_iff.mp (Nat.le_zero.mp enough)] at pending ⊢
      rw [show tokenCmd = none from pending]
      exact ⟨buf, rfl, kept_refl⟩
  | succ rounds induction =>
      cases texts with
      | nil =>
          rw [show tokenCmd = none from pending]
          exact ⟨buf, rfl, kept_refl⟩
      | cons text more =>
          obtain ⟨begins, later, isToken, stands, remains, rest, behind, isEnd⟩ := pending
          obtain ⟨token, after, saved, called, next, kept⟩ := @strtok_pending [0x20] _ _ _ remains
          rw [isEnd] at next kept
          rw [List.length_cons] at enough
          rw [isToken, parseWords, read_string stands]
          change Agrees ends buf (match operator text with | some op => _ | none => _) _
          cases isOp : operator text with
          | none =>
              rw [items_argument more isOp]
              cases stored : addArgument info text with
              | error fault =>
                  show Agrees ends buf _ (storeItem info (.argument text) >>= _)
                  rw [show storeItem info (.argument text) = .error fault from stored]
                  rfl
              | ok info =>
                  show Agrees ends buf (strtokR [0x20] buf save >>= _)
                    (storeItem _ (.argument text) >>= _)
                  rw [show storeItem _ (.argument text) = .ok info from stored, called]
                  rw [rest] at next
                  exact agrees_kept kept (induction next (Nat.le_of_succ_le_succ enough))
          | some op =>
              show Agrees ends buf (strtokR [0x20] buf save >>= _) _
              rw [called]
              rw [rest] at next
              cases more with
              | nil =>
                  rw [items_dangling isOp, show token = none from next]
                  rfl
              | cons target others =>
                  obtain ⟨at_, last, isTarget, targetStands, lastRemains, others_, _, lastEnds⟩ := next
                  obtain ⟨token2, after2, saved2, called2, next2, kept2⟩ :=
                    @strtok_pending [0x20] _ _ _ lastRemains
                  rw [lastEnds] at next2 kept2
                  rw [items_operator target others isOp, isTarget]
                  show Agrees ends buf (readToken after (some at_) >>= _) _
                  rw [read_token targetStands]
                  cases stored : copyFile info op (some target) with
                  | error fault =>
                      show Agrees ends buf (copyFile info op (some target) >>= _)
                        (storeItem info (.redirection op (some target)) >>= _)
                      rw [show storeItem info (.redirection op (some target)) = .error fault from
                        stored, stored]
                      rfl
                  | ok info_ =>
                      show Agrees ends buf (copyFile info op (some target) >>= _)
                        (storeItem info (.redirection op (some target)) >>= _)
                      rw [show storeItem info (.redirection op (some target)) = .ok info_ from
                        stored, stored]
                      show Agrees ends buf (strtokR [0x20] after saved >>= _) _
                      rw [called2]
                      rw [others_] at next2
                      rw [List.length_cons] at enough
                      exact agrees_kept (kept_trans kept kept2) (induction next2 (by omega))

theorem has_string_inside (has : HasString buf s text) : s + text.length < buf.length := by
  obtain ⟨_, junk, stands⟩ := has
  have lengths := congrArg List.length stands
  rw [List.length_drop, List.length_append, List.length_cons] at lengths
  omega

/-- The inner scan leaves the pieces behind its own alone. -/
theorem parse_pieces (rounds : Nat) {cmdMatrix : List SSoloCommandInfo} {cmdIndex : Nat}
    (pending : Pending [0x7c] buf tokenPipe save ends texts) (enough : texts.length ≤ rounds) :
    parsePieces rounds cmdMatrix cmdIndex buf tokenPipe save =
      storePieces cmdMatrix cmdIndex texts := by
  induction rounds generalizing texts buf tokenPipe save cmdMatrix cmdIndex with
  | zero =>
      rw [List.length_eq_zero_iff.mp (Nat.le_zero.mp enough)] at pending ⊢
      rw [show tokenPipe = none from pending]
      rfl
  | succ rounds induction =>
      cases texts with
      | nil =>
          rw [show tokenPipe = none from pending]
          rfl
      | cons piece more =>
          obtain ⟨begins, later, isToken, stands, remains, rest, behind, isEnd⟩ := pending
          rw [isToken, parsePieces, storePieces]
          cases slot : cmdMatrix[cmdIndex]? with
          | none => rfl
          | some info =>
              obtain ⟨token, after, saved, called, next, kept⟩ := @strtok_pending [0x20] _ _ _ stands
              have few : (words piece).length ≤ after.length := by
                have inside := has_string_inside stands
                have counted := tokens_length (separates [0x20]) piece
                rw [kept.length]
                unfold words
                omega
              have inner := @parse_words after token saved _ _ { info with argvSize := 1 } _ next few
              show (strtokR [0x20] buf begins >>= _) = _
              rw [called]
              show (parseWords after.length { info with argvSize := 1 } after token saved >>= _) =
                (storeItems { info with argvSize := 1 } (items (words piece)) >>= _)
              unfold words
              cases stored : storeItems { info with argvSize := 1 }
                  (items (tokens (separates [0x20]) piece)) with
              | error fault =>
                  rw [stored] at inner
                  rw [show _ = _ from inner]
                  rfl
              | ok result =>
                  rw [stored] at inner
                  obtain ⟨last, returned, keptLast⟩ := inner
                  rw [returned]
                  have untouched := (kept_trans kept keptLast).strings save later behind remains
                  obtain ⟨token2, after2, saved2, called2, next2, kept2⟩ :=
                    @strtok_pending [0x7c] _ _ _ untouched
                  show (strtokR [0x7c] last save >>= _) = _
                  rw [called2]
                  rw [rest, isEnd] at next2
                  exact induction next2 (Nat.le_of_succ_le_succ enough)

end Scanning

/-! ## The whole line -/

/-- The line without its last character, and without the `&` before that. -/
def stripped (text : List Byte) : List Byte :=
  if text.getLast? = some 0x26 then text.dropLast else text

theorem stripped_length (text : List Byte) : (stripped text).length ≤ text.length := by
  unfold stripped
  split
  · rw [List.length_dropLast]
    exact Nat.sub_le _ _
  · exact Nat.le_refl _

theorem stripped_no_nul {text : List Byte} (noNul : (0 : Byte) ∉ text) :
    (0 : Byte) ∉ stripped text := by
  unfold stripped
  split
  · exact fun inside => noNul (List.dropLast_subset _ inside)
  · exact noNul

/-- `lineCpy` when it is scanned. -/
def blanked (text : List Byte) : List Byte :=
  stripped text ++ List.replicate (text.length - (stripped text).length) 0 ++ [0]

theorem blanked_length (text : List Byte) : (blanked text).length = text.length + 1 := by
  have shorter := stripped_length text
  unfold blanked
  rw [List.length_append, List.length_append, List.length_replicate, List.length_singleton]
  omega

theorem zeros_begin (n : Nat) : ∃ junk, List.replicate n (0 : Byte) ++ [0] = 0 :: junk := by
  cases n with
  | zero => exact ⟨[], rfl⟩
  | succ n => exact ⟨_, rfl⟩

theorem blanked_string {text : List Byte} (noNul : (0 : Byte) ∉ text) :
    HasString (blanked text) 0 (stripped text) := by
  obtain ⟨junk, isJunk⟩ := zeros_begin (text.length - (stripped text).length)
  refine ⟨stripped_no_nul noNul, junk, ?_⟩
  unfold blanked
  rw [List.append_assoc, isJunk]
  rfl

/-- What the test of `lineCpy[charNum - 2]` does. -/
theorem blanked_line {text : List Byte} (nonempty : text ≠ []) :
    decide ((text ++ [0]).getD (text.length - 1) 0 = 0x26) =
      decide (text.getLast? = some 0x26) ∧
    (if text.getLast? = some 0x26 then (text ++ [0]).set (text.length - 1) 0 else text ++ [0]) =
      blanked text := by
  obtain ⟨front, last, split⟩ := List.eq_nil_or_concat text |>.resolve_left nonempty
  rw [List.concat_eq_append] at split
  have size : text.length - 1 = front.length := by
    rw [split, List.length_append, List.length_singleton, Nat.add_sub_cancel]
  have isLast : text.getLast? = some last := by
    rw [split, List.getLast?_concat]
  unfold blanked stripped
  rw [size, isLast]
  constructor
  · rw [split, List.getD_eq_getElem?_getD, List.append_assoc, List.getElem?_append_right
      (Nat.le_refl _), Nat.sub_self]
    simp
  · by_cases background : last = 0x26
    · rw [background, if_pos rfl, if_pos rfl, split, List.dropLast_concat, List.append_assoc,
        List.set_append_right _ _ (Nat.le_refl _), Nat.sub_self, List.length_append,
        List.length_singleton, Nat.add_sub_cancel_left]
      simp
    · have other : ¬some last = some 0x26 := fun same => background (Option.some.inj same)
      rw [if_neg other, if_neg other, Nat.sub_self, List.replicate_zero, List.append_nil]

/-- The record for a line whose pieces have been stored. -/
def recordOf (text : List Byte) (cmdMatrix : List SSoloCommandInfo) : SCommandDetail where
  isBackground := text.getLast? = some 0x26
  inputString := splice (List.replicate stringSize 0) 0 (text ++ [0])
  activeString := splice (List.replicate stringSize 0) 0 (blanked text)
  cmdMatrix := cmdMatrix

theorem parse_scans {lineCpy text : List Byte} (has : HasString lineCpy 0 text)
    (cmdMatrix : List SSoloCommandInfo) :
    parseScans cmdMatrix lineCpy = storePieces cmdMatrix 0 (pieces text) := by
  obtain ⟨token, after, save, called, next, kept⟩ := @strtok_pending [0x7c] _ _ _ has
  have inside := has_string_inside has
  have counted := tokens_length (separates [0x7c]) text
  unfold parseScans
  rw [called]
  apply parse_pieces _ next
  show (tokens (separates [0x7c]) text).length ≤ after.length
  rw [kept.length]
  omega

theorem parse_line {text : List Byte} (last : Byte) (noNul : (0 : Byte) ∉ text)
    (nonempty : text ≠ []) (fits : text.length < stringSize) :
    parseLineToCmd .zeroed (text ++ [last]) =
      (storePieces SCommandDetail.zeroed.cmdMatrix 0 (pieces (stripped text))).map
        (recordOf text) := by
  have size : (text ++ [last]).length = text.length + 1 := by
    rw [List.length_append, List.length_singleton]
  have positive := List.length_pos_iff.mpr nonempty
  have ended : (text ++ [last]).set (text.length + 1 - 1) 0 = text ++ [0] := by
    rw [Nat.add_sub_cancel, List.set_append_right _ _ (Nat.le_refl _), Nat.sub_self,
      List.set_cons_zero]
  have room : ∀ cells : List Byte, cells.length = text.length + 1 →
      copyLine (List.replicate stringSize 0) cells =
        .ok (splice (List.replicate stringSize 0) 0 cells) := by
    intro cells length
    refine if_neg ?_
    rw [List.length_replicate, length]
    omega
  obtain ⟨background, cut⟩ := blanked_line nonempty
  unfold parseLineToCmd
  rw [size]
  show (if text.length + 1 = 0 then _ else _) = _
  rw [if_neg (Nat.succ_ne_zero _)]
  show (copyLine (List.replicate stringSize 0) ((text ++ [last]).set (text.length + 1 - 1) 0)
    >>= _) = _
  rw [ended, room _ (by rw [List.length_append, List.length_singleton])]
  show (if text.length + 1 = 1 then _ else _) = _
  rw [if_neg (by omega)]
  have index : text.length + 1 - 2 = text.length - 1 := by omega
  simp only [index, background, decide_eq_true_eq, cut]
  show (copyLine (List.replicate stringSize 0) (blanked text) >>= _) = _
  rw [room _ (blanked_length text)]
  show (parseScans SCommandDetail.zeroed.cmdMatrix (blanked text) >>= _) = _
  rw [parse_scans (blanked_string noNul)]
  cases storePieces SCommandDetail.zeroed.cmdMatrix 0 (pieces (stripped text)) with
  | error fault => rfl
  | ok cmdMatrix =>
      unfold recordOf
      show Except.ok _ = Except.ok _
      rw [show SCommandDetail.zeroed.isBackground = false from rfl, Bool.or_false]

end UtSystems.Yashd.CommandLine
