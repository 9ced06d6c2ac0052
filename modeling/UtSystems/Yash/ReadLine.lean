import Mathlib.Data.List.DropRight
import UtSystems.Yashd.InputLine

/-!
# The lines that are read

`read_line` and `helper_strtrim` of the stand-alone shell. The array of a line is a list of bytes,
in which what was not written to is what `malloc` or `realloc` has found there. The pointer `tail`
of `helper_strtrim` begins at the NUL and not before it, so that it stays there.
-/

namespace UtSystems.Yash.ReadLine

open Lib.Bytes Yashd.Framing Yashd.InputLine

set_option autoImplicit false

def commandBufsize : Nat := 2000

/-- What `getchar` returns. -/
inductive Input where
  | char (c : Byte)
  -- with `signal_recieved`
  | eof (signalRecieved : Bool)

inductive Line where
  | buffer (bytes : List Byte)
  -- the literal `"EXIT"`
  | exit

/-- What is found in new memory. -/
def found (memory : Nat → Byte) (first count : Nat) : List Byte :=
  (List.range count).map fun i => memory (first + i)

/-- The loop, from `position` on; none: it waits for input. -/
def readLineFrom (memory : Nat → Byte) : List Input → List Byte → Nat → Option Line
  | [], _, _ => none
  | .eof true :: _, buffer, position => some (.buffer (buffer.set position 0))
  | .eof false :: _, _, _ => some .exit
  | .char c :: rest, buffer, position =>
      if c = 0x0a ∨ c = 0 then some (.buffer (buffer.set position 0))
      else
        let buffer := buffer.set position c
        let position := position + 1
        if buffer.length ≤ position then
          readLineFrom memory rest (buffer ++ found memory buffer.length commandBufsize) position
        else readLineFrom memory rest buffer position

def readLine (memory : Nat → Byte) (inputs : List Input) : Option Line :=
  readLineFrom memory inputs (found memory 0 commandBufsize) 0

def Line.storage : Line → List Byte
  | .buffer bytes => bytes
  | .exit => [0x45, 0x58, 0x49, 0x54, 0]

/-! ## helper_strtrim -/

/-- The loop with `head`; none: it leaves the array. -/
def skipBlanks : List Byte → Nat → Option Nat
  | [], _ => none
  | c :: rest, head => if c = 0x20 then skipBlanks rest (head + 1) else some head

/-- The loop with `tail`; none: it leaves the array. -/
def backOverBlanks (buffer : List Byte) : Nat → Option Nat
  | 0 => if buffer[0]? = some 0x20 then none else some 0
  | tail + 1 =>
      if buffer[tail + 1]? = some 0x20 then backOverBlanks buffer tail else some (tail + 1)

structure Trim where
  head : Nat
  -- the place `tail + 1` that is written to, in the array or not
  written : Nat
  line : List Byte

def helperStrtrim (line : List Byte) : Option Trim := do
  let head ← skipBlanks line 0
  let tail ← backOverBlanks line (cString line).length
  return { head := head, written := tail + 1, line := line.set (tail + 1) 0 }

def Trim.text (trim : Trim) : List Byte := cString (trim.line.drop trim.head)

def isBlank (c : Byte) : Bool := c = 0x20

/-- Without the blanks at both ends. -/
def trimmed (text : List Byte) : List Byte := (text.dropWhile isBlank).rdropWhile isBlank

/-! ## What is read -/

/-- The array while the line is read, as far as `text`. -/
structure Filling (buffer text : List Byte) : Prop where
  begins : ∃ junk, buffer = text ++ junk
  noNul : (0 : Byte) ∉ text
  size : buffer.length = commandBufsize * (text.length / commandBufsize + 1)

/-- A line that was read, in its array. -/
structure Holds (buffer text : List Byte) : Prop where
  begins : ∃ junk, buffer = text ++ 0 :: junk
  noNul : (0 : Byte) ∉ text
  size : buffer.length = commandBufsize * (text.length / commandBufsize + 1)

section Reading

variable {memory : Nat → Byte} {rest : List Input} {buffer text : List Byte} {c : Byte}

theorem found_length (memory : Nat → Byte) (first count : Nat) :
    (found memory first count).length = count := by
  simp [found]

theorem filling_empty (memory : Nat → Byte) : Filling (found memory 0 commandBufsize) [] where
  begins := ⟨found memory 0 commandBufsize, (List.nil_append _).symm⟩
  noNul := List.not_mem_nil
  size := by simp [found_length, commandBufsize]

theorem filling_room (filling : Filling buffer text) : text.length < buffer.length := by
  have size := filling.size
  unfold commandBufsize at size
  omega

theorem set_behind (filling : Filling buffer text) (c : Byte) :
    ∃ junk, buffer.set text.length c = text ++ c :: junk := by
  have room := filling_room filling
  obtain ⟨junk, split⟩ := filling.begins
  subst split
  cases junk with
  | nil => simp at room
  | cons old junk => exact ⟨junk, by simp⟩

theorem filling_ends (filling : Filling buffer text) : Holds (buffer.set text.length 0) text where
  begins := set_behind filling 0
  noNul := filling.noNul
  size := by
    rw [List.length_set]
    exact filling.size

/-- A turn of the loop that keeps the character. -/
theorem filling_char (filling : Filling buffer text) (kept : ¬ (c = 0x0a ∨ c = 0)) :
    ∃ next, Filling next (text ++ [c]) ∧
      readLineFrom memory (.char c :: rest) buffer text.length =
        readLineFrom memory rest next (text ++ [c]).length := by
  have size := filling.size
  have length : (text ++ [c]).length = text.length + 1 := by simp
  have noNul : (0 : Byte) ∉ text ++ [c] := by
    intro inside
    cases List.mem_append.mp inside with
    | inl before => exact filling.noNul before
    | inr last => exact kept (Or.inr (List.mem_singleton.mp last).symm)
  obtain ⟨junk, written⟩ := set_behind filling c
  have begins : buffer.set text.length c = (text ++ [c]) ++ junk := by
    rw [written, List.append_assoc]
    rfl
  rw [readLineFrom, if_neg kept]
  dsimp only
  rw [List.length_set, length]
  by_cases full : buffer.length ≤ text.length + 1
  · rw [if_pos full]
    refine ⟨_, ?_, rfl⟩
    exact {
      begins := ⟨junk ++ found memory buffer.length commandBufsize, by
        rw [begins, List.append_assoc]⟩
      noNul := noNul
      size := by
        rw [List.length_append, List.length_set, found_length, length]
        unfold commandBufsize at *
        omega }
  · rw [if_neg full]
    refine ⟨_, ?_, rfl⟩
    exact {
      begins := ⟨junk, begins⟩
      noNul := noNul
      size := by
        rw [List.length_set, length]
        unfold commandBufsize at *
        omega }

theorem read_line_holds {inputs : List Input} {bytes : List Byte} (filling : Filling buffer text)
    (read : readLineFrom memory inputs buffer text.length = some (.buffer bytes)) :
    ∃ line, Holds bytes line := by
  induction inputs generalizing buffer text with
  | nil => cases read
  | cons input rest ih =>
      cases input with
      | eof signalRecieved =>
          cases signalRecieved with
          | true =>
              cases read
              exact ⟨text, filling_ends filling⟩
          | false => cases read
      | char c =>
          by_cases ended : c = 0x0a ∨ c = 0
          · unfold readLineFrom at read
            rw [if_pos ended] at read
            cases read
            exact ⟨text, filling_ends filling⟩
          · obtain ⟨next, fillingNext, turn⟩ := @filling_char memory rest _ _ _ filling ended
            rw [turn] at read
            exact ih fillingNext read

/-- Every text can be typed. -/
theorem read_line_reads {typed : List Byte} (filling : Filling buffer text)
    (kept : ∀ c ∈ typed, ¬ (c = 0x0a ∨ c = 0)) :
    ∃ bytes, readLineFrom memory (typed.map .char ++ [.char 0x0a]) buffer text.length =
      some (.buffer bytes) ∧ Holds bytes (text ++ typed) := by
  induction typed generalizing buffer text with
  | nil =>
      refine ⟨_, rfl, ?_⟩
      rw [List.append_nil]
      exact filling_ends filling
  | cons c typed ih =>
      obtain ⟨next, fillingNext, turn⟩ :=
        @filling_char memory (typed.map .char ++ [.char 0x0a]) _ _ _ filling
          (kept c List.mem_cons_self)
      obtain ⟨bytes, read, holds⟩ :=
        ih fillingNext fun x inside => kept x (List.mem_cons_of_mem c inside)
      refine ⟨bytes, turn.trans read, ?_⟩
      rw [List.append_assoc] at holds
      exact holds

end Reading

theorem read_line_returns {memory : Nat → Byte} {inputs : List Input} {bytes : List Byte}
    (read : readLine memory inputs = some (.buffer bytes)) : ∃ line, Holds bytes line :=
  read_line_holds (filling_empty memory) read

theorem holds_string {buffer text : List Byte} (holds : Holds buffer text) :
    cString buffer = text := by
  obtain ⟨junk, begins⟩ := holds.begins
  rw [begins]
  exact c_string_ends holds.noNul

/-- The array holds the string in it. -/
theorem read_line_string {memory : Nat → Byte} {inputs : List Input} {bytes : List Byte}
    (read : readLine memory inputs = some (.buffer bytes)) : Holds bytes (cString bytes) := by
  obtain ⟨line, holds⟩ := read_line_returns read
  rw [holds_string holds]
  exact holds

theorem typed_line (memory : Nat → Byte) {typed : List Byte}
    (kept : ∀ c ∈ typed, ¬ (c = 0x0a ∨ c = 0)) :
    ∃ bytes, readLine memory (typed.map .char ++ [.char 0x0a]) = some (.buffer bytes) ∧
      Holds bytes typed :=
  read_line_reads (filling_empty memory) kept

/-! ## What is trimmed -/

section Trimming

variable {line text junk : List Byte}

theorem skip_blanks_text (noNul : (0 : Byte) ∉ text) (head : Nat) :
    skipBlanks (text ++ 0 :: junk) head = some (head + (text.takeWhile isBlank).length) := by
  induction text generalizing head with
  | nil => rfl
  | cons c text ih =>
      have noNulLater : (0 : Byte) ∉ text := fun inside => noNul (List.mem_cons_of_mem c inside)
      rw [List.cons_append, skipBlanks]
      by_cases blank : c = 0x20
      · rw [if_pos blank, ih noNulLater, List.takeWhile_cons_of_pos (by simp [isBlank, blank]),
          List.length_cons]
        congr 1
        omega
      · rw [if_neg blank, List.takeWhile_cons_of_neg (by simpa [isBlank] using blank)]
        rfl

/-- The blanks at the begin go and those at the end stay. -/
theorem strtrim_text (noNul : (0 : Byte) ∉ text) :
    ∃ trim, helperStrtrim (text ++ 0 :: junk) = some trim ∧
      trim.head = (text.takeWhile isBlank).length ∧ trim.written = text.length + 1 ∧
      trim.text = text.dropWhile isBlank ∧
      trim.line = text ++ 0 :: junk.set 0 0 := by
  have head := @skip_blanks_text text junk noNul 0
  rw [Nat.zero_add] at head
  have nul : (text ++ 0 :: junk)[text.length]? = some 0 := by simp
  have tail : backOverBlanks (text ++ 0 :: junk) text.length = some text.length := by
    cases size : text.length with
    | zero =>
        rw [size] at nul
        unfold backOverBlanks
        rw [nul]
        rfl
    | succ before =>
        rw [size] at nul
        unfold backOverBlanks
        rw [nul]
        rfl
  have written : (text ++ 0 :: junk).set (text.length + 1) 0 = text ++ 0 :: junk.set 0 0 := by
    rw [List.set_append_right _ _ (Nat.le_succ _), Nat.succ_sub (Nat.le_refl _), Nat.sub_self]
    rfl
  have split := List.takeWhile_append_dropWhile (p := isBlank) (l := text)
  refine ⟨{ head := (text.takeWhile isBlank).length, written := text.length + 1
            line := text ++ 0 :: junk.set 0 0 }, ?_, rfl, rfl, ?_, rfl⟩
  · unfold helperStrtrim
    rw [head, c_string_ends noNul, ← written]
    change (backOverBlanks (text ++ 0 :: junk) text.length).bind _ = _
    rw [tail]
    rfl
  · have noNulLater : (0 : Byte) ∉ text.dropWhile isBlank :=
      fun inside => noNul ((List.dropWhile_suffix _).subset inside)
    have dropped : (text ++ 0 :: junk.set 0 0).drop (text.takeWhile isBlank).length =
        text.dropWhile isBlank ++ 0 :: junk.set 0 0 := by
      have whole : text ++ 0 :: junk.set 0 0 =
          text.takeWhile isBlank ++ (text.dropWhile isBlank ++ 0 :: junk.set 0 0) := by
        rw [← List.append_assoc, split]
      rw [whole, List.drop_left]
    unfold Trim.text
    rw [dropped]
    exact c_string_ends noNulLater

end Trimming

/-- The NUL behind the NUL is in the array unless the line fills it. -/
theorem written_in_array_iff {buffer text : List Byte} (holds : Holds buffer text) :
    text.length + 1 < buffer.length ↔ (text.length + 1) % commandBufsize ≠ 0 := by
  rw [holds.size]
  unfold commandBufsize
  omega

theorem line_ends {memory : Nat → Byte} {inputs : List Input} {line : Line}
    (read : readLine memory inputs = some line) :
    ∃ text junk, line.storage = text ++ 0 :: junk ∧ (0 : Byte) ∉ text := by
  cases line with
  | exit => exact ⟨[0x45, 0x58, 0x49, 0x54], [], rfl, by decide⟩
  | buffer bytes =>
      obtain ⟨text, holds⟩ := read_line_returns read
      obtain ⟨junk, begins⟩ := holds.begins
      exact ⟨text, junk, begins, holds.noNul⟩

/-- What should become of a line. -/
structure Trims (line : List Byte) (trim : Trim) : Prop where
  text : trim.text = trimmed (cString line)
  inside : trim.written ≤ (cString line).length

theorem strtrim_never_stays_inside {memory : Nat → Byte} {inputs : List Input} {line : Line}
    (read : readLine memory inputs = some line) :
    ¬ ∃ trim, helperStrtrim line.storage = some trim ∧ Trims line.storage trim := by
  intro trims
  obtain ⟨trim, returned, right⟩ := trims
  obtain ⟨text, junk, begins, noNul⟩ := line_ends read
  obtain ⟨other, returnedToo, _, written, _⟩ := @strtrim_text text junk noNul
  rw [begins, returnedToo] at returned
  cases returned
  have inside := right.inside
  rw [begins, written, c_string_ends noNul] at inside
  omega

theorem strtrim_never_stays_inside_ls :
    ∃ line, readLine (fun _ => 0) ([0x6c, 0x73].map .char ++ [.char 0x0a]) = some line ∧
      ¬ ∃ trim, helperStrtrim line.storage = some trim ∧ Trims line.storage trim := by
  obtain ⟨bytes, read, _⟩ := @typed_line (fun _ => 0) [0x6c, 0x73] (by decide)
  exact ⟨.buffer bytes, read, strtrim_never_stays_inside read⟩

/-- `ls` with a blank behind it. -/
theorem trailing_blank_stays :
    ∃ bytes trim, readLine (fun _ => 0) ([0x6c, 0x73, 0x20].map .char ++ [.char 0x0a]) =
        some (.buffer bytes) ∧ cString bytes = [0x6c, 0x73, 0x20] ∧
      helperStrtrim bytes = some trim ∧ trim.text = [0x6c, 0x73, 0x20] ∧ trim.written = 4 ∧
      ¬ Trims bytes trim := by
  obtain ⟨bytes, read, holds⟩ := @typed_line (fun _ => 0) [0x6c, 0x73, 0x20] (by decide)
  obtain ⟨junk, begins⟩ := holds.begins
  obtain ⟨trim, returned, _, written, text, _⟩ := @strtrim_text _ junk holds.noNul
  rw [← begins] at returned
  have held := holds_string holds
  refine ⟨bytes, trim, read, held, returned, text, written, ?_⟩
  intro right
  have inside := right.inside
  rw [held, written] at inside
  exact absurd inside (by decide)

end UtSystems.Yash.ReadLine
