import UtSystems.Yash.ParsedSegments

/-!
# Which slots the parser reads

`parse_commander` parses the pieces of the line between its `|`, one after the other. It reads no
slot that was not filled, and gives no function of the C library anything but a string, exactly
when every piece is complete.
-/

namespace UtSystems.Yash.ParserSafety

open Lib.Bytes Lib.Tokens Lib.Traces Libc.Strings Yashd.Framing Yash.ReadLine Yash.CommandParser
open Yash.ParsedSegments

set_option autoImplicit false

/-! ## The line -/

/-- The line ends in `&`, behind which there is not even a blank. -/
def endsAmp (line : Text) : Bool := (line.dropWhile isBlank).getLast? = some 0x26

/-- What is parsed of it. -/
def active (line : Text) : Text :=
  let text := line.dropWhile isBlank
  if endsAmp line then text.dropLast else text

def isPipe (c : Byte) : Bool := c = 0x7c

def pieces (text : Text) : List Text := text.splitOnP isPipe

/-- The blanks behind a `|` are skipped. -/
def segments (text : Text) : List Text :=
  match pieces text with
  | [] => []
  | first :: rest => first :: rest.map fun piece => piece.dropWhile isBlank

def parseAll (glob : Text → List Text) : List Text → Parse (List Process)
  | [] => return []
  | segment :: rest => do
      let proc ← parseSegmentCommander glob segment
      let procs ← parseAll glob rest
      return proc :: procs

theorem pieces_blanks (text : Text) :
    pieces (text.dropWhile isBlank) =
      (pieces text).modifyHead fun piece => piece.dropWhile isBlank := by
  induction text with
  | nil => rfl
  | cons c text ih =>
      by_cases blank : isBlank c = true
      · have notPipe : isPipe c = false := by
          have isSpace : c = 0x20 := of_decide_eq_true blank
          rw [isSpace]
          rfl
        rw [List.dropWhile_cons_of_pos blank, ih]
        unfold pieces
        rw [List.splitOnP_cons_eq_if_modifyHead, if_neg (by rw [notPipe]; exact Bool.false_ne_true)]
        cases split : text.splitOnP isPipe with
        | nil => exact absurd split (List.splitOnP_ne_nil _ _)
        | cons first rest =>
            rw [List.modifyHead_cons, List.modifyHead_cons, List.modifyHead_cons,
              List.dropWhile_cons_of_pos blank]
      · rw [List.dropWhile_cons_of_neg blank]
        unfold pieces
        rw [List.splitOnP_cons_eq_if_modifyHead]
        split
        · rfl
        · cases split : text.splitOnP isPipe with
          | nil => exact absurd split (List.splitOnP_ne_nil _ _)
          | cons first rest =>
              rw [List.modifyHead_cons, List.modifyHead_cons, List.dropWhile_cons_of_neg blank]

theorem segments_blanks (text : Text) :
    segments (text.dropWhile isBlank) = (pieces text).map fun piece => piece.dropWhile isBlank := by
  unfold segments
  rw [pieces_blanks]
  cases split : pieces text with
  | nil => rfl
  | cons first rest => rfl

/-- The loop with `line_cursor` and `c` parses the segments. -/
theorem parse_segments_eq {glob : Text → List Text} {rounds : Nat} {done c : Text}
    (noPipe : ∀ char ∈ done, isPipe char = false) (enough : c.length < rounds) :
    parseSegments glob rounds (done ++ c) done.length c = parseAll glob (segments (done ++ c)) := by
  induction rounds generalizing done c with
  | zero => exact absurd enough (Nat.not_lt_zero _)
  | succ rounds ih =>
      cases c with
      | nil =>
          have whole : segments (done ++ []) = [done] := by
            unfold segments pieces
            rw [List.append_nil, List.splitOnP_eq_singleton noPipe]
            rfl
          rw [whole, parseSegments, List.take_left']
          · rfl
          · rfl
      | cons char c =>
          rw [List.length_cons] at enough
          by_cases pipe : char = 0x7c
          · have isSep : isPipe char = true := decide_eq_true pipe
            have split : segments (done ++ char :: c) =
                done :: segments (c.dropWhile isBlank) := by
              rw [segments_blanks]
              unfold segments pieces
              rw [List.splitOnP_append_cons_of_forall_mem noPipe char isSep]
            have shorter := (List.dropWhile_suffix (l := c) isBlank).length_le
            have next := @ih [] (c.dropWhile isBlank) (fun _ member => nomatch member) (by omega)
            rw [List.nil_append, List.length_nil] at next
            rw [split, parseSegments, if_pos pipe, List.take_left' rfl]
            dsimp only
            rw [next]
            rfl
          · have noPipeNext : ∀ x ∈ done ++ [char], isPipe x = false := by
              intro x member
              cases List.mem_append.mp member with
              | inl before => exact noPipe x before
              | inr last =>
                  rw [List.mem_singleton.mp last]
                  exact decide_eq_false pipe
            have next := @ih (done ++ [char]) c noPipeNext (by omega)
            rw [List.append_assoc, List.length_append] at next
            rw [parseSegments, if_neg pipe]
            exact next

theorem amp_read {line junk : Text} (some : line ≠ []) :
    (line ++ 0 :: junk)[(line.takeWhile isBlank).length +
      (line.dropWhile isBlank).length - 1]? = line.getLast? := by
  have split := congrArg List.length (List.takeWhile_append_dropWhile (p := isBlank) (l := line))
  rw [List.length_append] at split
  have positive := List.length_pos_iff.mpr some
  rw [split, List.getElem?_append_left (by omega), List.getLast?_eq_getElem?]

theorem last_amp (line : Text) : (line.getLast? = some 0x26) ↔ endsAmp line = true := by
  unfold endsAmp
  rw [decide_eq_true_iff]
  obtain ⟨before, split⟩ := List.dropWhile_suffix (l := line) isBlank
  by_cases empty : line.dropWhile isBlank = []
  · rw [empty, List.getLast?_nil]
    constructor
    · intro last
      have member := List.mem_of_getLast? last
      have blank := List.dropWhile_eq_nil_iff.mp empty _ member
      cases blank
    · intro none
      cases none
  · rw [← split, List.getLast?_append_of_ne_nil _ empty, split]

/-- What `parse_commander` does with a line that was read. -/
theorem parse_commander_eq {glob : Text → List Text} {buffer line : Text}
    (holds : Holds buffer line) (some : line ≠ []) :
    parseCommander glob buffer = (do
      note (.write (line.length + 1) buffer.length)
      let procs ← parseAll glob (segments (active line))
      return {
        processes := procs
        command := line.dropWhile isBlank
        mode := if endsAmp line then .background else .foreground }) := by
  obtain ⟨junk, begins⟩ := holds.begins
  obtain ⟨trim, returned, head, written, text, array⟩ := @strtrim_text line junk holds.noNul
  have positive : ¬ (line.takeWhile isBlank).length + (line.dropWhile isBlank).length = 0 := by
    have split := congrArg List.length (List.takeWhile_append_dropWhile (p := isBlank) (l := line))
    rw [List.length_append] at split
    have nonempty := List.length_pos_iff.mpr some
    omega
  have amp : decide ((line ++ 0 :: junk.set 0 0)[(line.takeWhile isBlank).length +
      (line.dropWhile isBlank).length - 1]? = Option.some 0x26) = endsAmp line := by
    rw [amp_read some, Bool.eq_iff_iff, decide_eq_true_iff]
    exact last_amp line
  have parsedAll : parseSegments glob ((active line).length + 1) (active line) 0 (active line) =
      parseAll glob (segments (active line)) := by
    have eq := @parse_segments_eq glob ((active line).length + 1) [] (active line)
      (fun _ member => nomatch member) (Nat.lt_succ_self _)
    exact eq
  unfold parseCommander
  rw [begins, returned]
  dsimp only
  rw [text, head, written, array, if_neg positive, amp, ← parsedAll]
  rfl

/-! ## Sound parsing -/

theorem words_blanks (piece : Text) : words (piece.dropWhile isBlank) = words piece := by
  have split := List.takeWhile_append_dropWhile (p := isBlank) (l := piece)
  have gone : tokens (separates tokenDelimiters)
      (piece.takeWhile isBlank ++ piece.dropWhile isBlank) =
      tokens (separates tokenDelimiters) (piece.dropWhile isBlank) := by
    apply tokens_gap
    intro c member
    have blank : isBlank c = true := List.mem_takeWhile_imp member
    have isSpace : c = 0x20 := of_decide_eq_true blank
    rw [isSpace]
    rfl
  rw [split] at gone
  exact gone.symm

theorem segment_words {Property : List Text → Prop} (text : Text) :
    (∀ segment ∈ segments text, Property (words segment)) ↔
      ∀ piece ∈ pieces text, Property (words piece) := by
  unfold segments
  cases pieces text with
  | nil => exact Iff.rfl
  | cons first rest =>
      rw [List.forall_mem_cons, List.forall_mem_cons, List.forall_mem_map]
      simp only [words_blanks]

theorem parse_all_sound {glob : Text → List Text} (list : List Text) :
    Keeps Sound (parseAll glob list) ↔ ∀ segment ∈ list, Complete (texts glob segment) := by
  induction list with
  | nil =>
      constructor
      · intro _ segment member
        cases member
      · intro _
        exact keeps_pure _
  | cons segment rest ih =>
      rw [List.forall_mem_cons]
      by_cases complete : Complete (texts glob segment)
      · obtain ⟨result, keeps⟩ := parse_segment_complete plain_sound complete
        have yields : Yields Sound (parseSegmentCommander glob segment) (parsed glob segment) :=
          { keeps := keeps.mpr trivial, result := result }
        rw [parseAll, keeps_after yields, keeps_map, ih, and_iff_right complete]
      · constructor
        · intro sound
          exact absurd (keeps_first sound) (parse_segment_incomplete complete)
        · intro all
          exact absurd all.1 complete

theorem held_sound {glob : Text → List Text} {buffer line : Text} (holds : Holds buffer line)
    (some : line ≠ []) :
    Keeps Sound (parseCommander glob buffer) ↔
      ∀ piece ∈ pieces (active line), Complete (texts glob piece) := by
  have wrote : Yields Sound (note (.write (line.length + 1) buffer.length)) () :=
    yields_note trivial
  rw [parse_commander_eq holds some, keeps_after wrote, keeps_map, parse_all_sound]
  exact @segment_words (fun words => Complete (words.flatMap (expand glob))) (active line)

theorem parser_reads_filled_slots_iff {memory : Nat → Byte} {inputs : List Input}
    {buffer : List Byte} (read : readLine memory inputs = some (.buffer buffer))
    (nonempty : cString buffer ≠ []) (glob : Text → List Text) :
    Keeps Sound (parseCommander glob buffer) ↔
      ∀ piece ∈ pieces (active (cString buffer)), Complete (texts glob piece) :=
  held_sound (read_line_string read) nonempty

/-- `ls > f` -/
def redirected : Text := [0x6c, 0x73, 0x20, 0x3e, 0x20, 0x66]

theorem parser_reads_filled_slots_iff_redirected :
    ∃ buffer, readLine (fun _ => 0) (redirected.map .char ++ [.char 0x0a]) =
        some (.buffer buffer) ∧ cString buffer = redirected ∧
      Keeps Sound (parseCommander (fun _ => []) buffer) := by
  obtain ⟨buffer, read, holds⟩ := @typed_line (fun _ => 0) redirected (by decide)
  have held := holds_string holds
  refine ⟨buffer, read, held, ?_⟩
  apply (parser_reads_filled_slots_iff read (by rw [held]; decide) (fun _ => [])).mpr
  have onePiece : pieces (active redirected) = [redirected] := by decide
  have filled : texts (fun _ => []) redirected = [[0x6c, 0x73], [0x3e], [0x66]] := by decide
  rw [held, onePiece, List.forall_mem_singleton, filled]
  exact {
    named := by decide
    targeted := fun _ => trivial }

/-- `ls >`: the slot behind the operator is read. -/
theorem missing_target_is_read :
    ∃ buffer, readLine (fun _ => 0) ([0x6c, 0x73, 0x20, 0x3e].map .char ++ [.char 0x0a]) =
        some (.buffer buffer) ∧ cString buffer = [0x6c, 0x73, 0x20, 0x3e] ∧
      ¬ Keeps Sound (parseCommander (fun _ => []) buffer) := by
  obtain ⟨buffer, read, holds⟩ := @typed_line (fun _ => 0) [0x6c, 0x73, 0x20, 0x3e] (by decide)
  refine ⟨buffer, read, holds_string holds, ?_⟩
  have onePiece : pieces (active [0x6c, 0x73, 0x20, 0x3e]) = [[0x6c, 0x73, 0x20, 0x3e]] := by decide
  have filled : texts (fun _ => []) [0x6c, 0x73, 0x20, 0x3e] = [[0x6c, 0x73], [0x3e]] := by decide
  rw [held_sound holds (List.cons_ne_nil _ _), onePiece, List.forall_mem_singleton, filled]
  intro complete
  have targeted : operator [0x3e] = none := complete.targeted
  cases targeted

end UtSystems.Yash.ParserSafety
