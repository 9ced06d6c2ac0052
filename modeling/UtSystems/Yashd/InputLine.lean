import Mathlib.Data.List.TakeWhile
import UtSystems.Yashd.Framing

/-!
# From the typed line to `jobInfo.inputString`

`client.c` formats a line with its newline into a payload of 120 bytes, and `parse_line_to_cmd`
drops the last character of what arrives, whatever it is.
-/

namespace UtSystems.Yashd.InputLine

open Lib.Bytes Yashd.Framing

set_option autoImplicit false

theorem c_string_no_nul (buf : List Byte) : (0 : Byte) ∉ cString buf := by
  intro inside
  have nonzero := List.mem_takeWhile_imp inside
  exact of_decide_eq_true nonzero rfl

theorem c_string_whole {buf : List Byte} (noNul : (0 : Byte) ∉ buf) : cString buf = buf := by
  apply List.takeWhile_eq_self_iff.mpr
  intro byte inside
  apply decide_eq_true
  intro isNul
  exact noNul (isNul ▸ inside)

theorem c_string_ends {word junk : List Byte} (noNul : (0 : Byte) ∉ word) :
    cString (word ++ 0 :: junk) = word := by
  have whole := c_string_whole noNul
  unfold cString at whole ⊢
  rw [List.takeWhile_append, whole, if_pos rfl]
  exact List.append_nil word

/-- The message for a line that `getline` has returned: `%s` ends at a NUL. -/
def sent (line : List Byte) : Message :=
  .cmd { bytes := cString line, noNul := c_string_no_nul line }

/-- What `parse_line_to_cmd` copies to `inputString`; none: there is no last character to drop. -/
def inputString (line : List Byte) : Option (List Byte) :=
  let charNum := line.length
  if charNum = 0 then none
  else
    let lineCpy := line.set (charNum - 1) 0
    some (cString lineCpy)

/-- `inputString` of the record for a message that has arrived as it was sent. -/
def recorded (line : List Byte) : Option (List Byte) :=
  match yashdHandleMsg (cString (sent line).bytes) with
  | some (.cmd body) => inputString body
  | _ => none

theorem input_string_eq {line : List Byte} (noNul : (0 : Byte) ∉ line) (nonempty : line ≠ []) :
    inputString line = some line.dropLast := by
  obtain ⟨front, last, split⟩ := List.eq_nil_or_concat line |>.resolve_left nonempty
  rw [List.concat_eq_append] at split
  subst split
  have length : (front ++ [last]).length = front.length + 1 := by
    rw [List.length_append, List.length_singleton]
  have clean : (0 : Byte) ∉ front := fun inside => noNul (List.mem_append_left _ inside)
  have cut : cString (front ++ [0]) = front := by
    have front_eq := c_string_whole clean
    unfold cString at front_eq ⊢
    rw [List.takeWhile_append, front_eq, if_pos rfl]
    exact List.append_nil front
  simp only [inputString, length]
  rw [if_neg (Nat.succ_ne_zero _), Nat.add_sub_cancel, List.set_append_right _ _ (Nat.le_refl _),
    Nat.sub_self, List.set_cons_zero, cut, List.dropLast_concat]

/-- The 115 characters for which there is room behind the word and before the NUL. -/
theorem recorded_eq (line : List Byte) :
    recorded line = inputString ((cString line).take 115) := by
  unfold recorded
  rw [handle_bytes]
  change inputString (((cmdWord ++ cString line).take 119).drop 4) = _
  rw [List.take_append, List.drop_append, List.take_of_length_le (by decide)]
  rfl

theorem recorded_no_nul {line input : List Byte} (done : recorded line = some input) :
    (0 : Byte) ∉ input := by
  rw [recorded_eq] at done
  unfold inputString at done
  dsimp only at done
  split at done
  · cases done
  · cases done
    exact c_string_no_nul _

theorem input_is_typed_iff (typed : List Byte) (nonempty : typed ≠ []) :
    recorded (typed ++ [10]) = some typed ↔ typed.length ≤ 114 ∧ (0 : Byte) ∉ typed := by
  have clean : (0 : Byte) ∉ typed → (0 : Byte) ∉ typed ++ [10] := by
    intro noNul inside
    rw [List.mem_append, List.mem_singleton] at inside
    cases inside with
    | inl inTyped => exact noNul inTyped
    | inr isNewline => exact absurd isNewline (by decide)
  have dropped : (0 : Byte) ∉ typed →
      recorded (typed ++ [10]) = some ((typed ++ [10]).take 115).dropLast := by
    intro noNul
    rw [recorded_eq, c_string_whole (clean noNul)]
    apply input_string_eq
    · exact fun inside => clean noNul (List.mem_of_mem_take inside)
    · intro empty
      cases List.take_eq_nil_iff.mp empty with
      | inl zero => cases zero
      | inr nil => exact absurd nil (List.append_ne_nil_of_left_ne_nil nonempty _)
  constructor
  · intro same
    have noNul := recorded_no_nul same
    rw [dropped noNul] at same
    have lengths := congrArg List.length (Option.some.inj same)
    rw [List.length_dropLast, List.length_take, List.length_append, List.length_singleton] at lengths
    constructor
    · omega
    · exact noNul
  · intro fits
    rw [dropped fits.2, List.take_of_length_le, List.dropLast_concat]
    rw [List.length_append, List.length_singleton]
    omega

/-- `ls` -/
theorem input_is_typed_iff_ls : recorded ([108, 115] ++ [10]) = some [108, 115] :=
  (input_is_typed_iff [108, 115] (by decide)).mpr (by decide)

/-- 115 characters: the newline does not arrive, and the last of them is dropped. -/
theorem long_line_loses_its_end :
    let typed : List Byte := List.replicate 115 97
    recorded (typed ++ [10]) = some (List.replicate 114 97) ∧
      recorded (typed ++ [10]) ≠ some typed := by
  decide +kernel

end UtSystems.Yashd.InputLine
