import UtSystems.Lib.Bytes
import UtSystems.Lib.Tokens

/-!
# Strings in arrays

The string functions of `lib/string.c` on an array of `char`. A pointer into the array is an index,
and an access outside of it ends the computation.
-/

namespace UtSystems.Libc.Strings

open Lib.Bytes Lib.Tokens

set_option autoImplicit false

inductive Fault where
  -- an array is accessed outside of its bounds
  | overrun
  -- an assertion that a pointer is not null
  | null
  -- a page is accessed that is not mapped
  | unmapped
  -- a loop does not come to its end
  | endless
deriving DecidableEq, Repr

/-- `strchr (delimiters, c) != NULL`: every string contains its null byte. -/
def strchr (delimiters : List Byte) (c : Byte) : Bool := c = 0 || delimiters.contains c

/-- The string at `s`. -/
def readString : List Byte → Nat → Except Fault (List Byte)
  | [], _ => .error .overrun
  | c :: rest, 0 =>
      if c = 0 then .ok []
      else do
        let text ← readString rest 0
        .ok (c :: text)
  | _ :: rest, s + 1 => readString rest s

/-- The first loop of `strtok_r`, over what stands from `s` on; whether it ends at the null byte. -/
def skipDelimiters (delimiters : List Byte) : List Byte → Nat → Except Fault (Bool × Nat)
  | [], _ => .error .overrun
  | c :: rest, s =>
      if strchr delimiters c then
        if c = 0 then .ok (true, s) else skipDelimiters delimiters rest (s + 1)
      else .ok (false, s)

def skipToken (delimiters : List Byte) : List Byte → Nat → Except Fault Nat
  | [], _ => .error .overrun
  | c :: rest, s => if strchr delimiters c then .ok s else skipToken delimiters rest (s + 1)

/-- The token, the array and `*save_ptr`. -/
def strtokR (delimiters buf : List Byte) (s : Nat) :
    Except Fault (Option Nat × List Byte × Nat) := do
  let (ended, token) ← skipDelimiters delimiters (buf.drop s) s
  if ended then .ok (none, buf, token)
  else
    let s ← skipToken delimiters (buf.drop token) token
    if buf.getD s 0 ≠ 0 then .ok (some token, buf.set s 0, s + 1)
    else .ok (some token, buf, s)

/-- Into the array `dst`, from a string. -/
def strlcpy (dst src : List Byte) (size : Nat) : Except Fault (List Byte) :=
  if size = 0 then .ok dst
  else
    let dstLen := min src.length (size - 1)
    if dst.length ≤ dstLen then .error .overrun
    else .ok (splice dst 0 (src.take dstLen ++ [0]))

/-- At `s` there is this string. -/
structure HasString (buf : List Byte) (s : Nat) (text : List Byte) : Prop where
  noNul : (0 : Byte) ∉ text
  stands : ∃ junk, buf.drop s = text ++ 0 :: junk

def separates (delimiters : List Byte) (c : Byte) : Bool := delimiters.contains c

section Scanning

variable {delimiters buf text gap word junk : List Byte} {s : Nat} {c : Byte}

theorem strchr_delimiter (nonzero : c ≠ 0) : strchr delimiters c = separates delimiters c := by
  unfold strchr separates
  rw [decide_eq_false nonzero, Bool.false_or]

theorem strchr_nul : strchr delimiters 0 = true := rfl

theorem read_string_drop : readString buf s = readString (buf.drop s) 0 := by
  induction buf generalizing s with
  | nil =>
      rw [List.drop_nil]
      cases s with
      | zero => rfl
      | succ s => rfl
  | cons c rest ih =>
      cases s with
      | zero => rfl
      | succ s =>
          rw [List.drop_succ_cons]
          exact ih

theorem read_string_front (noNul : (0 : Byte) ∉ text) :
    readString (text ++ 0 :: junk) 0 = .ok text := by
  induction text with
  | nil => rfl
  | cons c rest ih =>
      have nonzero : c ≠ 0 := fun isNul => noNul (isNul ▸ List.mem_cons_self)
      have clean : (0 : Byte) ∉ rest := fun inside => noNul (List.mem_cons_of_mem c inside)
      rw [List.cons_append, readString, if_neg nonzero, ih clean]
      rfl

theorem read_string (has : HasString buf s text) : readString buf s = .ok text := by
  obtain ⟨noNul, junk, stands⟩ := has
  rw [read_string_drop, stands]
  exact read_string_front noNul

theorem skip_delimiters_gap (isGap : ∀ x ∈ gap, separates delimiters x = true)
    (noNul : (0 : Byte) ∉ gap) (later : List Byte) :
    skipDelimiters delimiters (gap ++ later) s =
      skipDelimiters delimiters later (s + gap.length) := by
  induction gap generalizing s with
  | nil => rfl
  | cons x gap ih =>
      have nonzero : x ≠ 0 := fun isNul => noNul (isNul ▸ List.mem_cons_self)
      have isDelimiter : strchr delimiters x = true := by
        rw [strchr_delimiter nonzero]
        exact isGap x List.mem_cons_self
      rw [List.cons_append, skipDelimiters, if_pos isDelimiter, if_neg nonzero,
        ih (fun y inside => isGap y (List.mem_cons_of_mem x inside))
          (fun inside => noNul (List.mem_cons_of_mem x inside)), List.length_cons,
        Nat.add_assoc, Nat.add_comm 1]

theorem skip_delimiters_nul (isGap : ∀ x ∈ gap, separates delimiters x = true)
    (noNul : (0 : Byte) ∉ gap) :
    skipDelimiters delimiters (gap ++ 0 :: junk) s = .ok (true, s + gap.length) := by
  rw [skip_delimiters_gap isGap noNul]
  rfl

theorem skip_delimiters_token (isGap : ∀ x ∈ gap, separates delimiters x = true)
    (noNul : (0 : Byte) ∉ gap) (begins : strchr delimiters c = false) :
    skipDelimiters delimiters (gap ++ c :: junk) s = .ok (false, s + gap.length) := by
  rw [skip_delimiters_gap isGap noNul, skipDelimiters, if_neg (begins ▸ Bool.false_ne_true)]

theorem skip_token (free : ∀ x ∈ word, strchr delimiters x = false)
    (ends : strchr delimiters c = true) :
    skipToken delimiters (word ++ c :: junk) s = .ok (s + word.length) := by
  induction word generalizing s with
  | nil =>
      rw [List.nil_append, skipToken, if_pos ends]
      rfl
  | cons x word ih =>
      rw [List.cons_append, skipToken,
        if_neg (free x List.mem_cons_self ▸ Bool.false_ne_true),
        ih fun y inside => free y (List.mem_cons_of_mem x inside), List.length_cons, Nat.add_assoc,
        Nat.add_comm 1]

end Scanning

section Copying

variable {dst src : List Byte}

theorem strlcpy_whole (fits : src.length < dst.length) :
    strlcpy dst src (src.length + 1) = .ok (src ++ 0 :: dst.drop (src.length + 1)) := by
  unfold strlcpy
  rw [if_neg (Nat.succ_ne_zero _), Nat.add_sub_cancel, Nat.min_self,
    if_neg (Nat.not_le_of_lt fits), List.take_length, splice, List.take_zero, List.nil_append,
    Nat.zero_add, List.length_append, List.length_singleton, List.append_assoc,
    List.singleton_append]

theorem strlcpy_overrun (long : dst.length ≤ src.length) :
    strlcpy dst src (src.length + 1) = .error .overrun := by
  unfold strlcpy
  rw [if_neg (Nat.succ_ne_zero _), Nat.add_sub_cancel, Nat.min_self, if_pos long]

end Copying

section Tokenising

variable {delimiters buf text gap word rest : List Byte} {s : Nat}

theorem strtok_ends (has : HasString buf s text)
    (isGap : ∀ x ∈ text, separates delimiters x = true) :
    strtokR delimiters buf s = .ok (none, buf, s + text.length) := by
  obtain ⟨noNul, junk, stands⟩ := has
  unfold strtokR
  rw [stands, skip_delimiters_nul isGap noNul]
  rfl

/-- The token ends at the null byte of the string. -/
theorem strtok_last (has : HasString buf s (gap ++ word))
    (isGap : ∀ x ∈ gap, separates delimiters x = true) (nonempty : word ≠ [])
    (free : ∀ x ∈ word, separates delimiters x = false) :
    strtokR delimiters buf s =
      .ok (some (s + gap.length), buf, s + gap.length + word.length) ∧
    HasString buf (s + gap.length) word ∧ HasString buf (s + gap.length + word.length) [] := by
  obtain ⟨noNul, junk, stands⟩ := has
  have gapClean : (0 : Byte) ∉ gap := fun inside => noNul (List.mem_append_left _ inside)
  have wordClean : (0 : Byte) ∉ word := fun inside => noNul (List.mem_append_right _ inside)
  have inWord : ∀ x ∈ word, strchr delimiters x = false := by
    intro x inside
    rw [strchr_delimiter fun isNul => wordClean (isNul ▸ inside)]
    exact free x inside
  have atToken : buf.drop (s + gap.length) = word ++ 0 :: junk := by
    rw [← List.drop_drop, stands, List.append_assoc, List.drop_left]
  have atEnd : buf.drop (s + gap.length + word.length) = 0 :: junk := by
    rw [← List.drop_drop, atToken, List.drop_left]
  have isNul : buf.getD (s + gap.length + word.length) 0 = 0 := by
    have head := congrArg List.head? atEnd
    rw [List.head?_drop] at head
    rw [List.getD_eq_getElem?_getD, head]
    rfl
  refine ⟨?_, ⟨wordClean, junk, atToken⟩, ⟨List.not_mem_nil, junk, atEnd⟩⟩
  obtain ⟨first, others, begins⟩ := List.exists_cons_of_ne_nil nonempty
  have skipped : skipDelimiters delimiters (buf.drop s) s = .ok (false, s + gap.length) := by
    rw [stands, List.append_assoc, begins]
    exact skip_delimiters_token isGap gapClean (inWord first (begins ▸ List.mem_cons_self))
  unfold strtokR
  rw [skipped]
  change (skipToken delimiters (buf.drop (s + gap.length)) (s + gap.length) >>= _) = _
  rw [atToken, skip_token inWord strchr_nul]
  change (if buf.getD (s + gap.length + word.length) 0 ≠ 0 then _ else _) = _
  rw [if_neg fun nonzero => nonzero isNul]

/-- The token ends at a delimiter, which becomes its null byte. -/
theorem strtok_cuts {d : Byte} (has : HasString buf s (gap ++ word ++ d :: rest))
    (isGap : ∀ x ∈ gap, separates delimiters x = true) (nonempty : word ≠ [])
    (free : ∀ x ∈ word, separates delimiters x = false) (isSep : separates delimiters d = true) :
    strtokR delimiters buf s =
      .ok (some (s + gap.length), buf.set (s + gap.length + word.length) 0,
        s + gap.length + word.length + 1) ∧
    HasString (buf.set (s + gap.length + word.length) 0) (s + gap.length) word ∧
    HasString (buf.set (s + gap.length + word.length) 0) (s + gap.length + word.length + 1)
      rest := by
  obtain ⟨noNul, junk, stands⟩ := has
  have gapClean : (0 : Byte) ∉ gap := by
    exact fun inside => noNul (List.mem_append_left _ (List.mem_append_left _ inside))
  have wordClean : (0 : Byte) ∉ word := by
    exact fun inside => noNul (List.mem_append_left _ (List.mem_append_right _ inside))
  have endClean : (0 : Byte) ∉ d :: rest := fun inside => noNul (List.mem_append_right _ inside)
  have restClean : (0 : Byte) ∉ rest := fun inside => endClean (List.mem_cons_of_mem d inside)
  have nonzero : d ≠ 0 := fun isNul => endClean (isNul ▸ List.mem_cons_self)
  have inWord : ∀ x ∈ word, strchr delimiters x = false := by
    intro x inside
    rw [strchr_delimiter fun isNul => wordClean (isNul ▸ inside)]
    exact free x inside
  have stops : strchr delimiters d = true := by
    rw [strchr_delimiter nonzero]
    exact isSep
  have atToken : buf.drop (s + gap.length) = word ++ d :: (rest ++ 0 :: junk) := by
    rw [← List.drop_drop, stands, List.append_assoc, List.append_assoc, List.drop_left]
    rfl
  have atEnd : buf.drop (s + gap.length + word.length) = d :: (rest ++ 0 :: junk) := by
    rw [← List.drop_drop, atToken, List.drop_left]
  have isD : buf.getD (s + gap.length + word.length) 0 = d := by
    have head := congrArg List.head? atEnd
    rw [List.head?_drop] at head
    rw [List.getD_eq_getElem?_getD, head]
    rfl
  refine ⟨?_, ⟨wordClean, rest ++ 0 :: junk, ?_⟩, ⟨restClean, junk, ?_⟩⟩
  · obtain ⟨first, others, begins⟩ := List.exists_cons_of_ne_nil nonempty
    have skipped : skipDelimiters delimiters (buf.drop s) s = .ok (false, s + gap.length) := by
      rw [stands, List.append_assoc, List.append_assoc, begins]
      exact skip_delimiters_token isGap gapClean (inWord first (begins ▸ List.mem_cons_self))
    unfold strtokR
    rw [skipped]
    change (skipToken delimiters (buf.drop (s + gap.length)) (s + gap.length) >>= _) = _
    rw [atToken, skip_token inWord stops]
    change (if buf.getD (s + gap.length + word.length) 0 ≠ 0 then _ else _) = _
    rw [if_pos (by rw [isD]; exact nonzero)]
  · rw [List.drop_set, if_neg (by omega), Nat.add_sub_cancel_left, atToken,
      List.set_append_right _ _ (Nat.le_refl _), Nat.sub_self, List.set_cons_zero]
  · rw [List.drop_set, if_pos (Nat.lt_succ_self _), ← List.drop_drop, atEnd]
    rfl

/-- The strings from `s` on are the same. -/
structure Kept (s : Nat) (buf after : List Byte) : Prop where
  length : after.length = buf.length
  strings : ∀ at_ text, s ≤ at_ → HasString buf at_ text → HasString after at_ text

theorem kept_refl : Kept s buf buf := ⟨rfl, fun _ _ _ has => has⟩

theorem kept_trans {middle after : List Byte} (first : Kept s buf middle)
    (second : Kept s middle after) : Kept s buf after where
  length := second.length.trans first.length
  strings := fun at_ text behind has =>
    second.strings at_ text behind (first.strings at_ text behind has)

theorem kept_set {i : Nat} (before : i < s) : Kept s buf (buf.set i 0) where
  length := List.length_set
  strings := by
    rintro at_ text behind ⟨noNul, junk, stands⟩
    refine ⟨noNul, junk, ?_⟩
    rw [List.drop_set, if_pos (Nat.lt_of_lt_of_le before behind)]
    exact stands

/-- Each call of `strtok_r` yields the next token, as a string in the array, and leaves what is
behind the string alone. -/
theorem strtok_next_kept (has : HasString buf s text) :
    tokens (separates delimiters) text = [] ∧
      (∃ save, strtokR delimiters buf s = .ok (none, buf, save)) ∨
    ∃ word more token after save later,
      tokens (separates delimiters) text = word :: more ∧
      strtokR delimiters buf s = .ok (some token, after, save) ∧ HasString after token word ∧
      HasString after save later ∧ tokens (separates delimiters) later = more ∧
      token + word.length ≤ save ∧ save + later.length = s + text.length ∧
      Kept (s + text.length) buf after := by
  cases tokens_cases (separates delimiters) text with
  | inl none => exact Or.inl ⟨none.2, _, strtok_ends has none.1⟩
  | inr some =>
      right
      obtain ⟨gap, word, rest, split, isGap, nonempty, free, ends⟩ := some
      have lengths := congrArg List.length split
      rw [List.length_append, List.length_append] at lengths
      cases ends with
      | inl last =>
          obtain ⟨noRest, all⟩ := last
          rw [split, noRest, List.append_nil] at has
          obtain ⟨called, stands, empty⟩ := strtok_last has isGap nonempty free
          rw [noRest, List.length_nil] at lengths
          refine ⟨word, [], _, _, _, [], all, called, stands, empty, tokens_nil, ?_, ?_, kept_refl⟩
          · exact Nat.le_refl _
          · rw [List.length_nil]
            omega
      | inr cut =>
          obtain ⟨d, later, isRest, isSep, all⟩ := cut
          rw [split, isRest] at has
          obtain ⟨called, stands, remains⟩ := strtok_cuts has isGap nonempty free isSep
          rw [isRest, List.length_cons] at lengths
          refine ⟨word, _, _, _, _, later, all, called, stands, remains, rfl, ?_, ?_, kept_set ?_⟩
          · exact Nat.le_succ _
          · omega
          · omega

theorem strtok_next (has : HasString buf s text) :
    tokens (separates delimiters) text = [] ∧
      (∃ save, strtokR delimiters buf s = .ok (none, buf, save)) ∨
    ∃ word more token after save later,
      tokens (separates delimiters) text = word :: more ∧
      strtokR delimiters buf s = .ok (some token, after, save) ∧ HasString after token word ∧
      HasString after save later ∧ tokens (separates delimiters) later = more := by
  cases @strtok_next_kept delimiters buf text s has with
  | inl none => exact Or.inl none
  | inr some =>
      obtain ⟨word, more, token, after, save, later, all, called, stands, remains, rest, _⟩ := some
      exact Or.inr ⟨word, more, token, after, save, later, all, called, stands, remains, rest⟩

end Tokenising

end UtSystems.Libc.Strings
