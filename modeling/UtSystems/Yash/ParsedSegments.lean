import UtSystems.Yash.CommandParser

/-!
# What becomes of a segment

The three loops over `tokens` in terms of the texts that the array is filled with: as many as there
are before the first operator, the paths behind the operators, and where the array is written. A
segment is complete when neither of the loops gets to a slot behind the texts and there is a text
before the first operator.
-/

namespace UtSystems.Yash.ParsedSegments

open Lib.Traces Yash.CommandParser

set_option autoImplicit false

/-! ## Allowed accesses -/

/-- What no function of the C library, and no one who reads a slot, may get. -/
def Sound : Access → Prop
  | .read slot => slot ≠ .unfilled
  | .string pointer => ∃ word, pointer = .text word
  | .write _ _ => True

def Inside : Access → Prop
  | .write index size => index < size
  | _ => True

/-- The accesses of a program that stays with the texts. -/
structure Plain (allowed : Access → Prop) : Prop where
  read : ∀ word, allowed (.read (.text word))
  string : ∀ word, allowed (.string (.text word))
  write : ∀ index size, index < size → allowed (.write index size)

theorem plain_sound : Plain Sound where
  read := fun _ isUnfilled => nomatch isUnfilled
  string := fun word => ⟨word, rfl⟩
  write := fun _ _ _ => trivial

theorem plain_inside : Plain Inside where
  read := fun _ => trivial
  string := fun _ => trivial
  write := fun _ _ inside => inside

/-! ## The array -/

def slots (texts : List Text) (i : Nat) : Slot :=
  match texts[i]? with
  | none => .unfilled
  | some word => .text word

def table (size : Nat) (texts : List Text) : Tokens := { bufsize := size, slot := slots texts }

section Arrays

variable {allowed : Access → Prop} {size : Nat} {texts : List Text} {word : Text}

theorem slots_update (texts : List Text) (word : Text) :
    Function.update (slots texts) texts.length (.text word) = slots (texts ++ [word]) := by
  funext i
  unfold slots
  by_cases last : i = texts.length
  · subst last
    simp
  · rw [Function.update_of_ne last]
    by_cases before : i < texts.length
    · rw [List.getElem?_append_left before]
    · have behind : (texts ++ [word]).length ≤ i := by
        rw [List.length_append, List.length_singleton]
        omega
      rw [List.getElem?_eq_none behind, List.getElem?_eq_none (Nat.le_of_not_lt before)]

theorem put_table (plain : Plain allowed) (room : texts.length < size) (word : Text) :
    Yields allowed ((table size texts).put texts.length (.text word))
      (table size (texts ++ [word])) := by
  apply yields_bind (yields_note (plain.write _ _ room))
  unfold table
  rw [slots_update]
  exact yields_pure _

theorem string_at_table (plain : Plain allowed) {i : Nat} (filled : texts[i]? = some word) :
    Yields allowed (stringAt (table size texts) i) word := by
  have slot : (table size texts).slot i = .text word := by
    simp [table, slots, filled]
  unfold stringAt
  rw [slot]
  exact yields_bind (yields_note (plain.read word))
    (yields_bind (yields_note (plain.string word)) (yields_pure word))

theorem equals_table (plain : Plain allowed) {i : Nat} (filled : texts[i]? = some word)
    (op : Operator) : Yields allowed (equals (table size texts) i op) (decide (word = op.text)) :=
  yields_bind (string_at_table plain filled) (yields_pure _)

end Arrays

/-! ## Filling it -/

/-- What is stored for a token. -/
def expand (glob : Text → List Text) (token : Text) : List Text :=
  if 0 < (globPaths glob token).length then globPaths glob token else [token]

/-- The size of the array behind the first loop. -/
def grown (glob : Text → List Text) : Nat → Nat → List Text → Nat
  | size, _, [] => size
  | size, position, token :: rest =>
      let count := (globPaths glob token).length
      grown glob (if size ≤ position + count then size + tokenBufsize + count else size)
        (position + (expand glob token).length) rest

section Filling

variable {allowed : Access → Prop} {glob : Text → List Text} {size : Nat} {texts : List Text}

theorem store_all_table (plain : Plain allowed) {paths : List Text}
    (room : texts.length + paths.length ≤ size) :
    Yields allowed (storeAll (table size texts) texts.length paths)
      (table size (texts ++ paths), (texts ++ paths).length) := by
  induction paths generalizing texts with
  | nil =>
      rw [List.append_nil]
      exact yields_pure _
  | cons path rest ih =>
      rw [List.length_cons] at room
      have length : texts.length + 1 = (texts ++ [path]).length := by simp
      have later := @ih (texts ++ [path]) (by omega)
      rw [List.append_assoc] at later
      apply yields_bind (put_table plain (by omega) path)
      rw [length]
      exact later

theorem grown_room {position : Nat} {rest : List Text} (room : position ≤ size) :
    position + (rest.flatMap (expand glob)).length ≤ grown glob size position rest := by
  induction rest generalizing size position with
  | nil => exact room
  | cons token rest ih =>
      rw [List.flatMap_cons, List.length_append, ← Nat.add_assoc]
      unfold grown
      apply ih
      unfold expand tokenBufsize
      split
      · split
        · omega
        · omega
      · split
        · simp
          omega
        · simp
          omega

theorem store_tokens_table (plain : Plain allowed) {rest : List Text} {position : Nat}
    (filled : position = texts.length) (room : position ≤ size) :
    Yields allowed (storeTokens glob (table size texts) position rest)
      (table (grown glob size position rest) (texts ++ rest.flatMap (expand glob)),
        position + (rest.flatMap (expand glob)).length) := by
  induction rest generalizing size texts position with
  | nil =>
      rw [List.flatMap_nil, List.append_nil]
      exact yields_pure _
  | cons token rest ih =>
      rw [storeTokens, grown, List.flatMap_cons, ← List.append_assoc, List.length_append,
        ← Nat.add_assoc]
      generalize paths : globPaths glob token = found
      dsimp only
      have larger : (if (table size texts).bufsize ≤ position + found.length then
          { table size texts with
            bufsize := (table size texts).bufsize + tokenBufsize + found.length }
          else table size texts) =
          table (if size ≤ position + found.length then size + tokenBufsize + found.length
            else size) texts := by
        change (if size ≤ position + found.length then _ else _) = _
        split
        · rfl
        · rfl
      have enough : position + found.length <
          if size ≤ position + found.length then size + tokenBufsize + found.length else size := by
        unfold tokenBufsize
        split
        · omega
        · omega
      rw [larger]
      generalize (if size ≤ position + found.length then size + tokenBufsize + found.length
        else size) = now at enough ⊢
      by_cases some : 0 < found.length
      · have replaced : expand glob token = found := by
          unfold expand
          rw [paths, if_pos some]
        rw [if_pos some, replaced]
        subst filled
        apply yields_bind (store_all_table plain (Nat.le_of_lt enough))
        have later := @ih now (texts ++ found) (texts ++ found).length rfl
          (by rw [List.length_append]; omega)
        rw [List.length_append] at later ⊢
        exact later
      · have itself : expand glob token = [token] := by
          unfold expand
          rw [paths, if_neg some]
        rw [if_neg some, itself]
        subst filled
        apply yields_bind (put_table plain (by omega) token)
        exact @ih now (texts ++ [token]) (texts.length + 1) (by simp) (by omega)

/-- With no paths it grows by 64 each time that it is full. -/
theorem grown_plain {position : Nat} {rest : List Text}
    (noPattern : ∀ token ∈ rest, isPattern token = false)
    (fits : size = tokenBufsize * ((position - 1) / tokenBufsize + 1)) :
    grown glob size position rest =
      tokenBufsize * ((position + rest.length - 1) / tokenBufsize + 1) := by
  induction rest generalizing size position with
  | nil => exact fits
  | cons token rest ih =>
      have noPaths : globPaths glob token = [] := by
        unfold globPaths
        rw [noPattern token List.mem_cons_self]
        exact if_neg Bool.false_ne_true
      have itself : expand glob token = [token] := by
        unfold expand
        rw [noPaths]
        rfl
      unfold grown
      rw [noPaths, itself]
      dsimp only [List.length_nil, List.length_singleton]
      rw [ih fun other member => noPattern other (List.mem_cons_of_mem token member)]
      · rw [List.length_cons]
        congr 4
        omega
      · unfold tokenBufsize at *
        split
        · omega
        · omega

end Filling

/-! ## Reading it -/

def operator (word : Text) : Option Operator :=
  if word = Operator.output.text then some .output
  else if word = Operator.input.text then some .input
  else if word = Operator.error.text then some .error
  else none

def isArgument (word : Text) : Bool := (operator word).isNone

/-- In the redirections, up to a text where an operator should stand, each operator has a text
behind it. -/
def Targeted : List Text → Prop
  | [] => True
  | [word] => operator word = none
  | word :: _ :: rest => operator word ≠ none → Targeted rest

def follow : Paths → List Text → Paths
  | paths, [] => paths
  | paths, [_] => paths
  | paths, word :: target :: rest =>
      match operator word with
      | none => paths
      | some op => follow (paths.set target op) rest

section Reading

variable {allowed : Access → Prop} {size i : Nat} {texts rest : List Text} {word : Text}
  {op : Operator} {paths : Paths}

theorem operator_some (isOp : operator word = some op) : word = op.text := by
  unfold operator at isOp
  split at isOp
  · next same =>
    cases isOp
    exact same
  · split at isOp
    · next same =>
      cases isOp
      exact same
    · split at isOp
      · next same =>
        cases isOp
        exact same
      · cases isOp

theorem operator_text (op : Operator) : operator op.text = some op := by
  cases op with
  | _ => rfl

theorem operator_none (isNone : operator word = none) (op : Operator) : word ≠ op.text := by
  intro same
  rw [same, operator_text] at isNone
  cases isNone

/-- The loops are at the first text of what is left. -/
theorem drop_head (left : texts.drop i = word :: rest) :
    texts[i]? = some word ∧ i < texts.length ∧ texts.drop (i + 1) = rest := by
  have inside : i < texts.length := by
    apply Nat.lt_of_not_le
    intro behind
    rw [List.drop_eq_nil_of_le behind] at left
    cases left
  have head := List.head?_drop (l := texts) (i := i)
  rw [left] at head
  refine ⟨head.symm, inside, ?_⟩
  rw [← List.tail_drop, left, List.tail_cons]

theorem drop_nil (left : texts.drop i = []) : ¬ i < texts.length :=
  Nat.not_lt.mpr (List.drop_eq_nil_iff.mp left)

/-- The three comparisons of the loop come to whether it is an operator. -/
theorem find_operator_table (plain : Plain allowed) {rounds : Nat} (left : texts.drop i = rest)
    (enough : rest.length ≤ rounds) :
    Yields allowed (findOperator (table size texts) texts.length rounds i)
      (i + (rest.takeWhile isArgument).length) := by
  induction rest generalizing i rounds with
  | nil =>
      cases rounds with
      | zero => exact yields_pure _
      | succ rounds =>
          rw [findOperator, if_neg (drop_nil left)]
          exact yields_pure _
  | cons word rest ih =>
      obtain ⟨filled, inside, later⟩ := drop_head left
      have compared := fun op => @equals_table allowed size _ _ plain _ filled op
      cases rounds with
      | zero => exact absurd enough (Nat.not_succ_le_zero _)
      | succ rounds =>
          rw [findOperator, if_pos inside]
          by_cases isOp : isArgument word = true
          · have isNone : operator word = none := Option.isNone_iff_eq_none.mp isOp
            have next := @ih (i + 1) rounds later (Nat.le_of_succ_le_succ enough)
            rw [Nat.add_right_comm] at next
            rw [List.takeWhile_cons_of_pos isOp, List.length_cons]
            apply yields_bind (compared .output)
            rw [if_neg (by simpa using operator_none isNone .output)]
            apply yields_bind (compared .input)
            rw [if_neg (by simpa using operator_none isNone .input)]
            apply yields_bind (compared .error)
            rw [if_neg (by simpa using operator_none isNone .error)]
            exact next
          · rw [List.takeWhile_cons_of_neg isOp]
            obtain ⟨op, isSome⟩ := Option.ne_none_iff_exists'.mp fun isNone =>
              isOp (Option.isNone_iff_eq_none.mpr isNone)
            have same := operator_some isSome
            apply yields_bind (compared .output)
            split
            · exact yields_pure _
            · next notOutput =>
              apply yields_bind (compared .input)
              split
              · exact yields_pure _
              · next notInput =>
                apply yields_bind (compared .error)
                split
                · exact yields_pure _
                · next notError =>
                  cases op with
                  | output => exact absurd (decide_eq_true same) notOutput
                  | input => exact absurd (decide_eq_true same) notInput
                  | error => exact absurd (decide_eq_true same) notError

/-- At an operator the loop goes on behind the path that it copies. -/
theorem redirect_operator (plain : Plain allowed) (left : texts.drop i = word :: rest)
    (isOp : operator word = some op) (rounds : Nat) :
    Goes allowed (redirect (table size texts) texts.length (rounds + 1) i paths)
      (copyPath (table size texts) i op >>= fun next =>
        redirect (table size texts) texts.length rounds (next.2 + 1) (paths.set next.1 op)) := by
  obtain ⟨filled, inside, _⟩ := drop_head left
  rw [operator_some isOp] at filled
  have compared := fun op => @equals_table allowed size _ _ plain _ filled op
  rw [redirect, if_pos inside]
  cases op with
  | input =>
      apply goes_trans (goes_after (compared .input))
      exact goes_refl _
  | output =>
      apply goes_trans (goes_after (compared .input))
      apply goes_trans (goes_after (compared .output))
      exact goes_refl _
  | error =>
      apply goes_trans (goes_after (compared .input))
      apply goes_trans (goes_after (compared .output))
      apply goes_trans (goes_after (compared .error))
      exact goes_refl _

theorem redirect_argument (plain : Plain allowed) (left : texts.drop i = word :: rest)
    (isNone : operator word = none) (rounds : Nat) :
    Yields allowed (redirect (table size texts) texts.length rounds i paths) paths := by
  obtain ⟨filled, inside, _⟩ := drop_head left
  have compared := fun op => @equals_table allowed size _ _ plain _ filled op
  cases rounds with
  | zero => exact yields_pure _
  | succ rounds =>
      rw [redirect, if_pos inside]
      apply yields_bind (compared .input)
      rw [if_neg (by simpa using operator_none isNone .input)]
      apply yields_bind (compared .output)
      rw [if_neg (by simpa using operator_none isNone .output)]
      apply yields_bind (compared .error)
      rw [if_neg (by simpa using operator_none isNone .error)]
      exact yields_pure _

theorem copy_path_target (plain : Plain allowed) {target : Text}
    (left : texts.drop i = word :: target :: rest) (isOp : operator word = some op) :
    Yields allowed (copyPath (table size texts) i op) (target, i + 1) := by
  obtain ⟨filled, _, later⟩ := drop_head left
  obtain ⟨filledNext, _, _⟩ := drop_head later
  apply yields_bind (string_at_table plain filled)
  rw [operator_some isOp, if_pos rfl]
  apply yields_bind (string_at_table plain filledNext)
  exact yields_bind (string_at_table plain filledNext) (yields_pure _)

/-- Behind the last text the slot was never filled. -/
theorem copy_path_missing (left : texts.drop i = [word]) (isOp : operator word = some op) :
    ¬ Keeps Sound (copyPath (table size texts) i op) := by
  obtain ⟨filled, _, later⟩ := drop_head left
  intro sound
  unfold copyPath at sound
  rw [keeps_after (string_at_table plain_sound filled), operator_some isOp, if_pos rfl] at sound
  have slot : (table size texts).slot (i + 1) = .unfilled := by
    simp [table, slots, List.getElem?_eq_none (Nat.le_of_not_lt (drop_nil later))]
  have read := keeps_first (keeps_first sound)
  rw [slot, keeps_note] at read
  exact read rfl

theorem redirect_table (plain : Plain allowed) {rounds : Nat} (left : texts.drop i = rest)
    (enough : rest.length ≤ rounds) (targeted : Targeted rest) :
    Yields allowed (redirect (table size texts) texts.length rounds i paths)
      (follow paths rest) := by
  induction rounds generalizing i rest paths with
  | zero =>
      rw [List.length_eq_zero_iff.mp (Nat.le_zero.mp enough)]
      exact yields_pure _
  | succ rounds ih =>
      match rest with
      | [] =>
          rw [redirect, if_neg (drop_nil left)]
          exact yields_pure _
      | [word] => exact redirect_argument plain left targeted (rounds + 1)
      | word :: target :: later =>
          simp only [List.length_cons] at enough
          have leftLater := (drop_head (drop_head left).2.2).2.2
          unfold follow
          cases isOp : operator word with
          | none => exact redirect_argument plain left isOp (rounds + 1)
          | some op =>
              have targetedLater : Targeted later := targeted (by simp [isOp])
              apply goes_yields (redirect_operator plain left isOp rounds)
              apply yields_bind (copy_path_target plain left isOp)
              exact ih leftLater (by omega) targetedLater

theorem redirect_untargeted {rounds : Nat} (left : texts.drop i = rest)
    (enough : rest.length ≤ rounds) (untargeted : ¬ Targeted rest) :
    ¬ Keeps Sound (redirect (table size texts) texts.length rounds i paths) := by
  induction rounds generalizing i rest paths with
  | zero =>
      rw [List.length_eq_zero_iff.mp (Nat.le_zero.mp enough)] at untargeted
      exact absurd trivial untargeted
  | succ rounds ih =>
      match rest with
      | [] => exact absurd trivial untargeted
      | [word] =>
          obtain ⟨op, isOp⟩ := Option.ne_none_iff_exists'.mp untargeted
          rw [(redirect_operator plain_sound left isOp rounds).keeps]
          intro sound
          exact copy_path_missing left isOp (keeps_first sound)
      | word :: target :: later =>
          simp only [Targeted, Classical.not_imp] at untargeted
          obtain ⟨isSome, untargetedLater⟩ := untargeted
          obtain ⟨op, isOp⟩ := Option.ne_none_iff_exists'.mp isSome
          simp only [List.length_cons] at enough
          have leftLater := (drop_head (drop_head left).2.2).2.2
          rw [(redirect_operator plain_sound left isOp rounds).keeps,
            keeps_after (copy_path_target plain_sound left isOp)]
          exact ih leftLater (by omega) untargetedLater

end Reading

/-! ## The whole segment -/

theorem clear_result (tokens : Tokens) (rounds i : Nat) :
    (clear tokens rounds i).result = some { tokens with
      slot := fun j => if i ≤ j ∧ j < i + rounds then .null else tokens.slot j } := by
  induction rounds generalizing tokens i with
  | zero =>
      have none : ∀ j, ¬ (i ≤ j ∧ j < i + 0) := by
        intro j
        omega
      simp only [none, if_false]
      rfl
  | succ rounds ih =>
      change (clear { tokens with slot := Function.update tokens.slot i .null } rounds (i + 1)).result
        = _
      rw [ih]
      congr 2
      funext j
      dsimp only
      by_cases first : j = i
      · subst first
        rw [Function.update_self, if_neg (by omega), if_pos (by omega)]
      · rw [Function.update_of_ne first]
        congr 1
        apply propext
        omega

theorem clear_keeps {allowed : Access → Prop} (tokens : Tokens) (rounds i : Nat) :
    Keeps allowed (clear tokens rounds i) ↔
      ∀ j, i ≤ j → j < i + rounds → allowed (.write j tokens.bufsize) := by
  induction rounds generalizing tokens i with
  | zero =>
      constructor
      · intro _ j low high
        omega
      · intro _
        exact keeps_pure _
  | succ rounds ih =>
      have written : (tokens.put i .null).result =
          some { tokens with slot := Function.update tokens.slot i .null } := rfl
      have first : Keeps allowed (tokens.put i .null) ↔ allowed (.write i tokens.bufsize) := keeps_note
      rw [clear, keeps_bind written, first, ih]
      constructor
      · intro keeps j low high
        by_cases isFirst : j = i
        · exact isFirst ▸ keeps.1
        · exact keeps.2 j (by omega) (by omega)
      · intro keeps
        exact ⟨keeps i (Nat.le_refl i) (by omega),
          fun j low high => keeps j (by omega) (by omega)⟩

def processType (word : Text) : JobManager.CommandType :=
  if word = [0x6a, 0x6f, 0x62, 0x73] then .jobs
  else if word = [0x66, 0x67] then .fg
  else if word = [0x62, 0x67] then .bg
  else .external

section Segments

variable {allowed : Access → Prop} {glob : Text → List Text} {segment : Text}

theorem string_text (plain : Plain allowed) (word : Text) :
    Yields allowed (string (.text word)) word :=
  yields_bind (yields_note (plain.string word)) (yields_pure word)

theorem string_null : ¬ Keeps Sound (string .null) := by
  intro sound
  obtain ⟨_, isText⟩ := keeps_note.mp (keeps_first sound)
  cases isText

theorem get_process_type_text (plain : Plain allowed) (word : Text) :
    Yields allowed (getProcessType (.text word)) (processType word) := by
  have compared := string_text plain word
  unfold processType
  apply yields_bind compared
  split
  · exact yields_pure _
  · apply yields_bind compared
    split
    · exact yields_pure _
    · apply yields_bind compared
      split
      · exact yields_pure _
      · exact yields_pure _

/-- The texts with which `tokens` is filled. -/
def texts (glob : Text → List Text) (segment : Text) : List Text :=
  (words segment).flatMap (expand glob)

def size (glob : Text → List Text) (segment : Text) : Nat :=
  grown glob tokenBufsize 0 (words segment)

structure Complete (texts : List Text) : Prop where
  named : texts.takeWhile isArgument ≠ []
  targeted : Targeted (texts.dropWhile isArgument)

/-- What the segment becomes. -/
def parsed (glob : Text → List Text) (segment : Text) : Process :=
  let texts := texts glob segment
  let argc := (texts.takeWhile isArgument).length
  let paths := follow .none (texts.dropWhile isArgument)
  { command := segment
    argc := argc
    argv := {
      bufsize := size glob segment
      slot := fun j => if argc ≤ j ∧ j < argc + (texts.length + 1 - argc) then .null
        else slots texts j }
    inputPath := paths.input
    outputPath := paths.output
    errorPath := paths.error
    type := processType (texts.headD []) }

theorem argc_left (texts : List Text) :
    texts.drop (texts.takeWhile isArgument).length = texts.dropWhile isArgument := by
  have dropped := @List.drop_left _ (texts.takeWhile isArgument) (texts.dropWhile isArgument)
  rw [List.takeWhile_append_dropWhile] at dropped
  exact dropped

theorem argc_le (texts : List Text) : (texts.takeWhile isArgument).length ≤ texts.length :=
  (List.takeWhile_prefix isArgument).length_le

/-- The first two loops. -/
theorem parse_segment_argc (plain : Plain allowed) :
    Goes allowed (parseSegmentCommander glob segment)
      (redirect (table (size glob segment) (texts glob segment)) (texts glob segment).length
          (texts glob segment).length ((texts glob segment).takeWhile isArgument).length .none >>=
        fun paths => clear (table (size glob segment) (texts glob segment))
          ((texts glob segment).length + 1 - ((texts glob segment).takeWhile isArgument).length)
          ((texts glob segment).takeWhile isArgument).length >>= fun tokens =>
        note (.read (tokens.slot 0)) >>= fun _ => getProcessType (tokens.slot 0) >>= fun type =>
        pure {
          command := segment
          argc := ((texts glob segment).takeWhile isArgument).length
          argv := tokens
          inputPath := paths.input
          outputPath := paths.output
          errorPath := paths.error
          type := type }) := by
  have filled := @store_tokens_table allowed glob tokenBufsize [] plain (words segment) 0 rfl
    (Nat.zero_le _)
  have counted := @find_operator_table allowed (size glob segment) 0 (texts glob segment)
    (texts glob segment) plain (texts glob segment).length rfl (Nat.le_refl _)
  rw [Nat.zero_add] at filled counted
  apply goes_trans (goes_after filled)
  apply goes_trans (goes_after counted)
  exact goes_refl _

theorem parse_segment_complete (plain : Plain allowed) (complete : Complete (texts glob segment)) :
    (parseSegmentCommander glob segment).result = some (parsed glob segment) ∧
      (Keeps allowed (parseSegmentCommander glob segment) ↔
        allowed (.write (texts glob segment).length (size glob segment))) := by
  have room : (texts glob segment).length ≤ size glob segment := by
    have grows := @grown_room glob tokenBufsize 0 (words segment) (Nat.zero_le _)
    rw [Nat.zero_add] at grows
    exact grows
  obtain ⟨word, rest, begins⟩ := List.exists_cons_of_ne_nil complete.named
  have some : 0 < ((texts glob segment).takeWhile isArgument).length := by
    rw [begins]
    exact Nat.succ_pos _
  have atMost := argc_le (texts glob segment)
  obtain ⟨more, isPrefix⟩ := List.takeWhile_prefix isArgument (l := texts glob segment)
  have first : texts glob segment = word :: (rest ++ more) := by
    rw [← isPrefix, begins]
    rfl
  have redirected := @redirect_table allowed (size glob segment) _ (texts glob segment) _ .none
    plain (texts glob segment).length (argc_left _)
    (List.dropWhile_suffix isArgument).length_le complete.targeted
  have goes := goes_trans (parse_segment_argc plain) (goes_after redirected)
  have cleared := clear_result (table (size glob segment) (texts glob segment))
    ((texts glob segment).length + 1 - ((texts glob segment).takeWhile isArgument).length)
    ((texts glob segment).takeWhile isArgument).length
  have slot : (if ((texts glob segment).takeWhile isArgument).length ≤ 0 ∧ 0 <
      ((texts glob segment).takeWhile isArgument).length + ((texts glob segment).length + 1 -
        ((texts glob segment).takeWhile isArgument).length) then Slot.null
      else slots (texts glob segment) 0) = .text word := by
    rw [if_neg (by omega)]
    simp [slots, first]
  have last : Yields allowed (do
      note (Access.read (.text word))
      let type ← getProcessType (.text word)
      return { parsed glob segment with type := type }) (parsed glob segment) := by
    apply yields_bind (yields_note (plain.read word))
    apply yields_bind (get_process_type_text plain word)
    have isType : (parsed glob segment).type = processType word := by
      unfold parsed
      rw [first]
      rfl
    rw [← isType]
    exact yields_pure _
  constructor
  · rw [goes.result, bind_result cleared]
    dsimp only [table]
    rw [slot]
    exact last.result
  · rw [goes.keeps, keeps_bind cleared, clear_keeps]
    dsimp only [table]
    rw [slot]
    constructor
    · intro keeps
      exact keeps.1 _ atMost (by omega)
    · intro isAllowed
      refine ⟨?_, last.keeps⟩
      intro j low high
      by_cases isLast : j = (texts glob segment).length
      · rw [isLast]
        exact isAllowed
      · exact plain.write _ _ (by omega)

theorem parse_segment_incomplete (incomplete : ¬ Complete (texts glob segment)) :
    ¬ Keeps Sound (parseSegmentCommander glob segment) := by
  rw [(parse_segment_argc plain_sound).keeps]
  by_cases targeted : Targeted ((texts glob segment).dropWhile isArgument)
  · have redirected := @redirect_table Sound (size glob segment) _ (texts glob segment) _ .none
      plain_sound (texts glob segment).length (argc_left _)
      (List.dropWhile_suffix isArgument).length_le targeted
    have none : (texts glob segment).takeWhile isArgument = [] := by
      by_contra named
      exact incomplete ⟨named, targeted⟩
    have cleared := clear_result (table (size glob segment) (texts glob segment))
      ((texts glob segment).length + 1 - ((texts glob segment).takeWhile isArgument).length)
      ((texts glob segment).takeWhile isArgument).length
    rw [keeps_after redirected, keeps_bind cleared]
    intro sound
    have slot := sound.2
    dsimp only at slot
    rw [if_pos (by rw [none, List.length_nil]; omega)] at slot
    have read : Yields Sound (note (Access.read .null)) () := yields_note fun isUnfilled => nomatch isUnfilled
    rw [keeps_after read] at slot
    exact string_null (keeps_first (keeps_first slot))
  · intro sound
    exact redirect_untargeted (argc_left _) (List.dropWhile_suffix isArgument).length_le targeted
      (keeps_first sound)

end Segments

end UtSystems.Yash.ParsedSegments
