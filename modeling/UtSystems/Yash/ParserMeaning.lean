import UtSystems.Yash.ParserSafety

/-!
# What the parser makes of a line

A line is read as pieces of words and redirections, and as a background job when a `&` is the last
thing in it. Of a piece `parse_segment_commander` finds the words before the first redirection and
the redirections up to the next word.
-/

namespace UtSystems.Yash.ParserMeaning

open Lib.Bytes Lib.Tokens Lib.Traces Libc.Strings Yashd.Framing Yash.ReadLine Yash.CommandParser
open Yash.ParsedSegments Yash.ParserSafety

set_option autoImplicit false

/-! ## Meaning -/

inductive Item where
  | word (word : Text)
  | redirection (op : Operator) (target : Text)
deriving DecidableEq

def Item.texts : Item → List Text
  | .word text => [text]
  | .redirection op target => [op.text, target]

/-- The word or the target is not an operator. -/
def Item.Plain : Item → Prop
  | .word text => operator text = none
  | .redirection _ target => operator target = none

instance (item : Item) : Decidable item.Plain :=
  match item with
  | .word text => inferInstanceAs (Decidable (operator text = none))
  | .redirection _ target => inferInstanceAs (Decidable (operator target = none))

def Item.argument : Item → Option Text
  | .word text => some text
  | .redirection _ _ => none

def Item.target (op : Operator) : Item → Option Text
  | .word _ => none
  | .redirection other target => if other = op then some target else none

def Item.isWord (item : Item) : Bool := item.argument.isSome

def arguments (items : List Item) : List Text := items.filterMap Item.argument

def lastTarget (op : Operator) (items : List Item) : Option Text :=
  (items.filterMap (Item.target op)).getLast?

/-- There is a word before the first redirection. -/
structure Consists (piece : Text) (items : List Item) : Prop where
  words : words piece = items.flatMap Item.texts
  plain : ∀ item ∈ items, item.Plain
  named : ∃ word rest, items = .word word :: rest

def isDelimiter (c : Byte) : Bool := separates tokenDelimiters c

/-- There is a `&` at the end, perhaps with blanks behind it. -/
def background (line : Text) : Bool := (line.rdropWhile isDelimiter).getLast? = some 0x26

/-- The line without this `&`. -/
def body (line : Text) : Text :=
  if background line then (line.rdropWhile isDelimiter).dropLast else line

def Means (line : Text) (list : List (List Item)) : Prop :=
  List.Forall₂ Consists (pieces (body line)) list

/-- The strings up to the null pointer. -/
structure HasArguments (argv : Tokens) (args : List Text) : Prop where
  texts : ∀ i word, args[i]? = some word → argv.slot i = .text word
  ends : argv.slot args.length = .null

structure Matches (proc : Process) (items : List Item) : Prop where
  argv : HasArguments proc.argv (arguments items)
  input : proc.inputPath = lastTarget .input items
  output : proc.outputPath = lastTarget .output items
  error : proc.errorPath = lastTarget .error items

structure IsJob (job : Job) (list : List (List Item)) (isBackground : Bool) : Prop where
  processes : List.Forall₂ Matches job.processes list
  mode : job.mode = .background ↔ isBackground = true

def ParsesAs (result : Option Job) (list : List (List Item)) (isBackground : Bool) : Prop :=
  ∃ job, result = some job ∧ IsJob job list isBackground

/-- No word comes behind a redirection. -/
def Ordered (items : List Item) : Prop := ∀ item ∈ items.dropWhile Item.isWord, item.isWord = false

/-! ## The items of a piece -/

section Items

variable {items : List Item}

theorem is_argument_iff {word : Text} : isArgument word = true ↔ operator word = none :=
  Option.isNone_iff_eq_none

theorem operator_not_argument (op : Operator) : isArgument op.text = false := by
  unfold isArgument
  rw [operator_text]
  rfl

theorem items_take (plain : ∀ item ∈ items, item.Plain) :
    (items.flatMap Item.texts).takeWhile isArgument =
      arguments (items.takeWhile Item.isWord) := by
  induction items with
  | nil => rfl
  | cons item rest ih =>
      have plainRest : ∀ other ∈ rest, other.Plain :=
        fun other member => plain other (List.mem_cons_of_mem item member)
      cases item with
      | word word =>
          have isWord : isArgument word = true :=
            is_argument_iff.mpr (plain (.word word) List.mem_cons_self)
          change (word :: rest.flatMap Item.texts).takeWhile isArgument =
            word :: arguments (rest.takeWhile Item.isWord)
          rw [List.takeWhile_cons_of_pos isWord, ih plainRest]
      | redirection op target =>
          change (op.text :: target :: rest.flatMap Item.texts).takeWhile isArgument = []
          exact List.takeWhile_cons_of_neg (by simp [operator_not_argument])

theorem items_drop (plain : ∀ item ∈ items, item.Plain) :
    (items.flatMap Item.texts).dropWhile isArgument =
      (items.dropWhile Item.isWord).flatMap Item.texts := by
  induction items with
  | nil => rfl
  | cons item rest ih =>
      have plainRest : ∀ other ∈ rest, other.Plain :=
        fun other member => plain other (List.mem_cons_of_mem item member)
      cases item with
      | word word =>
          have isWord : isArgument word = true :=
            is_argument_iff.mpr (plain (.word word) List.mem_cons_self)
          change (word :: rest.flatMap Item.texts).dropWhile isArgument =
            (rest.dropWhile Item.isWord).flatMap Item.texts
          rw [List.dropWhile_cons_of_pos isWord, ih plainRest]
      | redirection op target =>
          change (op.text :: target :: rest.flatMap Item.texts).dropWhile isArgument =
            op.text :: target :: rest.flatMap Item.texts
          exact List.dropWhile_cons_of_neg (by simp [operator_not_argument])

theorem items_targeted (plain : ∀ item ∈ items, item.Plain) :
    Targeted (items.flatMap Item.texts) := by
  induction items with
  | nil => trivial
  | cons item rest ih =>
      have plainRest : ∀ other ∈ rest, other.Plain :=
        fun other member => plain other (List.mem_cons_of_mem item member)
      cases item with
      | word word =>
          have isNone : operator word = none := plain (.word word) List.mem_cons_self
          change Targeted (word :: rest.flatMap Item.texts)
          cases rest.flatMap Item.texts with
          | nil => exact isNone
          | cons target later => exact fun isSome => absurd isNone isSome
      | redirection op target => exact fun _ => ih plainRest

theorem last_target_cons (op : Operator) (item : Item) (rest : List Item) :
    lastTarget op (item :: rest) = (lastTarget op rest).or (item.target op) := by
  unfold lastTarget
  cases found : item.target op with
  | none => rw [List.filterMap_cons_none found, Option.or_none]
  | some target =>
      rw [List.filterMap_cons_some found, List.getLast?_cons]
      cases (rest.filterMap (Item.target op)).getLast? with
      | none => rfl
      | some last => rfl

/-- The last target of each operator is kept. -/
theorem items_follow (paths : Paths) (redirections : ∀ item ∈ items, item.isWord = false) :
    follow paths (items.flatMap Item.texts) = {
      input := (lastTarget .input items).or paths.input
      output := (lastTarget .output items).or paths.output
      error := (lastTarget .error items).or paths.error } := by
  induction items generalizing paths with
  | nil => rfl
  | cons item rest ih =>
      have redirectionsRest : ∀ other ∈ rest, other.isWord = false :=
        fun other member => redirections other (List.mem_cons_of_mem item member)
      cases item with
      | word word => cases redirections (.word word) List.mem_cons_self
      | redirection op target =>
          change follow paths (op.text :: target :: rest.flatMap Item.texts) = _
          unfold follow
          rw [operator_text]
          dsimp only
          rw [ih (paths.set target op) redirectionsRest]
          simp only [last_target_cons, Option.or_assoc]
          cases op with
          | _ => rfl

theorem words_none (redirections : ∀ item ∈ items, item.isWord = false) : arguments items = [] := by
  apply List.filterMap_eq_nil_iff.mpr
  intro item member
  exact Option.not_isSome_iff_eq_none.mp (by simpa [Item.isWord] using redirections item member)

theorem target_words (op : Operator) (words : ∀ item ∈ items, item.isWord = true) :
    items.filterMap (Item.target op) = [] := by
  apply List.filterMap_eq_nil_iff.mpr
  intro item member
  have isWord := words item member
  cases item with
  | word word => rfl
  | redirection op target => cases isWord

theorem split_arguments (items : List Item) :
    arguments items = arguments (items.takeWhile Item.isWord) ++
      arguments (items.dropWhile Item.isWord) := by
  unfold arguments
  rw [← List.filterMap_append, List.takeWhile_append_dropWhile]

theorem last_target_drop (op : Operator) (items : List Item) :
    lastTarget op items = lastTarget op (items.dropWhile Item.isWord) := by
  have none := @target_words (items.takeWhile Item.isWord) op
    fun item member => List.mem_takeWhile_imp member
  unfold lastTarget
  conv_lhs => rw [← List.takeWhile_append_dropWhile (p := Item.isWord) (l := items)]
  rw [List.filterMap_append, none, List.nil_append]

/-- A word behind a redirection is missing. -/
theorem ordered_iff : Ordered items ↔ arguments (items.dropWhile Item.isWord) = [] := by
  constructor
  · exact words_none
  · intro none item member
    have isNone := List.filterMap_eq_nil_iff.mp none item member
    simp [Item.isWord, isNone]

end Items

/-! ## Pieces -/

section Pieces

variable {glob : Text → List Text} {piece segment : Text} {items : List Item}

/-- Up to the null pointer there are the texts before the first operator. -/
theorem has_arguments_iff {args : List Text} :
    HasArguments (parsed glob segment).argv args ↔
      args = (texts glob segment).takeWhile isArgument := by
  have atMost := argc_le (texts glob segment)
  have ends : (parsed glob segment).argv.slot ((texts glob segment).takeWhile isArgument).length =
      .null := if_pos ⟨Nat.le_refl _, by omega⟩
  have begins : ∀ i word, ((texts glob segment).takeWhile isArgument)[i]? = some word →
      (parsed glob segment).argv.slot i = .text word := by
    intro i word found
    have inside := (List.getElem?_eq_some_iff.mp found).1
    have there : (texts glob segment)[i]? = some word := by
      obtain ⟨more, isPrefix⟩ := List.takeWhile_prefix isArgument (l := texts glob segment)
      rw [← isPrefix, List.getElem?_append_left inside, found]
    have kept : (parsed glob segment).argv.slot i = slots (texts glob segment) i :=
      if_neg (by omega)
    rw [kept]
    simp [slots, there]
  have behind : ∀ i word, (parsed glob segment).argv.slot i = .text word →
      i < ((texts glob segment).takeWhile isArgument).length := by
    intro i word isText
    apply Nat.lt_of_not_le
    intro high
    by_cases cleared : i ≤ (texts glob segment).length
    · have isNull : (parsed glob segment).argv.slot i = .null := if_pos ⟨high, by omega⟩
      rw [isNull] at isText
      cases isText
    · have kept : (parsed glob segment).argv.slot i = slots (texts glob segment) i :=
        if_neg (by omega)
      have none : (texts glob segment)[i]? = none := List.getElem?_eq_none (by omega)
      rw [kept] at isText
      simp [slots, none] at isText
  constructor
  · intro has
    have length : args.length = ((texts glob segment).takeWhile isArgument).length := by
      apply Nat.le_antisymm
      · apply Nat.le_of_not_lt
        intro more
        have word := List.getElem?_eq_getElem more
        exact absurd (behind _ _ (has.texts _ _ word)) (Nat.lt_irrefl _)
      · apply Nat.le_of_not_lt
        intro fewer
        have word := List.getElem?_eq_getElem fewer
        have isText := begins _ _ word
        rw [has.ends] at isText
        cases isText
    apply List.ext_getElem length
    intro i inside insideToo
    have isText := has.texts i _ (List.getElem?_eq_getElem inside)
    rw [begins i _ (List.getElem?_eq_getElem insideToo)] at isText
    injection isText with same
    exact same.symm
  · intro same
    rw [same]
    exact {
      texts := begins
      ends := ends }

theorem texts_plain (noPattern : ∀ token ∈ words segment, isPattern token = false) :
    texts glob segment = words segment := by
  unfold texts
  have itself : ∀ token ∈ words segment, expand glob token = [token] := by
    intro token member
    simp [expand, globPaths, noPattern token member]
  rw [List.flatMap_congr itself]
  exact List.flatMap_singleton' (words segment)

theorem consists_complete (consists : Consists piece items)
    (isPiece : texts glob segment = words piece) : Complete (texts glob segment) := by
  rw [isPiece, consists.words]
  obtain ⟨word, rest, begins⟩ := consists.named
  constructor
  · rw [items_take consists.plain, begins]
    exact List.cons_ne_nil _ _
  · rw [items_drop consists.plain]
    apply items_targeted
    intro item member
    exact consists.plain item ((List.dropWhile_suffix _).subset member)

theorem matches_iff (consists : Consists piece items)
    (isPiece : texts glob segment = words piece) :
    Matches (parsed glob segment) items ↔ Ordered items := by
  have args : (texts glob segment).takeWhile isArgument =
      arguments (items.takeWhile Item.isWord) := by
    rw [isPiece, consists.words, items_take consists.plain]
  have argv : HasArguments (parsed glob segment).argv (arguments items) ↔ Ordered items := by
    rw [has_arguments_iff, args, split_arguments, ordered_iff, List.append_right_eq_self]
  have left : (texts glob segment).dropWhile isArgument =
      (items.dropWhile Item.isWord).flatMap Item.texts := by
    rw [isPiece, consists.words, items_drop consists.plain]
  constructor
  · intro isMatch
    exact argv.mp isMatch.argv
  · intro ordered
    have followed : follow .none ((texts glob segment).dropWhile isArgument) = {
        input := lastTarget .input items
        output := lastTarget .output items
        error := lastTarget .error items } := by
      rw [left, items_follow .none ordered]
      simp only [← last_target_drop, Paths.none, Option.or_none]
    exact {
      argv := argv.mpr ordered
      input := congrArg Paths.input followed
      output := congrArg Paths.output followed
      error := congrArg Paths.error followed }

/-- The slot behind the texts is in the array unless they fill it. -/
theorem last_write_inside (consists : Consists piece items)
    (isPiece : texts glob segment = words piece)
    (noPattern : ∀ token ∈ words segment, isPattern token = false) :
    (texts glob segment).length < size glob segment ↔
      (items.flatMap Item.texts).length % tokenBufsize ≠ 0 := by
  have isSegment := @texts_plain glob segment noPattern
  have sized : size glob segment =
      tokenBufsize * (((words segment).length - 1) / tokenBufsize + 1) := by
    have grows := @grown_plain glob tokenBufsize 0 (words segment) noPattern rfl
    rw [Nat.zero_add] at grows
    exact grows
  obtain ⟨word, rest, begins⟩ := consists.named
  have some : 0 < (items.flatMap Item.texts).length := by
    rw [begins]
    exact Nat.succ_pos _
  rw [sized, ← isSegment, isPiece, consists.words]
  unfold tokenBufsize
  omega

end Pieces

/-! ## Lines -/

section Lines

variable {glob : Text → List Text} {line : Text} {list : List (List Item)}

def GlobFree (text : Text) : Prop := ∀ c ∈ text, c ≠ 0x2a ∧ c ≠ 0x3f

instance (text : Text) : Decidable (GlobFree text) :=
  inferInstanceAs (Decidable (∀ c ∈ text, _ ∧ _))

theorem last_background (last : line.getLast? = some 0x26) :
    line.rdropWhile isDelimiter = line ∧ background line = true := by
  obtain ⟨before, split⟩ := List.getLast?_eq_some_iff.mp last
  have whole : line.rdropWhile isDelimiter = line := by
    rw [split]
    exact List.rdropWhile_concat_neg _ _ _ (by decide)
  refine ⟨whole, ?_⟩
  unfold background
  rw [whole, last]
  rfl

theorem active_body (amp : background line = true → line.getLast? = some 0x26) :
    active line = (body line).dropWhile isBlank := by
  unfold active body
  by_cases last : line.getLast? = some 0x26
  · obtain ⟨whole, isBackground⟩ := last_background last
    obtain ⟨before, split⟩ := List.getLast?_eq_some_iff.mp last
    rw [if_pos ((last_amp line).mp last), if_pos isBackground, whole, split, List.dropLast_concat,
      List.dropWhile_append]
    by_cases empty : before.dropWhile isBlank = []
    · rw [empty]
      rfl
    · rw [if_neg (by simpa using empty)]
      exact List.dropLast_concat
  · have noAmp : ¬ endsAmp line = true := fun ends => last ((last_amp line).mpr ends)
    have notBackground : ¬ background line = true := fun isBackground => last (amp isBackground)
    rw [if_neg noAmp, if_neg notBackground]

theorem pieces_subset {text piece : Text} (member : piece ∈ pieces text) : piece ⊆ text := by
  by_cases empty : piece = []
  · rw [empty]
    exact List.nil_subset text
  · apply tokens_subset isPipe text piece
    exact List.mem_filter.mpr ⟨member, by simpa using empty⟩

theorem body_subset (line : Text) : body line ⊆ line := by
  unfold body
  split
  · intro c member
    exact (List.rdropWhile_prefix isDelimiter line).subset (List.dropLast_subset _ member)
  · exact fun c member => member

theorem glob_free_words {text : Text} (globFree : GlobFree text) :
    ∀ token ∈ words text, isPattern token = false := by
  intro token member
  have inText := tokens_subset (separates tokenDelimiters) text token member
  unfold isPattern
  rw [Bool.or_eq_false_iff, List.contains_eq_mem, List.contains_eq_mem, decide_eq_false_iff_not,
    decide_eq_false_iff_not]
  exact ⟨fun star => (globFree _ (inText star)).1 rfl, fun mark => (globFree _ (inText mark)).2 rfl⟩

theorem piece_words {piece : Text} (globFree : GlobFree piece) :
    texts glob (piece.dropWhile isBlank) = words piece ∧
      ∀ token ∈ words (piece.dropWhile isBlank), isPattern token = false := by
  have noPattern : ∀ token ∈ words (piece.dropWhile isBlank), isPattern token = false := by
    rw [words_blanks]
    exact glob_free_words globFree
  refine ⟨?_, noPattern⟩
  rw [texts_plain noPattern, words_blanks]

theorem parse_all_complete {list : List Text}
    (complete : ∀ segment ∈ list, Complete (texts glob segment)) :
    (parseAll glob list).result = some (list.map (parsed glob)) ∧
      (Keeps Inside (parseAll glob list) ↔
        ∀ segment ∈ list, (texts glob segment).length < size glob segment) := by
  induction list with
  | nil =>
      refine ⟨rfl, ?_⟩
      constructor
      · intro _ segment member
        cases member
      · intro _
        exact keeps_pure _
  | cons segment rest ih =>
      obtain ⟨isComplete, completeRest⟩ := List.forall_mem_cons.mp complete
      obtain ⟨result, keeps⟩ := parse_segment_complete plain_inside isComplete
      obtain ⟨resultRest, keepsRest⟩ := ih completeRest
      constructor
      · rw [parseAll, bind_result result, map_result, resultRest]
        rfl
      · rw [parseAll, keeps_bind result, keeps_map, keepsRest, keeps, List.forall_mem_cons]
        exact Iff.rfl

/-- The pieces with what they consist of. -/
theorem pieces_parsed {ps : List Text} (globFree : ∀ piece ∈ ps, GlobFree piece)
    (consists : List.Forall₂ Consists ps list) :
    (∀ segment ∈ ps.map (fun piece => piece.dropWhile isBlank), Complete (texts glob segment)) ∧
      (List.Forall₂ Matches
        ((ps.map fun piece => piece.dropWhile isBlank).map (parsed glob)) list ↔
          ∀ items ∈ list, Ordered items) ∧
      ((∀ segment ∈ ps.map (fun piece => piece.dropWhile isBlank),
          (texts glob segment).length < size glob segment) ↔
        ∀ items ∈ list, (items.flatMap Item.texts).length % tokenBufsize ≠ 0) := by
  induction consists with
  | nil => simp
  | cons first rest ih =>
      obtain ⟨freeFirst, freeRest⟩ := List.forall_mem_cons.mp globFree
      obtain ⟨completeRest, matchRest, insideRest⟩ := ih freeRest
      obtain ⟨isPiece, noPattern⟩ := @piece_words glob _ freeFirst
      refine ⟨?_, ?_, ?_⟩
      · exact List.forall_mem_cons.mpr ⟨consists_complete first isPiece, completeRest⟩
      · rw [List.map_cons, List.map_cons, List.forall₂_cons, List.forall_mem_cons, matchRest,
          matches_iff first isPiece]
      · rw [List.map_cons, List.forall_mem_cons, List.forall_mem_cons, insideRest,
          last_write_inside first isPiece noPattern]

/-- A background job's `&` is the last character. -/
def AmpIsLast (line : Text) : Prop := background line = true → line.getLast? = some 0x26

theorem held_means_iff {buffer : List Byte} (holds : Holds buffer line) (globFree : GlobFree line)
    (means : Means line list) :
    (ParsesAs (parseCommander glob buffer).result list (background line) ↔
      AmpIsLast line ∧ ∀ items ∈ list, Ordered items) ∧
    (AmpIsLast line →
      (Keeps Inside (parseCommander glob buffer) ↔
        (line.length + 1) % commandBufsize ≠ 0 ∧
          ∀ items ∈ list, (items.flatMap Item.texts).length % tokenBufsize ≠ 0)) := by
  have nonempty : line ≠ [] := by
    intro empty
    subst empty
    have begins : List.Forall₂ Consists [[]] list := means
    cases begins with
    | cons first _ =>
        obtain ⟨word, rest, named⟩ := first.named
        have none := first.words
        rw [named] at none
        cases none
  have free : ∀ piece ∈ pieces (body line), GlobFree piece := fun piece member c inside =>
    globFree c (body_subset line (pieces_subset member inside))
  obtain ⟨complete, isMatch, inside⟩ := @pieces_parsed glob list _ free means
  have ran := @parse_commander_eq glob _ _ holds nonempty
  have written : (note (Access.write (line.length + 1) buffer.length)).result = some () := rfl
  have result : (parseCommander glob buffer).result =
      (parseAll glob (segments (active line))).result.map fun procs => {
        processes := procs
        command := line.dropWhile isBlank
        mode := if endsAmp line then .background else .foreground } := by
    rw [ran, bind_result written, map_result]
  have keeps : Keeps Inside (parseCommander glob buffer) ↔
      line.length + 1 < buffer.length ∧ Keeps Inside (parseAll glob (segments (active line))) := by
    rw [ran, keeps_bind written, keeps_note, keeps_map]
    exact Iff.rfl
  have split : AmpIsLast line → segments (active line) =
      (pieces (body line)).map fun piece => piece.dropWhile isBlank := by
    intro amp
    rw [active_body amp, segments_blanks]
  have parsedAll : AmpIsLast line → (parseAll glob (segments (active line))).result =
      some (((pieces (body line)).map fun piece => piece.dropWhile isBlank).map (parsed glob)) := by
    intro amp
    rw [split amp]
    exact (parse_all_complete complete).1
  constructor
  · rw [result]
    constructor
    · intro parses
      obtain ⟨job, isResult, isJob⟩ := parses
      obtain ⟨procs, isProcs, made⟩ := Option.map_eq_some_iff.mp isResult
      have amp : AmpIsLast line := by
        intro isBackground
        have mode := isJob.mode.mpr isBackground
        rw [← made] at mode
        by_cases ends : endsAmp line = true
        · exact (last_amp line).mpr ends
        · dsimp only at mode
          rw [if_neg ends] at mode
          cases mode
      refine ⟨amp, isMatch.mp ?_⟩
      have processes := isJob.processes
      rw [parsedAll amp] at isProcs
      rw [← made, ← Option.some.inj isProcs] at processes
      exact processes
    · intro good
      obtain ⟨amp, ordered⟩ := good
      rw [parsedAll amp]
      refine ⟨_, rfl, isMatch.mpr ordered, ?_⟩
      dsimp only
      by_cases ends : endsAmp line = true
      · rw [if_pos ends, (last_background ((last_amp line).mpr ends)).2]
        exact iff_of_true rfl rfl
      · have notBackground : ¬ background line = true := fun isBackground =>
          ends ((last_amp line).mp (amp isBackground))
        rw [if_neg ends]
        simp [notBackground]
  · intro amp
    rw [keeps, written_in_array_iff holds, split amp, (parse_all_complete complete).2, inside]

end Lines

/-- What the parser makes of the line is what it means, and then whether it stays in its arrays. -/
theorem parser_means_iff {memory : Nat → Byte} {inputs : List Input} {buffer : List Byte}
    (read : readLine memory inputs = some (.buffer buffer)) (globFree : GlobFree (cString buffer))
    {list : List (List Item)} (means : Means (cString buffer) list) (glob : Text → List Text) :
    (ParsesAs (parseCommander glob buffer).result list (background (cString buffer)) ↔
      AmpIsLast (cString buffer) ∧ ∀ items ∈ list, Ordered items) ∧
    (AmpIsLast (cString buffer) →
      (Keeps Inside (parseCommander glob buffer) ↔
        ((cString buffer).length + 1) % commandBufsize ≠ 0 ∧
          ∀ items ∈ list, (items.flatMap Item.texts).length % tokenBufsize ≠ 0)) :=
  held_means_iff (read_line_string read) globFree means

/-- `ls a > f | wc&` -/
def pipeline : Text :=
  [0x6c, 0x73, 0x20, 0x61, 0x20, 0x3e, 0x20, 0x66, 0x20, 0x7c, 0x20, 0x77, 0x63, 0x26]

def pipelineItems : List (List Item) :=
  [[.word [0x6c, 0x73], .word [0x61], .redirection .output [0x66]], [.word [0x77, 0x63]]]

theorem pipeline_means : Means pipeline pipelineItems := by
  have split : pieces (body pipeline) =
      [[0x6c, 0x73, 0x20, 0x61, 0x20, 0x3e, 0x20, 0x66, 0x20], [0x20, 0x77, 0x63]] := by decide
  unfold Means
  rw [split]
  apply List.Forall₂.cons
  · exact {
      words := by decide
      plain := by decide
      named := ⟨_, _, rfl⟩ }
  · apply List.Forall₂.cons
    · exact {
        words := by decide
        plain := by decide
        named := ⟨_, _, rfl⟩ }
    · exact .nil

theorem parser_means_iff_pipeline :
    ∃ buffer, readLine (fun _ => 0) (pipeline.map .char ++ [.char 0x0a]) = some (.buffer buffer) ∧
      cString buffer = pipeline ∧
      ParsesAs (parseCommander (fun _ => []) buffer).result pipelineItems true ∧
      Keeps Inside (parseCommander (fun _ => []) buffer) := by
  obtain ⟨buffer, read, holds⟩ := @typed_line (fun _ => 0) pipeline (by decide)
  have held := holds_string holds
  have globFree : GlobFree (cString buffer) := by
    rw [held]
    decide
  have means : Means (cString buffer) pipelineItems := by
    rw [held]
    exact pipeline_means
  obtain ⟨parses, inside⟩ := parser_means_iff read globFree means (fun _ => [])
  have amp : AmpIsLast (cString buffer) := by
    intro _
    rw [held]
    rfl
  have ordered : ∀ items ∈ pipelineItems, Ordered items := by
    unfold Ordered
    decide
  have isBackground : background (cString buffer) = true := by
    rw [held]
    decide
  refine ⟨buffer, read, held, ?_, ?_⟩
  · rw [← isBackground]
    exact parses.mpr ⟨amp, ordered⟩
  · apply (inside amp).mpr
    rw [held]
    decide

/-- `ls > f a`: the `a` is lost. -/
theorem word_behind_redirection_is_lost :
    ∃ buffer, readLine (fun _ => 0)
        ([0x6c, 0x73, 0x20, 0x3e, 0x20, 0x66, 0x20, 0x61].map .char ++ [.char 0x0a]) =
          some (.buffer buffer) ∧
      cString buffer = [0x6c, 0x73, 0x20, 0x3e, 0x20, 0x66, 0x20, 0x61] ∧
      Means (cString buffer) [[.word [0x6c, 0x73], .redirection .output [0x66], .word [0x61]]] ∧
      ¬ ParsesAs (parseCommander (fun _ => []) buffer).result
        [[.word [0x6c, 0x73], .redirection .output [0x66], .word [0x61]]]
        (background (cString buffer)) := by
  obtain ⟨buffer, read, holds⟩ :=
    @typed_line (fun _ => 0) [0x6c, 0x73, 0x20, 0x3e, 0x20, 0x66, 0x20, 0x61] (by decide)
  have held := holds_string holds
  have split : pieces (body [0x6c, 0x73, 0x20, 0x3e, 0x20, 0x66, 0x20, 0x61]) =
      [[0x6c, 0x73, 0x20, 0x3e, 0x20, 0x66, 0x20, 0x61]] := by decide
  have means : Means [0x6c, 0x73, 0x20, 0x3e, 0x20, 0x66, 0x20, 0x61]
      [[.word [0x6c, 0x73], .redirection .output [0x66], .word [0x61]]] := by
    unfold Means
    rw [split]
    apply List.Forall₂.cons _ .nil
    exact {
      words := by decide
      plain := by decide
      named := ⟨_, _, rfl⟩ }
  refine ⟨buffer, read, held, held ▸ means, ?_⟩
  rw [held]
  intro parses
  have ordered := ((held_means_iff holds (by decide) means).1.mp parses).2 _ List.mem_cons_self
  cases ordered (.word [0x61]) (by decide)

end UtSystems.Yash.ParserMeaning
