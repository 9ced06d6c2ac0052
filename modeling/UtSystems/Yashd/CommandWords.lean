import UtSystems.Yashd.CommandLine
import UtSystems.Yashd.InputLine

/-!
# What parse_line_to_cmd makes of the words

When the arrays are large enough for the words of a line, and what they hold afterwards.
-/

namespace UtSystems.Yashd.CommandWords

open Lib.Bytes Lib.Tokens Yashd.CommandLine Yashd.Framing Yashd.InputLine

set_option autoImplicit false

/-- The words that are neither an operator nor its target. -/
def arguments (its : List Item) : List (List Byte) :=
  its.filterMap fun
    | .argument word => some word
    | .redirection _ _ => none

/-- The targets of an operator, in order. -/
def targets (op : Redirect) (its : List Item) : List (List Byte) :=
  its.filterMap fun
    | .argument _ => none
    | .redirection other target => if other = op then target else none

/-- An operator has a target, and its name is not too long. -/
def Item.Fits : Item → Prop
  | .argument _ => True
  | .redirection _ none => False
  | .redirection _ (some target) => target.length ≤ maxTokenSize

/-- There is room for the arguments and for each file name. -/
structure Fits (its : List Item) : Prop where
  items : ∀ item ∈ its, Item.Fits item
  arguments : (arguments its).length ≤ maxNumArgs + 1

instance (item : Item) : Decidable (Item.Fits item) :=
  match item with
  | .argument _ => .isTrue trivial
  | .redirection _ none => .isFalse id
  | .redirection _ (some target) => inferInstanceAs (Decidable (target.length ≤ maxTokenSize))

instance (its : List Item) : Decidable (Fits its) :=
  decidable_of_iff ((∀ item ∈ its, Item.Fits item) ∧ (arguments its).length ≤ maxNumArgs + 1)
    ⟨fun both => ⟨both.1, both.2⟩, fun fits => ⟨fits.items, fits.arguments⟩⟩

section Items

variable {texts : List (List Byte)}

theorem mem_items_argument {word : List Byte} (inside : .argument word ∈ items texts) :
    word ∈ texts := by
  induction texts using items.induct with
  | case1 => cases inside
  | case2 text isWord =>
      rw [items_argument [] isWord] at inside
      rcases List.mem_cons.mp inside with same | later
      · rw [Item.argument.inj same]
        exact List.mem_cons_self
      · cases later
  | case3 text op isOp =>
      rw [items_dangling isOp, List.mem_singleton] at inside
      cases inside
  | case4 text target rest isWord induction =>
      rw [items_argument _ isWord] at inside
      rcases List.mem_cons.mp inside with same | later
      · rw [Item.argument.inj same]
        exact List.mem_cons_self
      · exact List.mem_cons_of_mem _ (induction later)
  | case5 text target rest op isOp induction =>
      rw [items_operator _ _ isOp] at inside
      rcases List.mem_cons.mp inside with same | later
      · cases same
      · exact List.mem_cons_of_mem _ (List.mem_cons_of_mem _ (induction later))

theorem mem_items_target {op : Redirect} {target : List Byte}
    (inside : .redirection op (some target) ∈ items texts) : target ∈ texts := by
  induction texts using items.induct with
  | case1 => cases inside
  | case2 text isWord =>
      rw [items_argument [] isWord] at inside
      rcases List.mem_cons.mp inside with same | later
      · cases same
      · cases later
  | case3 text other isOp =>
      rw [items_dangling isOp, List.mem_singleton] at inside
      cases inside
  | case4 text next rest isWord induction =>
      rw [items_argument _ isWord] at inside
      rcases List.mem_cons.mp inside with same | later
      · cases same
      · exact List.mem_cons_of_mem _ (induction later)
  | case5 text next rest other isOp induction =>
      rw [items_operator _ _ isOp] at inside
      rcases List.mem_cons.mp inside with same | later
      · cases same
        exact List.mem_cons_of_mem _ List.mem_cons_self
      · exact List.mem_cons_of_mem _ (List.mem_cons_of_mem _ (induction later))

theorem items_length : (items texts).length ≤ texts.length := by
  induction texts using items.induct with
  | case1 => exact Nat.le_refl 0
  | case2 text isWord =>
      rw [items_argument [] isWord]
      exact Nat.le_refl 1
  | case3 text op isOp =>
      rw [items_dangling isOp]
      exact Nat.le_refl 1
  | case4 text target rest isWord induction =>
      rw [items_argument _ isWord, List.length_cons]
      exact Nat.succ_le_succ induction
  | case5 text target rest op isOp induction =>
      rw [items_operator _ _ isOp, List.length_cons, List.length_cons, List.length_cons]
      omega

end Items

/-! ## Storing -/

section Storing

variable {info result : SSoloCommandInfo} {done : List Item} {item : Item}

/-- The sizes of the arrays, and how many arguments are in the table. -/
structure Sized (info : SSoloCommandInfo) (done : List Item) : Prop where
  size : info.argvSize = (arguments done).length + 1
  room : (arguments done).length ≤ maxNumArgs + 1
  table : info.argv.length = maxNumArgs + 1
  rows : ∀ row ∈ info.argv, row.length = maxTokenSize + 1
  files : ∀ op, (info.file op).length = maxTokenSize + 1

/-- What `argv` and the file names hold. -/
structure Holds (info : SSoloCommandInfo) (done : List Item) : Prop where
  argv : (info.argv.take (arguments done).length).map cString = arguments done
  free : ∀ row ∈ info.argv.drop (arguments done).length, row = List.replicate (maxTokenSize + 1) 0
  flag : ∀ op, info.flag op = true ↔ ∃ target, .redirection op target ∈ done
  file : ∀ op target, (targets op done).getLast? = some target → cString (info.file op) = target

theorem arguments_append (first second : List Item) :
    arguments (first ++ second) = arguments first ++ arguments second := List.filterMap_append

theorem targets_append (op : Redirect) (first second : List Item) :
    targets op (first ++ second) = targets op first ++ targets op second := List.filterMap_append

theorem redirect_file (info : SSoloCommandInfo) (file : List Byte) (op other : Redirect) :
    (info.redirect file op).file other = if op = other then file else info.file other := by
  cases op <;> cases other <;> rfl

theorem redirect_flag (info : SSoloCommandInfo) (file : List Byte) (op other : Redirect) :
    (info.redirect file op).flag other = (decide (op = other) || info.flag other) := by
  cases op <;> cases other <;> rfl

theorem redirect_argv (info : SSoloCommandInfo) (file : List Byte) (op : Redirect) :
    (info.redirect file op).argv = info.argv ∧
      (info.redirect file op).argvSize = info.argvSize := by
  cases op <;> exact ⟨rfl, rfl⟩

theorem table_flag (info : SSoloCommandInfo) (argv : List (List Byte)) (argvSize : Nat)
    (op : Redirect) :
    SSoloCommandInfo.flag { info with argv := argv, argvSize := argvSize } op = info.flag op := by
  cases op <;> rfl

theorem table_file (info : SSoloCommandInfo) (argv : List (List Byte)) (argvSize : Nat)
    (op : Redirect) :
    SSoloCommandInfo.file { info with argv := argv, argvSize := argvSize } op = info.file op := by
  cases op <;> rfl

/-- An argument that is copied to its row. -/
def cell (row word : List Byte) : List Byte :=
  splice row 0 (word.take maxTokenSize ++ List.replicate (maxTokenSize - word.length) 0)

theorem add_argument_ok (sized : Sized info done) {word : List Byte}
    (below : (arguments done).length < maxNumArgs + 1) :
    ∃ row, info.argv[(arguments done).length]? = some row ∧ row ∈ info.argv ∧
      addArgument info word = .ok { info with
        argv := info.argv.set (arguments done).length (cell row word)
        argvSize := info.argvSize + 1 } := by
  have inside : (arguments done).length < info.argv.length := by
    rw [sized.table]
    exact below
  refine ⟨info.argv[(arguments done).length], List.getElem?_eq_getElem inside,
    List.getElem_mem inside, ?_⟩
  have long := sized.rows _ (List.getElem_mem inside)
  unfold addArgument
  rw [sized.size, Nat.add_sub_cancel, List.getElem?_eq_getElem inside]
  show (strncpy _ word maxTokenSize >>= _) = _
  unfold strncpy
  rw [if_neg (by rw [long]; omega)]
  rfl

theorem add_argument_full (sized : Sized info done) {word : List Byte}
    (full : maxNumArgs + 1 ≤ (arguments done).length) :
    addArgument info word = .error .overrun := by
  unfold addArgument
  rw [sized.size, Nat.add_sub_cancel, List.getElem?_eq_none (by rw [sized.table]; exact full)]

theorem cell_length {row word : List Byte} (long : row.length = maxTokenSize + 1) :
    (cell row word).length = maxTokenSize + 1 := by
  unfold cell splice
  simp only [List.take_zero, List.nil_append, Nat.zero_add, List.length_append, List.length_take,
    List.length_replicate, List.length_drop, long]
  omega

theorem strcpy_ok {dst src : List Byte} (short : src.length < dst.length) :
    strcpy dst (some src) = .ok (splice dst 0 (src ++ [0])) := if_neg (Nat.not_le.mpr short)

theorem strcpy_overrun {dst src : List Byte} (long : dst.length ≤ src.length) :
    strcpy dst (some src) = .error .overrun := if_pos long

theorem copy_file_ok (sized : Sized info done) (op : Redirect) {target : List Byte}
    (short : target.length ≤ maxTokenSize) :
    copyFile info op (some target) =
      .ok (info.redirect (splice (info.file op) 0 (target ++ [0])) op) := by
  have long := sized.files op
  show (strcpy (info.file op) (some target) >>= _) = _
  rw [strcpy_ok (by omega)]
  rfl

theorem copy_file_error (sized : Sized info done) (op : Redirect) {target : Option (List Byte)}
    (bad : ¬Item.Fits (.redirection op target)) :
    ∃ fault, copyFile info op target = .error fault ∧ fault ≠ .endless := by
  have long := sized.files op
  cases target with
  | none => exact ⟨.null, rfl, by decide⟩
  | some target =>
      have overlong : maxTokenSize < target.length := Nat.lt_of_not_le bad
      refine ⟨.overrun, ?_, by decide⟩
      show (strcpy (info.file op) (some target) >>= _) = _
      rw [strcpy_overrun (by omega)]
      rfl

theorem file_length {file target : List Byte} (long : file.length = maxTokenSize + 1)
    (short : target.length ≤ maxTokenSize) :
    (splice file 0 (target ++ [0])).length = maxTokenSize + 1 := by
  unfold splice
  simp only [List.take_zero, List.nil_append, Nat.zero_add, List.length_append,
    List.length_singleton, List.length_drop, long]
  omega

/-- An item that does not fit, or for which there is no room, ends the computation. -/
theorem store_item_cases (sized : Sized info done) (item : Item) :
    Item.Fits item ∧ (arguments (done ++ [item])).length ≤ maxNumArgs + 1 ∧
      (∃ next, storeItem info item = .ok next ∧ Sized next (done ++ [item])) ∨
    ¬(Item.Fits item ∧ (arguments (done ++ [item])).length ≤ maxNumArgs + 1) ∧
      ∃ fault, storeItem info item = .error fault ∧ fault ≠ .endless := by
  rw [arguments_append]
  cases item with
  | argument word =>
      have one : arguments [.argument word] = [word] := rfl
      rw [one, List.length_append, List.length_singleton]
      by_cases below : (arguments done).length < maxNumArgs + 1
      · left
        obtain ⟨row, _, inTable, stored⟩ := @add_argument_ok _ _ sized word below
        refine ⟨trivial, below, _, stored, ?_⟩
        exact {
          size := by
            rw [arguments_append, one, List.length_append, List.length_singleton]
            show info.argvSize + 1 = _
            rw [sized.size]
          room := by
            rw [arguments_append, one, List.length_append, List.length_singleton]
            exact below
          table := by
            rw [List.length_set]
            exact sized.table
          rows := by
            intro other inside
            rcases List.mem_or_eq_of_mem_set inside with old | new
            · exact sized.rows other old
            · rw [new]
              exact cell_length (sized.rows row inTable)
          files := by
            intro op
            rw [table_file]
            exact sized.files op }
      · right
        exact ⟨fun both => below both.2, .overrun,
          add_argument_full sized (Nat.le_of_not_lt below), by decide⟩
  | redirection op target =>
      have none_ : arguments [.redirection op target] = [] := rfl
      rw [none_, List.append_nil]
      by_cases fits : Item.Fits (.redirection op target)
      · left
        cases target with
        | none => exact absurd fits id
        | some target =>
            obtain ⟨sameTable, sameSize⟩ := redirect_argv info
              (splice (info.file op) 0 (target ++ [0])) op
            refine ⟨fits, sized.room, _, copy_file_ok sized op fits, ?_⟩
            exact {
              size := by
                rw [arguments_append, none_, List.append_nil, sameSize]
                exact sized.size
              room := by
                rw [arguments_append, none_, List.append_nil]
                exact sized.room
              table := by
                rw [sameTable]
                exact sized.table
              rows := by
                rw [sameTable]
                exact sized.rows
              files := by
                intro other
                rw [redirect_file]
                split
                · exact file_length (sized.files op) fits
                · exact sized.files other }
      · right
        exact ⟨fun both => fits both.1, copy_file_error sized op fits⟩

theorem store_items_cases (sized : Sized info done) (its : List Item) :
    ((∀ item ∈ its, Item.Fits item) ∧ (arguments (done ++ its)).length ≤ maxNumArgs + 1 ∧
      ∃ next, storeItems info its = .ok next) ∨
    ¬((∀ item ∈ its, Item.Fits item) ∧ (arguments (done ++ its)).length ≤ maxNumArgs + 1) ∧
      ∃ fault, storeItems info its = .error fault ∧ fault ≠ .endless := by
  induction its generalizing info done with
  | nil =>
      left
      rw [List.append_nil]
      exact ⟨fun item inside => (nomatch inside), sized.room, info, rfl⟩
  | cons item rest induction =>
      have split : done ++ item :: rest = done ++ [item] ++ rest := by
        rw [List.append_assoc, List.singleton_append]
      rcases store_item_cases sized item with ⟨fits, _, next, stored, after⟩ | ⟨bad, fault, stored, ends⟩
      · have bound : storeItems info (item :: rest) = storeItems next rest := by
          show (storeItem info item >>= _) = _
          rw [stored]
          rfl
        rw [bound, split, List.forall_mem_cons]
        rcases induction after with ⟨others, room, returned⟩ | ⟨bad, failed⟩
        · exact Or.inl ⟨⟨fits, others⟩, room, returned⟩
        · exact Or.inr ⟨fun both => bad ⟨both.1.2, both.2⟩, failed⟩
      · right
        refine ⟨?_, fault, ?_, ends⟩
        · rintro ⟨all, room⟩
          apply bad
          refine ⟨all item List.mem_cons_self, ?_⟩
          rw [split, arguments_append, List.length_append] at room
          omega
        · show (storeItem info item >>= _) = _
          rw [stored]
          rfl

theorem cell_string {word : List Byte} (noNul : (0 : Byte) ∉ word)
    (short : word.length ≤ maxTokenSize) :
    cString (cell (List.replicate (maxTokenSize + 1) 0) word) = word := by
  have size : (word ++ List.replicate (maxTokenSize - word.length) (0 : Byte)).length =
      maxTokenSize := by
    rw [List.length_append, List.length_replicate]
    omega
  obtain ⟨junk, isJunk⟩ := zeros_begin (maxTokenSize - word.length)
  unfold cell splice
  rw [List.take_of_length_le short, List.take_zero, List.nil_append, Nat.zero_add, size,
    List.drop_replicate, Nat.add_sub_cancel_left, List.replicate_one, List.append_assoc, isJunk]
  exact c_string_ends noNul

theorem file_string {file target : List Byte} (noNul : (0 : Byte) ∉ target) :
    cString (splice file 0 (target ++ [0])) = target := by
  unfold splice
  rw [List.take_zero, List.nil_append, List.append_assoc]
  exact c_string_ends noNul

/-- The words of the item are strings that are not cut off. -/
def Item.Whole : Item → Prop
  | .argument word => (0 : Byte) ∉ word ∧ word.length ≤ maxTokenSize
  | .redirection _ none => True
  | .redirection _ (some target) => (0 : Byte) ∉ target

theorem add_argument_holds (sized : Sized info done) (holds : Holds info done) {word : List Byte}
    (whole : Item.Whole (.argument word)) (stored : addArgument info word = .ok result) :
    Holds result (done ++ [.argument word]) := by
  have one : arguments [.argument word] = [word] := rfl
  have same : ∀ op target, Item.redirection op target ∈ done ++ [.argument word] ↔
      .redirection op target ∈ done := by
    intro op target
    rw [List.mem_append, List.mem_singleton]
    exact or_iff_left fun same => by cases same
  by_cases below : (arguments done).length < maxNumArgs + 1
  · obtain ⟨row, isRow, inTable, added⟩ := @add_argument_ok _ _ sized word below
    rw [added] at stored
    cases stored
    have inside : (arguments done).length < info.argv.length := by
      rw [sized.table]
      exact below
    have isZero : row = List.replicate (maxTokenSize + 1) 0 := by
      apply holds.free
      rw [List.getElem?_eq_getElem inside] at isRow
      rw [← Option.some.inj isRow, List.drop_eq_getElem_cons inside]
      exact List.mem_cons_self
    exact {
      argv := by
        rw [arguments_append, one, List.length_append, List.length_singleton]
        show ((info.argv.set _ (cell row word)).take _).map cString = _
        rw [List.take_add_one, List.getElem?_set_self inside, List.take_set_of_le (Nat.le_refl _),
          List.map_append, holds.argv, isZero]
        show _ ++ [cString _] = _
        rw [cell_string whole.1 whole.2]
      free := by
        intro other member
        rw [arguments_append, one, List.length_append, List.length_singleton] at member
        rw [List.drop_set_of_lt (Nat.lt_succ_self _)] at member
        apply holds.free
        rw [List.drop_eq_getElem_cons inside]
        exact List.mem_cons_of_mem _ member
      flag := by
        intro op
        simp only [same]
        rw [table_flag]
        exact holds.flag op
      file := by
        intro op target last
        rw [targets_append, show targets op [.argument word] = [] from rfl, List.append_nil] at last
        rw [table_file]
        exact holds.file op target last }
  · rw [add_argument_full sized (Nat.le_of_not_lt below)] at stored
    cases stored

theorem targets_redirection (op other : Redirect) (target : List Byte) :
    targets other [.redirection op (some target)] = if op = other then [target] else [] := by
  unfold targets
  by_cases same : op = other
  · rw [if_pos same]
    simp [same]
  · rw [if_neg same]
    simp [same]

theorem copy_file_holds (sized : Sized info done) (holds : Holds info done) {op : Redirect}
    {target : Option (List Byte)} (whole : Item.Whole (.redirection op target))
    (stored : copyFile info op target = .ok result) :
    Holds result (done ++ [.redirection op target]) := by
  have none_ : arguments [.redirection op target] = [] := rfl
  by_cases fits : Item.Fits (.redirection op target)
  · cases target with
    | none => exact absurd fits id
    | some target =>
        rw [copy_file_ok sized op fits] at stored
        cases stored
        obtain ⟨sameTable, _⟩ := redirect_argv info (splice (info.file op) 0 (target ++ [0])) op
        exact {
          argv := by
            rw [arguments_append, none_, List.append_nil, sameTable]
            exact holds.argv
          free := by
            rw [arguments_append, none_, List.append_nil, sameTable]
            exact holds.free
          flag := by
            intro other
            rw [redirect_flag, Bool.or_eq_true, decide_eq_true_iff, holds.flag]
            constructor
            · rintro (same | ⟨earlier, inside⟩)
              · rw [same]
                exact ⟨some target, List.mem_append_right _ (List.mem_singleton_self _)⟩
              · exact ⟨earlier, List.mem_append_left _ inside⟩
            · rintro ⟨found, inside⟩
              rcases List.mem_append.mp inside with earlier | last
              · exact Or.inr ⟨found, earlier⟩
              · rw [List.mem_singleton] at last
                cases last
                exact Or.inl rfl
          file := by
            intro other name last
            rw [targets_append, targets_redirection] at last
            rw [redirect_file]
            by_cases same : op = other
            · rw [if_pos same, List.getLast?_concat] at last
              rw [if_pos same, ← Option.some.inj last]
              exact file_string whole
            · rw [if_neg same, List.append_nil] at last
              rw [if_neg same]
              exact holds.file other name last }
  · obtain ⟨fault, failed, _⟩ := copy_file_error sized op fits
    rw [failed] at stored
    cases stored

theorem store_items_hold (sized : Sized info done) (holds : Holds info done) (its : List Item)
    (whole : ∀ item ∈ its, Item.Whole item) (stored : storeItems info its = .ok result) :
    Sized result (done ++ its) ∧ Holds result (done ++ its) := by
  induction its generalizing info done with
  | nil =>
      cases stored
      rw [List.append_nil]
      exact ⟨sized, holds⟩
  | cons item rest induction =>
      have split : done ++ item :: rest = done ++ [item] ++ rest := by
        rw [List.append_assoc, List.singleton_append]
      have others := fun other inside => whole other (List.mem_cons_of_mem item inside)
      rcases store_item_cases sized item with ⟨_, _, next, first, after⟩ | ⟨_, fault, first, _⟩
      · have holdsNext : Holds next (done ++ [item]) := by
          cases item with
          | argument word => exact add_argument_holds sized holds (whole _ List.mem_cons_self) first
          | redirection op target =>
              exact copy_file_holds sized holds (whole _ List.mem_cons_self) first
        have bound : storeItems info (item :: rest) = storeItems next rest := by
          show (storeItem info item >>= _) = _
          rw [first]
          rfl
        rw [bound] at stored
        rw [split]
        exact induction after holdsNext others stored
      · have failed : storeItems info (item :: rest) = .error fault := by
          show (storeItem info item >>= _) = _
          rw [first]
          rfl
        rw [failed] at stored
        cases stored

/-- A piece begins with this record. -/
def begun : SSoloCommandInfo := { SSoloCommandInfo.zeroed with argvSize := 1 }

theorem begun_sized : Sized begun [] where
  size := rfl
  room := Nat.zero_le _
  table := List.length_replicate
  rows := by
    intro row inside
    rw [List.eq_of_mem_replicate inside]
    exact List.length_replicate
  files := by
    intro op
    cases op <;> exact List.length_replicate

theorem begun_holds : Holds begun [] where
  argv := rfl
  free := fun _ inside => List.eq_of_mem_replicate inside
  flag := by
    intro op
    constructor
    · intro set_
      cases op <;> cases set_
    · rintro ⟨target, inside⟩
      cases inside
  file := fun _ _ last => nomatch last

theorem piece_cases (its : List Item) :
    Fits its ∧ (∃ next, storeItems begun its = .ok next) ∨
      ¬Fits its ∧ ∃ fault, storeItems begun its = .error fault ∧ fault ≠ .endless := by
  rcases store_items_cases begun_sized its with ⟨fit, room, returned⟩ | ⟨bad, failed⟩
  · exact Or.inl ⟨⟨fit, room⟩, returned⟩
  · exact Or.inr ⟨fun fits => bad ⟨fits.items, fits.arguments⟩, failed⟩

end Storing

/-! ## Pieces -/

section Pieces

variable {cmdMatrix result : List SSoloCommandInfo} {cmdIndex : Nat} {texts : List (List Byte)}

/-- What is in the slots from `cmdIndex` on. -/
def Unused (cmdMatrix : List SSoloCommandInfo) (cmdIndex : Nat) : Prop :=
  ∀ i, cmdIndex ≤ i → i < cmdMatrix.length → cmdMatrix[i]? = some .zeroed

theorem unused_set (unused : Unused cmdMatrix cmdIndex) (info : SSoloCommandInfo) :
    Unused (cmdMatrix.set cmdIndex info) (cmdIndex + 1) := by
  intro i behind inside
  rw [List.length_set] at inside
  rw [List.getElem?_set_ne (by omega)]
  exact unused i (by omega) inside

theorem store_pieces_cases (unused : Unused cmdMatrix cmdIndex) (texts : List (List Byte)) :
    ((texts = [] ∨ cmdIndex + texts.length ≤ cmdMatrix.length) ∧
      (∀ piece ∈ texts, Fits (items (words piece))) ∧
      ∃ result, storePieces cmdMatrix cmdIndex texts = .ok result) ∨
    ¬((texts = [] ∨ cmdIndex + texts.length ≤ cmdMatrix.length) ∧
      ∀ piece ∈ texts, Fits (items (words piece))) ∧
      ∃ fault, storePieces cmdMatrix cmdIndex texts = .error fault ∧ fault ≠ .endless := by
  induction texts generalizing cmdMatrix cmdIndex with
  | nil => exact Or.inl ⟨Or.inl rfl, fun _ inside => (nomatch inside), cmdMatrix, rfl⟩
  | cons piece rest induction =>
      have some_ : piece :: rest ≠ [] := List.cons_ne_nil _ _
      rw [or_iff_right some_, List.forall_mem_cons, List.length_cons, storePieces]
      by_cases inside : cmdIndex < cmdMatrix.length
      · rw [unused cmdIndex (Nat.le_refl _) inside]
        show _ ∨ _ ∧ ∃ fault, (storeItems begun (items (words piece)) >>= _) = _ ∧ _
        rcases piece_cases (items (words piece)) with ⟨fits, info, stored⟩ | ⟨bad, fault, failed, ends⟩
        · have bound : (storeItems begun (items (words piece)) >>= fun info =>
              storePieces (cmdMatrix.set cmdIndex info) (cmdIndex + 1) rest) =
              storePieces (cmdMatrix.set cmdIndex info) (cmdIndex + 1) rest := by
            rw [stored]
            rfl
          have counts : rest = [] ∨ cmdIndex + 1 + rest.length ≤ (cmdMatrix.set cmdIndex info).length ↔
              cmdIndex + (rest.length + 1) ≤ cmdMatrix.length := by
            rw [List.length_set]
            constructor
            · rintro (none_ | few)
              · rw [none_, List.length_nil]
                exact inside
              · omega
            · intro few
              exact Or.inr (by omega)
          have later := induction (unused_set unused info)
          rw [counts, ← bound] at later
          rcases later with ⟨few, others, returned⟩ | ⟨bad, failed⟩
          · exact Or.inl ⟨few, ⟨fits, others⟩, returned⟩
          · exact Or.inr ⟨fun both => bad ⟨both.1, both.2.2⟩, failed⟩
        · right
          refine ⟨fun both => bad both.2.1, fault, ?_, ends⟩
          rw [failed]
          rfl
      · right
        rw [List.getElem?_eq_none (Nat.le_of_not_lt inside)]
        exact ⟨fun both => by omega, .overrun, rfl, by decide⟩

/-- Each piece is in its slot, and the slots behind are as they were. -/
theorem store_pieces_slots (unused : Unused cmdMatrix cmdIndex)
    (stored : storePieces cmdMatrix cmdIndex texts = .ok result) :
    result.length = cmdMatrix.length ∧ (∀ i, i < cmdIndex → result[i]? = cmdMatrix[i]?) ∧
      (∀ i, cmdIndex + texts.length ≤ i → result[i]? = cmdMatrix[i]?) ∧
      ∀ i piece, texts[i]? = some piece → ∃ info, result[cmdIndex + i]? = some info ∧
        storeItems begun (items (words piece)) = .ok info := by
  induction texts generalizing cmdMatrix cmdIndex with
  | nil =>
      cases stored
      exact ⟨rfl, fun _ _ => rfl, fun _ _ => rfl, fun _ _ found => nomatch found⟩
  | cons piece rest induction =>
      rw [storePieces] at stored
      by_cases inside : cmdIndex < cmdMatrix.length
      · rw [unused cmdIndex (Nat.le_refl _) inside] at stored
        rcases piece_cases (items (words piece)) with ⟨_, info, returned⟩ | ⟨_, fault, failed, _⟩
        · change (storeItems begun (items (words piece)) >>= _) = _ at stored
          rw [returned] at stored
          obtain ⟨size, before, behind, slots⟩ := induction (unused_set unused info) stored
          rw [List.length_set] at size
          refine ⟨size, ?_, ?_, ?_⟩
          · intro i low
            rw [before i (by omega), List.getElem?_set_ne (by omega)]
          · intro i high
            rw [List.length_cons] at high
            rw [behind i (by omega), List.getElem?_set_ne (by omega)]
          · intro i text found
            cases i with
            | zero =>
                rw [List.getElem?_cons_zero] at found
                cases found
                refine ⟨info, ?_, returned⟩
                rw [Nat.add_zero, before cmdIndex (Nat.lt_succ_self _),
                  List.getElem?_set_self inside]
            | succ i =>
                rw [List.getElem?_cons_succ] at found
                have slot := slots i text found
                rw [Nat.add_assoc, Nat.add_comm 1] at slot
                exact slot
        · change (storeItems begun (items (words piece)) >>= _) = _ at stored
          rw [failed] at stored
          cases stored
      · rw [List.getElem?_eq_none (Nat.le_of_not_lt inside)] at stored
        cases stored

end Pieces

/-! ## Lines -/

/-- What `parse_line_to_cmd` does not check: the line has at least two characters, at most two
pieces, and each piece fits. -/
structure Safe (line : List Byte) : Prop where
  long : 2 ≤ line.length
  few : (pieces (stripped line.dropLast)).length ≤ maxPipeSize
  fits : ∀ piece ∈ pieces (stripped line.dropLast), Fits (items (words piece))

theorem zeroed_unused : Unused SCommandDetail.zeroed.cmdMatrix 0 := by
  intro i _ inside
  have bound : i < maxPipeSize := by
    rw [show SCommandDetail.zeroed.cmdMatrix = List.replicate maxPipeSize .zeroed from rfl,
      List.length_replicate] at inside
    exact inside
  exact List.getElem?_replicate_of_lt bound

/-- `lineCpy[-1]` is read. -/
theorem parse_single (last : Byte) : parseLineToCmd .zeroed [last] = .error .overrun := by
  have room : copyLine SCommandDetail.zeroed.inputString [0] =
      .ok (splice SCommandDetail.zeroed.inputString 0 [0]) := by
    refine if_neg ?_
    rw [show SCommandDetail.zeroed.inputString = List.replicate stringSize 0 from rfl,
      List.length_replicate]
    decide
  show (copyLine SCommandDetail.zeroed.inputString [0] >>= _) = _
  rw [room]
  rfl

theorem parse_line_cases (line : List Byte) (noNul : (0 : Byte) ∉ line)
    (fits : line.length ≤ stringSize) :
    Safe line ∧ (∃ record, parseLineToCmd .zeroed line = .ok record) ∨
      ¬Safe line ∧ ∃ fault, parseLineToCmd .zeroed line = .error fault ∧ fault ≠ .endless := by
  rcases List.eq_nil_or_concat line with empty | ⟨text, last, split⟩
  · right
    rw [empty]
    exact ⟨fun safe => (nomatch safe.long), .overrun, rfl, by decide⟩
  · rw [List.concat_eq_append] at split
    subst split
    have size : (text ++ [last]).length = text.length + 1 := by
      rw [List.length_append, List.length_singleton]
    by_cases empty : text = []
    · right
      rw [empty]
      exact ⟨fun safe => (nomatch safe.long), .overrun, parse_single last, by decide⟩
    · have positive := List.length_pos_iff.mpr empty
      have clean : (0 : Byte) ∉ text := fun inside => noNul (List.mem_append_left _ inside)
      rw [size] at fits
      rw [parse_line last clean empty fits]
      rcases store_pieces_cases zeroed_unused (pieces (stripped text)) with
        ⟨few, good, result, stored⟩ | ⟨bad, fault, failed, ends⟩
      · left
        refine ⟨⟨?_, ?_, ?_⟩, recordOf text result, ?_⟩
        · omega
        · rw [List.dropLast_concat]
          rcases few with none_ | few
          · rw [none_]
            exact Nat.zero_le _
          · rw [Nat.zero_add] at few
            exact few
        · rw [List.dropLast_concat]
          exact good
        · rw [stored]
          rfl
      · right
        refine ⟨?_, fault, ?_, ends⟩
        · intro safe
          have few := safe.few
          have good := safe.fits
          rw [List.dropLast_concat] at few good
          apply bad
          refine ⟨Or.inr ?_, good⟩
          rw [Nat.zero_add]
          exact few
        · rw [failed]
          rfl

/-- For every body in the receive buffer: nothing is accessed outside of the arrays and `strcpy` is
not called with the null pointer, if and only if the line is safe. The loops end in any case. -/
theorem parser_stays_inside_iff (buf : List Byte) (received : 4 + (cString buf).length ≤ bufsize) :
    ((∃ record, yashdHandleCmd buf = .ok record) ↔ Safe (cString buf)) ∧
      yashdHandleCmd buf ≠ .error .endless := by
  have fits : (cString buf).length ≤ stringSize := by
    unfold stringSize
    unfold bufsize at received
    omega
  unfold yashdHandleCmd
  rcases parse_line_cases _ (c_string_no_nul buf) fits with ⟨safe, record, parsed⟩ | ⟨bad, fault, failed, ends⟩
  · rw [parsed]
    exact ⟨⟨fun _ => safe, fun _ => ⟨record, rfl⟩⟩, fun same => nomatch same⟩
  · rw [failed]
    refine ⟨⟨fun parsed => ?_, fun safe => absurd safe bad⟩, fun same => ends (Except.error.inj same)⟩
    obtain ⟨record, parsed⟩ := parsed
    cases parsed

/-- `ls > f|wc` -/
theorem parser_stays_inside_pipe :
    ∃ record, yashdHandleCmd [108, 115, 32, 62, 32, 102, 124, 119, 99, 10] = .ok record :=
  (parser_stays_inside_iff [108, 115, 32, 62, 32, 102, 124, 119, 99, 10]
    (by decide +kernel)).1.mpr ⟨by decide +kernel, by decide +kernel, by decide +kernel⟩

/-- `ls >` -/
theorem missing_target_is_null :
    4 + (cString [108, 115, 32, 62, 10]).length ≤ bufsize ∧
      ¬∃ record, yashdHandleCmd [108, 115, 32, 62, 10] = .ok record := by
  have fails : yashdHandleCmd [108, 115, 32, 62, 10] = .error .null := by decide +kernel
  refine ⟨by decide +kernel, ?_⟩
  rintro ⟨record, parsed⟩
  rw [fails] at parsed
  cases parsed

/-- What the record of a piece says of its items. -/
structure Means (info : SSoloCommandInfo) (its : List Item) : Prop where
  size : info.argvSize = (arguments its).length + 1
  argv : (info.argv.take (info.argvSize - 1)).map cString = arguments its
  flag : ∀ op, info.flag op = true ↔ ∃ target, .redirection op target ∈ its
  file : ∀ op target, (targets op its).getLast? = some target → cString (info.file op) = target

def Item.followed : Item → Bool
  | .redirection _ none => false
  | _ => true

/-- A line before its newline. It is no longer than the receive buffer of `yash_thread`. -/
structure Proper (text : List Byte) : Prop where
  nonempty : text ≠ []
  noNul : (0 : Byte) ∉ text
  short : text.length < bufsize
  few : (pieces (stripped text)).length ≤ maxPipeSize
  counts : ∀ piece ∈ pieces (stripped text), (words piece).length ≤ maxNumArgs
  sizes : ∀ piece ∈ pieces (stripped text), ∀ word ∈ words piece, word.length ≤ maxTokenSize
  followed : ∀ piece ∈ pieces (stripped text), ∀ item ∈ items (words piece), Item.followed item = true

theorem proper_fits {text piece : List Byte} (proper : Proper text)
    (inside : piece ∈ pieces (stripped text)) : Fits (items (words piece)) where
  items := by
    intro item member
    cases item with
    | argument word => trivial
    | redirection op target =>
        cases target with
        | none => exact absurd (proper.followed piece inside _ member) Bool.false_ne_true
        | some target => exact proper.sizes piece inside target (mem_items_target member)
  arguments := by
    have counted := @items_length (words piece)
    have filtered : (arguments (items (words piece))).length ≤ (items (words piece)).length :=
      List.length_filterMap_le _ _
    have bound := proper.counts piece inside
    omega

theorem proper_whole {text piece : List Byte} (proper : Proper text)
    (inside : piece ∈ pieces (stripped text)) : ∀ item ∈ items (words piece), Item.Whole item := by
  have clean : ∀ word ∈ words piece, (0 : Byte) ∉ word := by
    intro word member isNul
    apply stripped_no_nul proper.noNul
    exact tokens_subset _ _ piece inside (tokens_subset _ _ word member isNul)
  intro item member
  cases item with
  | argument word =>
      have listed := mem_items_argument member
      exact ⟨clean word listed, proper.sizes piece inside word listed⟩
  | redirection op target =>
      cases target with
      | none => trivial
      | some target => exact clean target (mem_items_target member)

/-- Each piece is in its slot, the other slots are as they were, and the line is a background job
if and only if its last character is `&`. -/
theorem line_is_parsed (text : List Byte) (proper : Proper text) :
    ∃ record, parseLineToCmd .zeroed (text ++ [10]) = .ok record ∧
      (record.isBackground = true ↔ text.getLast? = some 0x26) ∧
      record.cmdMatrix.length = maxPipeSize ∧
      (∀ (i : Nat) (piece : List Byte), (pieces (stripped text))[i]? = some piece →
        ∃ info, record.cmdMatrix[i]? = some info ∧ Means info (items (words piece))) ∧
      ∀ i : Nat, (pieces (stripped text)).length ≤ i → i < maxPipeSize →
        record.cmdMatrix[i]? = some .zeroed := by
  have short : text.length < stringSize := by
    have received := proper.short
    unfold bufsize at received
    unfold stringSize
    omega
  rw [parse_line 10 proper.noNul proper.nonempty short]
  rcases store_pieces_cases zeroed_unused (pieces (stripped text)) with
    ⟨few, good, result, stored⟩ | ⟨bad, _⟩
  · obtain ⟨size, _, behind, slots⟩ := store_pieces_slots zeroed_unused stored
    refine ⟨recordOf text result, ?_, ?_, size, ?_, ?_⟩
    · rw [stored]
      rfl
    · exact decide_eq_true_iff
    · intro i piece found
      obtain ⟨info, slot, returned⟩ := slots i piece found
      rw [Nat.zero_add] at slot
      obtain ⟨sized, holds⟩ := store_items_hold begun_sized begun_holds _
        (proper_whole proper (List.mem_of_getElem? found)) returned
      refine ⟨info, slot, sized.size, ?_, holds.flag, holds.file⟩
      rw [sized.size, Nat.add_sub_cancel]
      exact holds.argv
    · intro i after below
      show result[i]? = _
      rw [behind i (by omega)]
      exact zeroed_unused i (Nat.zero_le _) below
  · exfalso
    apply bad
    refine ⟨Or.inr ?_, fun piece inside => proper_fits proper inside⟩
    rw [Nat.zero_add]
    exact proper.few

/-- `ls > f|wc &` -/
theorem line_is_parsed_pipe :
    ∃ record, parseLineToCmd .zeroed
        ([108, 115, 32, 62, 32, 102, 124, 119, 99, 32, 38] ++ [10]) = .ok record ∧
      record.isBackground = true ∧ ∃ info, record.cmdMatrix[0]? = some info ∧
        Means info [.argument [108, 115], .redirection .stdOut (some [102])] := by
  have proper : Proper [108, 115, 32, 62, 32, 102, 124, 119, 99, 32, 38] :=
    ⟨by decide, by decide, by decide, by decide +kernel, by decide +kernel, by decide +kernel,
      by decide +kernel⟩
  obtain ⟨record, parsed, background, _, slots, _⟩ := line_is_parsed _ proper
  obtain ⟨info, slot, means⟩ := slots 0 [108, 115, 32, 62, 32, 102] (by decide +kernel)
  refine ⟨record, parsed, background.mpr (by decide), info, slot, ?_⟩
  rw [show items (words [108, 115, 32, 62, 32, 102]) =
    [.argument [108, 115], .redirection .stdOut (some [102])] by decide +kernel] at means
  exact means

end UtSystems.Yashd.CommandWords
