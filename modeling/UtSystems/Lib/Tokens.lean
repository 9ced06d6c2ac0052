import Mathlib.Data.List.TakeWhile
import Mathlib.Tactic.Common

/-!
# Tokens of a list

The tokens of a list are its maximal nonempty pieces without a separator, in their order.
-/

namespace UtSystems.Lib.Tokens

set_option autoImplicit false

variable {Symbol : Type*} {sep : Symbol → Bool} {gap word text rest : List Symbol}

def tokens (sep : Symbol → Bool) (text : List Symbol) : List (List Symbol) :=
  (text.splitOnP sep).filter fun piece => !piece.isEmpty

theorem tokens_nil : tokens sep [] = [] := rfl

theorem tokens_sep_cons {d : Symbol} (isSep : sep d = true) :
    tokens sep (d :: rest) = tokens sep rest := by
  unfold tokens
  have split := @List.splitOnP_append_cons_of_forall_mem _ sep [] (fun _ inside => nomatch inside) d isSep rest
  rw [List.nil_append] at split
  rw [split, List.filter_cons_of_neg (by rw [List.isEmpty_nil]; exact Bool.false_ne_true)]

theorem tokens_gap (isGap : ∀ d ∈ gap, sep d = true) :
    tokens sep (gap ++ rest) = tokens sep rest := by
  induction gap with
  | nil => rfl
  | cons d gap ih =>
      rw [List.cons_append, tokens_sep_cons (isGap d List.mem_cons_self)]
      exact ih fun x inside => isGap x (List.mem_cons_of_mem d inside)

theorem tokens_last (nonempty : word ≠ []) (free : ∀ x ∈ word, sep x = false) :
    tokens sep word = [word] := by
  unfold tokens
  rw [List.splitOnP_eq_singleton free, List.filter_cons_of_pos, List.filter_nil]
  rw [List.isEmpty_eq_false_iff.mpr nonempty]
  rfl

theorem tokens_word {d : Symbol} (nonempty : word ≠ []) (free : ∀ x ∈ word, sep x = false)
    (isSep : sep d = true) : tokens sep (word ++ d :: rest) = word :: tokens sep rest := by
  unfold tokens
  rw [List.splitOnP_append_cons_of_forall_mem free d isSep, List.filter_cons_of_pos]
  rw [List.isEmpty_eq_false_iff.mpr nonempty]
  rfl

/-- What stands before the first token, and what stands behind it. -/
theorem tokens_cases (sep : Symbol → Bool) (text : List Symbol) :
    (∀ x ∈ text, sep x = true) ∧ tokens sep text = [] ∨
    ∃ gap word rest, text = gap ++ word ++ rest ∧ (∀ x ∈ gap, sep x = true) ∧
      word ≠ [] ∧ (∀ x ∈ word, sep x = false) ∧
      (rest = [] ∧ tokens sep text = [word] ∨
        ∃ d later, rest = d :: later ∧ sep d = true ∧
          tokens sep text = word :: tokens sep later) := by
  have isGap : ∀ x ∈ text.takeWhile sep, sep x = true := fun x => List.mem_takeWhile_imp
  have split := List.takeWhile_append_dropWhile (p := sep) (l := text)
  have skipped : tokens sep text = tokens sep (text.dropWhile sep) := by
    have gone : tokens sep (text.takeWhile sep ++ text.dropWhile sep) =
        tokens sep (text.dropWhile sep) := tokens_gap isGap
    rw [split] at gone
    exact gone
  cases begins : text.dropWhile sep with
  | nil =>
      left
      rw [begins, List.append_nil] at split
      rw [skipped, begins]
      exact ⟨split ▸ isGap, tokens_nil⟩
  | cons first after =>
      right
      let free : Symbol → Bool := fun x => !sep x
      have head : sep first = false := by
        have stopped := List.head?_dropWhile_not sep text
        rw [begins] at stopped
        exact stopped
      have nonempty : (first :: after).takeWhile free ≠ [] := by
        have starts : free first = true := Bool.not_eq_true' _ |>.mpr head
        rw [List.takeWhile_cons_of_pos starts]
        exact List.cons_ne_nil _ _
      have isFree : ∀ x ∈ (first :: after).takeWhile free, sep x = false := by
        intro x inside
        have imp := List.mem_takeWhile_imp inside
        exact Bool.not_eq_true' _ |>.mp imp
      have cut := List.takeWhile_append_dropWhile (p := free) (l := first :: after)
      refine ⟨text.takeWhile sep, (first :: after).takeWhile free, (first :: after).dropWhile free,
        ?_, isGap, nonempty, isFree, ?_⟩
      · rw [List.append_assoc, cut, ← begins, split]
      · cases ends : (first :: after).dropWhile free with
        | nil =>
            left
            rw [ends, List.append_nil] at cut
            rw [skipped, begins, cut]
            rw [cut] at nonempty isFree
            exact ⟨rfl, tokens_last nonempty isFree⟩
        | cons d later =>
            right
            have isSep : sep d = true := by
              have stopped := List.head?_dropWhile_not free (first :: after)
              rw [ends] at stopped
              exact Bool.not_eq_false' _ |>.mp stopped
            refine ⟨d, later, rfl, isSep, ?_⟩
            rw [skipped, begins]
            conv_lhs => rw [← cut, ends]
            exact tokens_word nonempty isFree isSep

/-- There is at most one token for each symbol. -/
theorem tokens_length (sep : Symbol → Bool) (text : List Symbol) :
    (tokens sep text).length ≤ text.length := by
  induction size : text.length using Nat.strong_induction_on generalizing text with
  | _ size ih =>
      rcases tokens_cases sep text with ⟨_, none_⟩ | ⟨gap, word, rest, split, _, nonempty, _, ends⟩
      · rw [none_]
        exact Nat.zero_le _
      · have positive := List.length_pos_iff.mpr nonempty
        have lengths := congrArg List.length split
        rw [List.length_append, List.length_append] at lengths
        rcases ends with ⟨_, all⟩ | ⟨d, later, isRest, _, all⟩
        · rw [all, List.length_singleton]
          omega
        · rw [isRest, List.length_cons] at lengths
          have shorter := ih later.length (by omega) later rfl
          rw [all, List.length_cons]
          omega

/-- The symbols of a token are symbols of the list. -/
theorem tokens_subset (sep : Symbol → Bool) (text : List Symbol) :
    ∀ token ∈ tokens sep text, token ⊆ text := by
  induction size : text.length using Nat.strong_induction_on generalizing text with
  | _ size ih =>
      rcases tokens_cases sep text with ⟨_, none_⟩ | ⟨gap, word, rest, split, _, nonempty, _, ends⟩
      · rw [none_]
        exact fun token inside => nomatch inside
      · have inText : word ⊆ text := by
          intro x inside
          rw [split]
          exact List.mem_append_left _ (List.mem_append_right _ inside)
        have positive := List.length_pos_iff.mpr nonempty
        rcases ends with ⟨_, all⟩ | ⟨d, later, isRest, _, all⟩
        · intro token inside
          rw [all, List.mem_singleton] at inside
          rw [inside]
          exact inText
        · have lengths := congrArg List.length split
          rw [isRest, List.length_append, List.length_append, List.length_cons] at lengths
          intro token inside
          rw [all] at inside
          rcases List.mem_cons.mp inside with isWord | inLater
          · rw [isWord]
            exact inText
          · intro x within
            rw [split, isRest]
            exact List.mem_append_right _ (List.mem_cons_of_mem d
              (ih later.length (by omega) later rfl token inLater within))

end UtSystems.Lib.Tokens
