import Mathlib.Logic.Function.Basic
import Mathlib.Tactic.Common

/-!
# Printing on paper behind a window

A roll of paper has lines without end, and a window shows `height` of them, `width` cells of each.
The cursor stays in the window: a line feed in its last line moves the paper on by a line, and a
form feed moves it on by the whole window. Below the window the paper is blank.
-/

namespace UtSystems.Lib.PaperRoll

set_option autoImplicit false

variable {Cell : Type*}

inductive Mark (Cell : Type*) where
  | ink (cell : Cell)
  | lineFeed
  | formFeed
  | backspace
  | carriageReturn
  | tab

structure Paper (Cell : Type*) where
  cell : Nat → Nat → Cell
  -- the first line in the window
  top : Nat
  line : Nat
  col : Nat

structure Window where
  width : Nat
  height : Nat
  tabStop : Nat

def Paper.feed (w : Window) (paper : Paper Cell) : Paper Cell :=
  { paper with
    top := if paper.line + 1 < paper.top + w.height then paper.top else paper.top + 1
    line := paper.line + 1
    col := 0 }

/-- Printing goes on in the next line if a line has no cell left. -/
def Paper.moveTo (w : Window) (paper : Paper Cell) (col : Nat) : Paper Cell :=
  if col < w.width then { paper with col := col } else paper.feed w

def Paper.print (w : Window) (paper : Paper Cell) : Mark Cell → Paper Cell
  | .ink cell =>
      { paper with
        cell := Function.update paper.cell paper.line
          (Function.update (paper.cell paper.line) paper.col cell) }.moveTo w (paper.col + 1)
  | .lineFeed => paper.feed w
  | .formFeed =>
      { paper with top := paper.top + w.height, line := paper.top + w.height, col := 0 }
  | .backspace => { paper with col := paper.col - 1 }
  | .carriageReturn => { paper with col := 0 }
  | .tab => paper.moveTo w ((paper.col / w.tabStop + 1) * w.tabStop)

structure Placed (w : Window) (blank : Cell) (paper : Paper Cell) : Prop where
  column : paper.col < w.width
  above : paper.top ≤ paper.line
  below : paper.line < paper.top + w.height
  fresh : ∀ line col, paper.top + w.height ≤ line → paper.cell line col = blank

section Printing

variable {w : Window} {blank : Cell} {paper : Paper Cell}

theorem feed_inside (inside : paper.line + 1 < paper.top + w.height) :
    paper.feed w = { paper with line := paper.line + 1, col := 0 } := by
  unfold Paper.feed
  rw [if_pos inside]

/-- The paper moves on. -/
theorem feed_last (last : ¬paper.line + 1 < paper.top + w.height) :
    paper.feed w =
      { paper with top := paper.top + 1, line := paper.line + 1, col := 0 } := by
  unfold Paper.feed
  rw [if_neg last]

theorem feed_placed (placed : Placed w blank paper) : Placed w blank (paper.feed w) := by
  have column := placed.column
  have above := placed.above
  have below := placed.below
  by_cases inside : paper.line + 1 < paper.top + w.height
  · rw [feed_inside inside]
    exact ⟨Nat.zero_lt_of_lt column, Nat.le_succ_of_le above, inside, placed.fresh⟩
  · rw [feed_last inside]
    refine ⟨Nat.zero_lt_of_lt column, Nat.succ_le_succ above, by dsimp only; omega, ?_⟩
    intro line col past
    apply placed.fresh line col
    dsimp only at past
    omega

theorem move_to_placed (placed : Placed w blank paper) (col : Nat) :
    Placed w blank (paper.moveTo w col) := by
  unfold Paper.moveTo
  split
  · next inside => exact ⟨inside, placed.above, placed.below, placed.fresh⟩
  · exact feed_placed placed

theorem ink_placed (placed : Placed w blank paper) (cell : Cell) :
    Placed w blank { paper with
      cell := Function.update paper.cell paper.line
        (Function.update (paper.cell paper.line) paper.col cell) } := by
  refine ⟨placed.column, placed.above, placed.below, ?_⟩
  intro line col past
  have different : line ≠ paper.line := by
    have below := placed.below
    dsimp only at past
    omega
  dsimp only
  rw [Function.update_of_ne different]
  exact placed.fresh line col past

theorem print_placed (placed : Placed w blank paper) (mark : Mark Cell) :
    Placed w blank (paper.print w mark) := by
  have column := placed.column
  have above := placed.above
  have below := placed.below
  cases mark with
  | ink cell => exact move_to_placed (ink_placed placed cell) _
  | lineFeed => exact feed_placed placed
  | formFeed =>
      refine ⟨Nat.zero_lt_of_lt column, Nat.le_refl _, by dsimp only [Paper.print]; omega, ?_⟩
      intro line col past
      apply placed.fresh line col
      dsimp only [Paper.print] at past
      omega
  | backspace => exact ⟨by dsimp only [Paper.print]; omega, above, below, placed.fresh⟩
  | carriageReturn => exact ⟨Nat.zero_lt_of_lt column, above, below, placed.fresh⟩
  | tab => exact move_to_placed placed _

end Printing

end UtSystems.Lib.PaperRoll
