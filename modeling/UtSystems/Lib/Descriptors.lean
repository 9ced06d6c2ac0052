import Mathlib.Logic.Function.Basic
import Mathlib.Tactic.Common

/-!
# Tables of file descriptors

A table says what is open under each descriptor. Only finitely many descriptors are in use, so that
there is a lowest one that is not.
-/

namespace UtSystems.Lib.Descriptors

set_option autoImplicit false

variable {File : Type}

structure Table (File : Type) where
  entry : Nat → Option File
  bound : Nat
  unused : ∀ fd, bound ≤ fd → entry fd = none

variable {t : Table File} {file : File} {fd other old new : Nat}

def Table.IsOpen (t : Table File) (fd : Nat) : Prop := t.entry fd ≠ none

/-- Under some descriptor this file is open. -/
def Table.Holds (t : Table File) (file : File) : Prop := ∃ fd, t.entry fd = some file

theorem is_open_some (found : t.entry fd = some file) : t.IsOpen fd := by
  intro none
  rw [found] at none
  cases none

def lowestFrom (entry : Nat → Option File) : Nat → Nat → Nat
  | 0, fd => fd
  | rounds + 1, fd => if (entry fd).isNone then fd else lowestFrom entry rounds (fd + 1)

/-- The lowest descriptor that is not in use. -/
def Table.lowest (t : Table File) : Nat := lowestFrom t.entry t.bound 0

def Table.put (t : Table File) (fd : Nat) (file : File) : Table File where
  entry := Function.update t.entry fd (some file)
  bound := max t.bound (fd + 1)
  unused := by
    intro other high
    rw [Function.update_of_ne (by omega)]
    exact t.unused other (by omega)

def Table.close (t : Table File) (fd : Nat) : Table File where
  entry := Function.update t.entry fd none
  bound := t.bound
  unused := by
    intro other high
    by_cases same : other = fd
    · rw [same, Function.update_self]
    · rw [Function.update_of_ne same]
      exact t.unused other high

/-- The descriptor and the table after it is given out. -/
def Table.openFile (t : Table File) (file : File) : Nat × Table File :=
  (t.lowest, t.put t.lowest file)

def Table.dup2 (t : Table File) (old new : Nat) : Table File :=
  match t.entry old with
  | none => t
  | some file => t.put new file

theorem lowest_from_free {entry : Nat → Option File} (rounds : Nat) {fd : Nat}
    (unused : entry (fd + rounds) = none) : entry (lowestFrom entry rounds fd) = none := by
  induction rounds generalizing fd with
  | zero => exact unused
  | succ rounds ih =>
      unfold lowestFrom
      split
      · next free => exact Option.isNone_iff_eq_none.mp free
      · apply ih
        rw [Nat.add_assoc, Nat.add_comm 1]
        exact unused

theorem lowest_free (t : Table File) : t.entry t.lowest = none := by
  apply lowest_from_free
  rw [Nat.zero_add]
  exact t.unused t.bound (Nat.le_refl _)

/-- A new descriptor comes behind those that are all in use. -/
theorem lowest_behind {count : Nat} (used : ∀ fd < count, t.IsOpen fd) : count ≤ t.lowest := by
  apply Nat.le_of_not_lt
  intro before
  exact used t.lowest before (lowest_free t)

theorem open_not_lowest (isOpen : t.IsOpen fd) : fd ≠ t.lowest := by
  intro same
  rw [same] at isOpen
  exact isOpen (lowest_free t)

@[simp] theorem put_entry_self (t : Table File) (fd : Nat) (file : File) :
    (t.put fd file).entry fd = some file := Function.update_self _ _ _

theorem put_entry_of_ne (different : other ≠ fd) : (t.put fd file).entry other = t.entry other :=
  Function.update_of_ne different _ _

@[simp] theorem close_entry_self (t : Table File) (fd : Nat) : (t.close fd).entry fd = none :=
  Function.update_self _ _ _

theorem close_entry_of_ne (different : other ≠ fd) : (t.close fd).entry other = t.entry other :=
  Function.update_of_ne different _ _

/-- Closing what was just opened. -/
theorem close_put_entry (free : t.entry fd = none) :
    ((t.put fd file).close fd).entry = t.entry := by
  funext other
  by_cases same : other = fd
  · rw [same, close_entry_self, free]
  · rw [close_entry_of_ne same, put_entry_of_ne same]

theorem dup2_entry_self (isOpen : t.entry old = some file) :
    (t.dup2 old new).entry new = some file := by
  unfold Table.dup2
  rw [isOpen]
  exact put_entry_self t new file

theorem dup2_entry_of_ne (different : other ≠ new) :
    (t.dup2 old new).entry other = t.entry other := by
  unfold Table.dup2
  cases t.entry old with
  | none => rfl
  | some file => exact put_entry_of_ne different

/-- Moving a descriptor: `dup2` and `close`. -/
def Table.move (t : Table File) (old new : Nat) : Table File :=
  if old ≠ new then (t.dup2 old new).close old else t

theorem move_entry_new (isOpen : t.entry old = some file) :
    (t.move old new).entry new = some file := by
  unfold Table.move
  split
  · next different =>
    rw [close_entry_of_ne (Ne.symm different)]
    exact dup2_entry_self isOpen
  · next same =>
    rw [← Decidable.not_not.mp same]
    exact isOpen

theorem move_entry_of_ne (notOld : other ≠ old) (notNew : other ≠ new) :
    (t.move old new).entry other = t.entry other := by
  unfold Table.move
  split
  · rw [close_entry_of_ne notOld]
    exact dup2_entry_of_ne notNew
  · rfl

theorem move_entry_old (different : old ≠ new) : (t.move old new).entry old = none := by
  unfold Table.move
  rw [if_pos different]
  exact close_entry_self _ _

/-- What is open after a move was open before, and not under the old descriptor. -/
theorem move_holds (isOpen : (t.move old new).entry fd = some file) :
    fd = new ∧ t.entry old = some file ∨ fd ≠ old ∧ t.entry fd = some file := by
  by_cases same : old = new
  · unfold Table.move at isOpen
    rw [if_neg (Decidable.not_not.mpr same)] at isOpen
    by_cases isOld : fd = old
    · exact Or.inl ⟨isOld.trans same, isOld ▸ isOpen⟩
    · exact Or.inr ⟨isOld, isOpen⟩
  · by_cases isOld : fd = old
    · rw [isOld, move_entry_old same] at isOpen
      cases isOpen
    · by_cases isNew : fd = new
      · cases held : t.entry old with
        | none =>
            unfold Table.move Table.dup2 at isOpen
            rw [if_pos same, held, close_entry_of_ne isOld] at isOpen
            exact Or.inr ⟨isOld, isOpen⟩
        | some moved =>
            rw [isNew, move_entry_new held] at isOpen
            exact Or.inl ⟨isNew, isOpen⟩
      · rw [move_entry_of_ne isOld isNew] at isOpen
        exact Or.inr ⟨isOld, isOpen⟩

end UtSystems.Lib.Descriptors
