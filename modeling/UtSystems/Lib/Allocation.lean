import Mathlib.Data.Set.Basic

/-!
# Objects that own disjoint sets of cells

`Tiling live footprint used` says that no cell is in the footprints of two live
objects and that every cell of a live object is marked as used. Cells may be used
by no object. The rules follow an allocator: an object may appear on cells that
nobody owns, and an object that disappears may give its cells back.
-/

namespace UtSystems.Lib.Allocation

set_option autoImplicit false

variable {Object Cell : Type*}

structure Tiling (live : Set Object) (footprint : Object → Set Cell) (used : Set Cell) : Prop where
  apart : ∀ first ∈ live, ∀ second ∈ live, ∀ cell,
    cell ∈ footprint first → cell ∈ footprint second → first = second
  covered : ∀ object ∈ live, footprint object ⊆ used

variable {live fewer : Set Object} {footprint changed : Object → Set Cell} {used more : Set Cell}

/-- Objects may disappear and cells may become used. -/
theorem tiling_mono (tiling : Tiling live footprint used) (less : fewer ⊆ live)
    (same : ∀ object ∈ fewer, changed object = footprint object) (grown : used ⊆ more) :
    Tiling fewer changed more where
  apart := by
    intro first firstLive second secondLive cell inFirst inSecond
    rw [same first firstLive] at inFirst
    rw [same second secondLive] at inSecond
    exact tiling.apart first (less firstLive) second (less secondLive) cell inFirst inSecond
  covered := by
    intro object alive
    rw [same object alive]
    exact (tiling.covered object (less alive)).trans grown

/-- The marks may change as long as the cells of the live objects keep theirs. -/
theorem tiling_used (tiling : Tiling live footprint used)
    (marks : ∀ object ∈ live, footprint object ⊆ more) : Tiling live footprint more :=
  ⟨tiling.apart, marks⟩

/-- An object may appear on cells that no live object owns. -/
theorem tiling_insert (tiling : Tiling live footprint used) (object : Object)
    (same : ∀ other ∈ live, changed other = footprint other)
    (fresh : ∀ other ∈ live, ∀ cell ∈ changed object, cell ∉ footprint other)
    (marked : changed object ⊆ used) : Tiling (insert object live) changed used where
  apart := by
    have clash : ∀ other ∈ live, ∀ cell, cell ∈ changed object → cell ∉ changed other := by
      intro other alive cell here there
      rw [same other alive] at there
      exact fresh other alive cell here there
    rintro first (rfl | firstLive) second (rfl | secondLive) cell inFirst inSecond
    · rfl
    · exact absurd inSecond (clash second secondLive cell inFirst)
    · exact absurd inFirst (clash first firstLive cell inSecond)
    · rw [same first firstLive] at inFirst
      rw [same second secondLive] at inSecond
      exact tiling.apart first firstLive second secondLive cell inFirst inSecond
  covered := by
    rintro other (rfl | alive)
    · exact marked
    · rw [same other alive]
      exact tiling.covered other alive

/-- An object that disappears may give its cells back. -/
theorem tiling_release (tiling : Tiling live footprint used) (object : Object)
    (alive : object ∈ live) (less : ∀ other ∈ fewer, other ∈ live ∧ other ≠ object)
    (same : ∀ other ∈ fewer, changed other = footprint other)
    (kept : ∀ cell ∈ used, cell ∉ footprint object → cell ∈ more) :
    Tiling fewer changed more where
  apart := by
    intro first firstLive second secondLive cell inFirst inSecond
    rw [same first firstLive] at inFirst
    rw [same second secondLive] at inSecond
    exact tiling.apart first (less first firstLive).1 second (less second secondLive).1 cell
      inFirst inSecond
  covered := by
    intro other otherLive cell inside
    rw [same other otherLive] at inside
    obtain ⟨wasLive, different⟩ := less other otherLive
    apply kept cell (tiling.covered other wasLive inside)
    intro shared
    exact different (tiling.apart other wasLive object alive cell inside shared)

end UtSystems.Lib.Allocation
