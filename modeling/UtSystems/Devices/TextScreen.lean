import UtSystems.Lib.PaperRoll
import UtSystems.Libc.MemoryMoves

/-!
# The text screen of devices/vga.c

The screen shows the last lines of a roll of paper on which the characters have been printed. The
framebuffer lies in the memory that the other modules use, and `outw` to the controller stores a
byte in the register that it names.
-/

namespace UtSystems.Devices.TextScreen

open Lib.Bytes Lib.AddressRanges Lib.PaperRoll Libc.Strings Libc.MemoryMoves

set_option autoImplicit false

def colCnt : Nat := 80

def rowCnt : Nat := 25

def grayOnBlack : Byte := 0x07

/-- `ptov (0xb8000)`. -/
def fb : Addr := 0xC00B8000

/-- `&fb[y][x][k]`. -/
def cellAt (y x k : Nat) : Addr := offset fb ((y * colCnt + x) * 2 + k)

structure Vga where
  memory : Memory
  -- the registers of the controller, by their index
  crtc : Byte → Byte
  inited : Bool
  cx : Nat
  cy : Nat

/-- `outw (0x3d4, word)`. -/
def outw (crtc : Byte → Byte) (word : BitVec 16) : Byte → Byte :=
  Function.update crtc (word.setWidth 8) ((word >>> 8).setWidth 8)

def findCursor (crtc : Byte → Byte) : Nat × Nat :=
  let cp : BitVec 16 := (crtc 0x0e).setWidth 16 <<< 8 ||| (crtc 0x0f).setWidth 16
  (cp.toNat % colCnt, cp.toNat / colCnt)

def init (v : Vga) : Vga :=
  if v.inited then v
  else { v with inited := true, cx := (findCursor v.crtc).1, cy := (findCursor v.crtc).2 }

/-- The character and the attribute of a cell. -/
def setCell (memory : Memory) (y x : Nat) (c : Byte) : Memory :=
  Function.update (Function.update memory (cellAt y x 0) c) (cellAt y x 1) grayOnBlack

/-- The loop of `clear_row` up to column `x`. -/
def clearCells (memory : Memory) (y : Nat) : Nat → Memory
  | 0 => memory
  | x + 1 => setCell (clearCells memory y x) y x 0x20

def clearRow (memory : Memory) (y : Nat) : Memory := clearCells memory y colCnt

/-- The loop of `cls` up to row `y`. -/
def clearRows (memory : Memory) : Nat → Memory
  | 0 => memory
  | y + 1 => clearRow (clearRows memory y) y

def moveCursor (v : Vga) : Vga :=
  let cp := BitVec.ofNat 16 (v.cx + colCnt * v.cy)
  { v with crtc := outw (outw v.crtc (0x0e ||| (cp &&& 0xff00))) (0x0f ||| (cp <<< 8)) }

def cls (v : Vga) : Vga :=
  moveCursor { v with memory := clearRows v.memory rowCnt, cx := 0, cy := 0 }

def newline (v : Vga) : Except Fault Vga :=
  if rowCnt ≤ v.cy + 1 then do
    let (memory, _) ← memmove v.memory (cellAt 0 0 0) (cellAt 1 0 0)
      (BitVec.ofNat 32 (colCnt * 2 * (rowCnt - 1)))
    return { v with memory := clearRow memory (rowCnt - 1), cx := 0, cy := rowCnt - 1 }
  else return { v with cx := 0, cy := v.cy + 1 }

/-- `ROUND_UP`. -/
def roundUp (x step : Nat) : Nat := (x + step - 1) / step * step

/-- The switch of `vga_putc`; `speaker_beep` leaves the screen alone. -/
def write (v : Vga) (c : Word) : Except Fault Vga :=
  if c = 0x0a then newline v
  else if c = 0x0c then return cls v
  else if c = 0x08 then return (if 0 < v.cx then { v with cx := v.cx - 1 } else v)
  else if c = 0x0d then return { v with cx := 0 }
  else if c = 0x09 then
    let v := { v with cx := roundUp (v.cx + 1) 8 }
    if colCnt ≤ v.cx then newline v else return v
  else if c = 0x07 then return v
  else
    let v := { v with memory := setCell v.memory v.cy v.cx (c.setWidth 8), cx := v.cx + 1 }
    if colCnt ≤ v.cx then newline v else return v

def vgaPutc (v : Vga) (c : Word) : Except Fault Vga := do
  let v ← write (init v) c
  return moveCursor v

/-- One call after the other. -/
def vgaPutAll (v : Vga) : List Word → Except Fault Vga
  | [] => return v
  | c :: cs => do vgaPutAll (← vgaPutc v c) cs

/-! ## The paper behind the screen -/

def window : Window where
  width := colCnt
  height := rowCnt
  tabStop := 8

def blank : Byte × Byte := (0x20, grayOnBlack)

/-- What a character prints; a bell prints nothing. -/
def mark (c : Word) : Option (Mark (Byte × Byte)) :=
  if c = 0x0a then some .lineFeed
  else if c = 0x0c then some .formFeed
  else if c = 0x08 then some .backspace
  else if c = 0x0d then some .carriageReturn
  else if c = 0x09 then some .tab
  else if c = 0x07 then none
  else some (.ink (c.setWidth 8, grayOnBlack))

def shown (memory : Memory) (y x : Nat) : Byte × Byte :=
  (memory (cellAt y x 0), memory (cellAt y x 1))

/-- The screen as the loader leaves it, above blank paper. -/
def paperOf (v : Vga) : Paper (Byte × Byte) where
  cell line col := if line < rowCnt then shown v.memory line col else blank
  top := 0
  line := (findCursor v.crtc).2
  col := (findCursor v.crtc).1

structure Shows (v : Vga) (paper : Paper (Byte × Byte)) : Prop where
  placed : Placed window blank paper
  column : v.cx = paper.col
  line : paper.top + v.cy = paper.line
  cells : ∀ y < rowCnt, ∀ x < colCnt, shown v.memory y x = paper.cell (paper.top + y) x

/-- The memory outside of the framebuffer is the same. -/
def Spared (memory after : Memory) : Prop :=
  ∀ address, (∀ i < colCnt * rowCnt * 2, address ≠ offset fb i) → after address = memory address

section Cells

variable {memory : Memory} {y x row col : Nat}

theorem framebuffer_fits : Fits fb (colCnt * rowCnt * 2) := by
  unfold Fits
  decide

theorem cell_inside {k : Nat} (rowOk : y < rowCnt) (colOk : x < colCnt) (kOk : k < 2) :
    (y * colCnt + x) * 2 + k < colCnt * rowCnt * 2 := by
  unfold rowCnt at rowOk ⊢
  unfold colCnt at colOk ⊢
  omega

/-- The cells of the screen are apart. -/
theorem cell_at_injective {k j : Nat} (rowOk : y < rowCnt) (colOk : x < colCnt) (kOk : k < 2)
    (otherRow : row < rowCnt) (otherCol : col < colCnt) (jOk : j < 2)
    (same : cellAt y x k = cellAt row col j) : y = row ∧ x = col ∧ k = j := by
  have places := offset_injective framebuffer_fits (cell_inside rowOk colOk kOk)
    (cell_inside otherRow otherCol jOk) same
  unfold colCnt at colOk otherCol places
  omega

theorem set_cell_shown (rowOk : y < rowCnt) (colOk : x < colCnt) (otherRow : row < rowCnt)
    (otherCol : col < colCnt) (c : Byte) :
    shown (setCell memory y x c) row col =
      if row = y ∧ col = x then (c, grayOnBlack) else shown memory row col := by
  have first : cellAt y x 0 ≠ cellAt y x 1 := by
    intro same
    have both := cell_at_injective rowOk colOk (by omega) rowOk colOk (by omega) same
    omega
  unfold shown setCell
  by_cases here : row = y ∧ col = x
  · obtain ⟨rfl, rfl⟩ := here
    rw [if_pos ⟨rfl, rfl⟩, Function.update_of_ne first, Function.update_self, Function.update_self]
  · have apart : ∀ k < 2, ∀ j < 2, cellAt row col k ≠ cellAt y x j := by
      intro k kOk j jOk same
      have both := cell_at_injective otherRow otherCol kOk rowOk colOk jOk same
      exact here ⟨both.1, both.2.1⟩
    rw [if_neg here, Function.update_of_ne (apart 0 (by omega) 1 (by omega)),
      Function.update_of_ne (apart 0 (by omega) 0 (by omega)),
      Function.update_of_ne (apart 1 (by omega) 1 (by omega)),
      Function.update_of_ne (apart 1 (by omega) 0 (by omega))]

theorem spared_refl : Spared memory memory := fun _ _ => rfl

theorem spared_trans {middle after : Memory} (early : Spared memory middle)
    (late : Spared middle after) : Spared memory after :=
  fun address outside => (late address outside).trans (early address outside)

theorem set_cell_spares (rowOk : y < rowCnt) (colOk : x < colCnt) (c : Byte) :
    Spared memory (setCell memory y x c) := by
  intro address outside
  unfold setCell
  have apart : ∀ k < 2, address ≠ cellAt y x k :=
    fun k kOk => outside _ (cell_inside rowOk colOk kOk)
  rw [Function.update_of_ne (apart 1 (by omega)), Function.update_of_ne (apart 0 (by omega))]

theorem clear_cells_shown (rowOk : y < rowCnt) (count : Nat) (few : count ≤ colCnt)
    (otherRow : row < rowCnt) (otherCol : col < colCnt) :
    shown (clearCells memory y count) row col =
      if row = y ∧ col < count then blank else shown memory row col := by
  induction count with
  | zero => rw [if_neg (by omega), clearCells]
  | succ count ih =>
      rw [clearCells, set_cell_shown rowOk (by omega) otherRow otherCol, ih (by omega)]
      by_cases here : row = y ∧ col = count
      · rw [if_pos here, if_pos ⟨here.1, by omega⟩]
        rfl
      · rw [if_neg here]
        by_cases before : row = y ∧ col < count
        · rw [if_pos before, if_pos ⟨before.1, by omega⟩]
        · rw [if_neg before, if_neg (by omega)]

theorem clear_cells_spares (rowOk : y < rowCnt) (count : Nat) (few : count ≤ colCnt) :
    Spared memory (clearCells memory y count) := by
  induction count with
  | zero => exact spared_refl
  | succ count ih => exact spared_trans (ih (by omega)) (set_cell_spares rowOk (by omega) _)

theorem clear_row_shown (rowOk : y < rowCnt) (otherRow : row < rowCnt) (otherCol : col < colCnt) :
    shown (clearRow memory y) row col = if row = y then blank else shown memory row col := by
  unfold clearRow
  rw [clear_cells_shown rowOk colCnt (Nat.le_refl _) otherRow otherCol]
  simp only [otherCol, and_true]

theorem clear_rows_shown (count : Nat) (few : count ≤ rowCnt) (otherRow : row < rowCnt)
    (otherCol : col < colCnt) :
    shown (clearRows memory count) row col = if row < count then blank else shown memory row col := by
  induction count with
  | zero => rw [if_neg (by omega), clearRows]
  | succ count ih =>
      rw [clearRows, clear_row_shown (by omega) otherRow otherCol, ih (by omega)]
      by_cases here : row = count
      · rw [if_pos here, if_pos (by omega)]
      · rw [if_neg here]
        by_cases before : row < count
        · rw [if_pos before, if_pos (by omega)]
        · rw [if_neg before, if_neg (by omega)]

theorem clear_rows_spares (count : Nat) (few : count ≤ rowCnt) :
    Spared memory (clearRows memory count) := by
  induction count with
  | zero => exact spared_refl
  | succ count ih =>
      exact spared_trans (ih (by omega)) (clear_cells_spares (by omega) colCnt (Nat.le_refl _))

end Cells

section Writing

variable {v : Vga} {paper : Paper (Byte × Byte)}

/-- A step that shows a paper, spares the rest of the memory and leaves the controller alone. -/
structure Draws (v next : Vga) (paper : Paper (Byte × Byte)) : Prop where
  shows_ : Shows next paper
  spared : Spared v.memory next.memory
  inited : next.inited = v.inited

/-- The rows move up by one. -/
theorem scroll_shown (memory : Memory) :
    ∃ after dst, memmove memory (cellAt 0 0 0) (cellAt 1 0 0)
        (BitVec.ofNat 32 (colCnt * 2 * (rowCnt - 1))) = .ok (after, dst) ∧
      (∀ row, row + 1 < rowCnt → ∀ col < colCnt,
        shown after row col = shown memory (row + 1) col) ∧
      Spared memory after := by
  have dstFits : Fits (cellAt 0 0 0) (BitVec.ofNat 32 (colCnt * 2 * (rowCnt - 1))).toNat := by
    unfold Fits
    decide
  have srcFits : Fits (cellAt 1 0 0) (BitVec.ofNat 32 (colCnt * 2 * (rowCnt - 1))).toNat := by
    unfold Fits
    decide
  obtain ⟨after, moved, isMoved⟩ := @memmove_moves memory _ _ _ dstFits srcFits (.inr (by decide))
  have size : (BitVec.ofNat 32 (colCnt * 2 * (rowCnt - 1))).toNat = colCnt * 2 * (rowCnt - 1) := by
    decide
  rw [size] at isMoved
  refine ⟨after, _, moved, ?_, ?_⟩
  · intro row inside col colOk
    have byte : ∀ k < 2, after (cellAt row col k) = memory (cellAt (row + 1) col k) := by
      intro k kOk
      have place : (row * colCnt + col) * 2 + k < colCnt * 2 * (rowCnt - 1) := by
        unfold colCnt at colOk ⊢
        unfold rowCnt at inside ⊢
        omega
      have copied := isMoved.copied _ place
      have target : offset (cellAt 0 0 0) ((row * colCnt + col) * 2 + k) = cellAt row col k := by
        unfold cellAt
        rw [offset_offset]
        congr 1
        omega
      have source : offset (cellAt 1 0 0) ((row * colCnt + col) * 2 + k) =
          cellAt (row + 1) col k := by
        unfold cellAt
        rw [offset_offset, Nat.add_mul row]
        congr 1
        omega
      rw [target, source] at copied
      exact copied
    unfold shown
    rw [byte 0 (by omega), byte 1 (by omega)]
  · intro address outside
    apply isMoved.others
    intro i inside
    have target : offset (cellAt 0 0 0) i = offset fb i := by
      unfold cellAt
      rw [offset_offset]
      congr 1
      omega
    rw [target]
    apply outside
    unfold colCnt rowCnt at inside ⊢
    omega

/-- The cursor may stand behind the last column. -/
theorem newline_draws (placed : Placed window blank paper) (line : paper.top + v.cy = paper.line)
    (cells : ∀ y < rowCnt, ∀ x < colCnt, shown v.memory y x = paper.cell (paper.top + y) x) :
    ∃ next, newline v = .ok next ∧ Draws v next (paper.feed window) := by
  have below := placed.below
  have height : window.height = rowCnt := rfl
  unfold newline
  by_cases last : rowCnt ≤ v.cy + 1
  · rw [if_pos last]
    obtain ⟨after, dst, moved, rows, spared⟩ := scroll_shown v.memory
    have beyond : ¬paper.line + 1 < paper.top + window.height := by omega
    have isFeed := feed_placed placed
    rw [feed_last beyond] at isFeed ⊢
    rw [moved]
    refine ⟨_, rfl, ⟨isFeed, rfl, ?_, ?_⟩, ?_, rfl⟩
    · have top := placed.above
      dsimp only
      omega
    · intro y rowOk x colOk
      dsimp only
      rw [clear_row_shown (by decide) rowOk colOk]
      by_cases isLast : y = rowCnt - 1
      · rw [if_pos isLast, placed.fresh (paper.top + 1 + y) x (by omega)]
      · rw [if_neg isLast, rows y (by omega) x colOk, cells (y + 1) (by omega) x colOk]
        congr 1
        omega
    · exact spared_trans spared (clear_cells_spares (by decide) colCnt (Nat.le_refl _))
  · rw [if_neg last]
    have inside : paper.line + 1 < paper.top + window.height := by omega
    have isFeed := feed_placed placed
    rw [feed_inside inside] at isFeed ⊢
    exact ⟨_, rfl, ⟨isFeed, rfl, congrArg (· + 1) line, cells⟩, spared_refl, rfl⟩

theorem advance_draws (placed : Placed window blank paper) (line : paper.top + v.cy = paper.line)
    (cells : ∀ y < rowCnt, ∀ x < colCnt, shown v.memory y x = paper.cell (paper.top + y) x) :
    ∃ next, (if colCnt ≤ v.cx then newline v else return v) = .ok next ∧
      Draws v next (paper.moveTo window v.cx) := by
  unfold Paper.moveTo
  by_cases past : colCnt ≤ v.cx
  · have outside : ¬v.cx < window.width := Nat.not_lt.mpr past
    rw [if_pos past, if_neg outside]
    exact newline_draws placed line cells
  · have inside : v.cx < window.width := Nat.lt_of_not_le past
    rw [if_neg past, if_pos inside]
    exact ⟨v, rfl, ⟨⟨inside, placed.above, placed.below, placed.fresh⟩, rfl, line, cells⟩,
      spared_refl, rfl⟩

theorem cls_draws (placed : Placed window blank paper) :
    Draws v (cls v) (paper.print window .formFeed) where
  shows_ := by
    refine ⟨print_placed placed .formFeed, rfl, rfl, ?_⟩
    intro y rowOk x colOk
    have cleared := @clear_rows_shown v.memory y x rowCnt (Nat.le_refl _) rowOk colOk
    rw [if_pos rowOk] at cleared
    refine cleared.trans (placed.fresh _ x ?_).symm
    exact Nat.le_add_right _ _
  spared := clear_rows_spares rowCnt (Nat.le_refl _)
  inited := rfl

/-- A character is stored under the cursor. -/
theorem ink_cells (shows_ : Shows v paper) (c : Byte) :
    ∀ y < rowCnt, ∀ x < colCnt, shown (setCell v.memory v.cy v.cx c) y x =
      Function.update paper.cell paper.line
        (Function.update (paper.cell paper.line) paper.col (c, grayOnBlack)) (paper.top + y) x := by
  have column := shows_.placed.column
  have below := shows_.placed.below
  have line := shows_.line
  intro y rowOk x colOk
  rw [set_cell_shown (by unfold window at below; dsimp only at below; omega)
    (by rw [shows_.column]; exact column) rowOk colOk]
  by_cases sameRow : y = v.cy
  · have sameLine : paper.top + y = paper.line := by omega
    rw [sameLine, Function.update_self]
    by_cases sameCol : x = v.cx
    · rw [if_pos ⟨sameRow, sameCol⟩, sameCol, shows_.column, Function.update_self]
    · have otherCol : x ≠ paper.col := by
        rw [← shows_.column]
        exact sameCol
      rw [if_neg (fun both => sameCol both.2), Function.update_of_ne otherCol,
        shows_.cells y rowOk x colOk, sameLine]
  · have otherLine : paper.top + y ≠ paper.line := by omega
    rw [if_neg (fun both => sameRow both.1), Function.update_of_ne otherLine]
    exact shows_.cells y rowOk x colOk

/-- The paper after a character. -/
def printed (paper : Paper (Byte × Byte)) (c : Word) : Paper (Byte × Byte) :=
  (mark c).elim paper (paper.print window)

theorem write_draws (shows_ : Shows v paper) (c : Word) :
    ∃ next, write v c = .ok next ∧ Draws v next (printed paper c) := by
  have placed := shows_.placed
  have column := placed.column
  unfold write printed mark
  split
  · exact newline_draws placed shows_.line shows_.cells
  split
  · exact ⟨_, rfl, cls_draws placed⟩
  split
  · refine ⟨_, rfl, ?_⟩
    have kept := print_placed placed .backspace
    by_cases some_ : 0 < v.cx
    · rw [if_pos some_]
      exact ⟨⟨kept, congrArg (· - 1) shows_.column, shows_.line, shows_.cells⟩, spared_refl, rfl⟩
    · rw [if_neg some_]
      refine ⟨⟨kept, ?_, shows_.line, shows_.cells⟩, spared_refl, rfl⟩
      have isColumn := shows_.column
      dsimp only [Option.elim, Paper.print]
      omega
  split
  · exact ⟨_, rfl, ⟨print_placed placed .carriageReturn, rfl, shows_.line, shows_.cells⟩,
      spared_refl, rfl⟩
  split
  · have stop : roundUp (v.cx + 1) 8 = (paper.col / window.tabStop + 1) * window.tabStop := by
      rw [shows_.column]
      unfold roundUp window
      dsimp only
      omega
    obtain ⟨next, advanced, draws⟩ := advance_draws
      (v := { v with cx := roundUp (v.cx + 1) 8 }) placed shows_.line shows_.cells
    refine ⟨next, advanced, ?_⟩
    dsimp only [Option.elim, Paper.print]
    rw [← stop]
    exact ⟨draws.shows_, draws.spared, draws.inited⟩
  split
  · exact ⟨v, rfl, shows_, spared_refl, rfl⟩
  · have row : v.cy < rowCnt := by
      have below := placed.below
      have line := shows_.line
      unfold window at below
      dsimp only at below
      omega
    have col : v.cx < colCnt := by
      rw [shows_.column]
      exact column
    obtain ⟨next, advanced, draws⟩ := advance_draws
      (v := { v with memory := setCell v.memory v.cy v.cx (c.setWidth 8), cx := v.cx + 1 })
      (ink_placed placed (c.setWidth 8, grayOnBlack)) shows_.line (ink_cells shows_ _)
    refine ⟨next, advanced, ?_, spared_trans (set_cell_spares row col _) draws.spared, draws.inited⟩
    have shown_ := draws.shows_
    dsimp only at shown_
    rw [shows_.column] at shown_
    exact shown_

end Writing

section Cursor

variable {word : BitVec 16}

/-- A word that names a register in its low byte. -/
theorem names_register (index : Byte) (high : ∀ i < 8, word.getLsbD i = false) :
    (index.setWidth 16 ||| word).setWidth 8 = index := by
  apply BitVec.eq_of_getLsbD_eq
  intro i inside
  rw [BitVec.getLsbD_setWidth, BitVec.getLsbD_or, BitVec.getLsbD_setWidth, high i inside]
  simp [inside, Nat.lt_trans inside]

theorem register_byte (index : Byte) :
    ((index.setWidth 16 ||| word) >>> 8).setWidth 8 = (word >>> 8).setWidth 8 := by
  apply BitVec.eq_of_getLsbD_eq
  intro i inside
  simp only [BitVec.getLsbD_setWidth, BitVec.getLsbD_ushiftRight, BitVec.getLsbD_or]
  rw [BitVec.getLsbD_of_ge index (8 + i) (by omega)]
  simp

theorem high_byte_clear (cp : BitVec 16) : ∀ i < 8, (cp &&& 0xff00).getLsbD i = false := by
  have mask : ∀ i < 8, (0xff00 : BitVec 16).getLsbD i = false := by decide
  intro i inside
  rw [BitVec.getLsbD_and, mask i inside, Bool.and_false]

theorem shifted_clear (cp : BitVec 16) : ∀ i < 8, (cp <<< 8).getLsbD i = false := by
  intro i inside
  simp [BitVec.getLsbD_shiftLeft, inside]

/-- The two bytes that are stored make up the position. -/
theorem position_bytes (cp : BitVec 16) :
    (((cp &&& 0xff00) >>> 8).setWidth 8 : Byte).setWidth 16 <<< 8 |||
      (((cp <<< 8) >>> 8).setWidth 8 : Byte).setWidth 16 = cp := by
  have mask : ∀ i < 16, 8 ≤ i → (0xff00 : BitVec 16).getLsbD i = true := by decide
  apply BitVec.eq_of_getLsbD_eq
  intro i inside
  simp only [BitVec.getLsbD_or, BitVec.getLsbD_shiftLeft, BitVec.getLsbD_setWidth,
    BitVec.getLsbD_ushiftRight, BitVec.getLsbD_and]
  by_cases low : i < 8
  · simp [low, inside, show 8 + i < 16 by omega]
  · rw [show 8 + (i - 8) = i by omega, mask i inside (by omega)]
    simp [low, inside, show i - 8 < 8 by omega, show i - 8 < 16 by omega]

theorem find_cursor_moved {v : Vga} (row : v.cy < rowCnt) (col : v.cx < colCnt) :
    findCursor (moveCursor v).crtc = (v.cx, v.cy) := by
  have fits : v.cx + colCnt * v.cy < 2 ^ 16 := by
    unfold colCnt at col ⊢
    unfold rowCnt at row
    omega
  unfold findCursor moveCursor outw
  dsimp only
  generalize isPosition : BitVec.ofNat 16 (v.cx + colCnt * v.cy) = cp
  have value : cp.toNat = v.cx + colCnt * v.cy := by
    rw [← isPosition, BitVec.toNat_ofNat, Nat.mod_eq_of_lt fits]
  have first : (0x0e ||| (cp &&& 0xff00)).setWidth 8 = (0x0e : Byte) :=
    names_register 0x0e (high_byte_clear cp)
  have second : (0x0f ||| (cp <<< 8)).setWidth 8 = (0x0f : Byte) :=
    names_register 0x0f (shifted_clear cp)
  have high : ((0x0e ||| (cp &&& 0xff00)) >>> 8).setWidth 8 =
      (((cp &&& 0xff00) >>> 8).setWidth 8 : Byte) := register_byte 0x0e
  have low : ((0x0f ||| (cp <<< 8)) >>> 8).setWidth 8 = (((cp <<< 8) >>> 8).setWidth 8 : Byte) :=
    register_byte 0x0f
  rw [first, second, high, low, Function.update_self, Function.update_of_ne (by decide),
    Function.update_self, position_bytes, value]
  unfold colCnt at col ⊢
  ext
  · dsimp only
    omega
  · dsimp only
    omega

end Cursor

section Runs

variable {v : Vga} {paper : Paper (Byte × Byte)}

/-- Between two calls: the controller has the position of the cursor. -/
structure Rests (v : Vga) (paper : Paper (Byte × Byte)) : Prop where
  shows_ : Shows (init v) paper
  cursor : findCursor v.crtc = ((init v).cx, (init v).cy)

theorem init_inited (inited : v.inited = true) : init v = v := by
  unfold init
  rw [if_pos inited]

theorem init_done : (init v).inited = true := by
  unfold init
  by_cases inited : v.inited = true
  · rw [if_pos inited]
    exact inited
  · rw [if_neg inited]

theorem init_memory : (init v).memory = v.memory := by
  unfold init
  split <;> rfl

theorem vga_putc_rests (rests : Rests v paper) (c : Word) :
    ∃ next, vgaPutc v c = .ok next ∧ Rests next (printed paper c) ∧
      Spared v.memory next.memory := by
  obtain ⟨next, wrote, draws⟩ := write_draws rests.shows_ c
  have shows_ := draws.shows_
  have inited : (moveCursor next).inited = true := draws.inited.trans init_done
  refine ⟨moveCursor next, ?_, ⟨?_, ?_⟩, ?_⟩
  · unfold vgaPutc
    rw [wrote]
    rfl
  · rw [init_inited inited]
    exact ⟨shows_.placed, shows_.column, shows_.line, shows_.cells⟩
  · rw [init_inited inited]
    have column := shows_.placed.column
    have below := shows_.placed.below
    have line := shows_.line
    have height : window.height = rowCnt := rfl
    have width : window.width = colCnt := rfl
    apply find_cursor_moved
    · omega
    · rw [shows_.column]
      exact column
  · rw [← @init_memory v]
    exact draws.spared

theorem vga_put_all_rests (rests : Rests v paper) (cs : List Word) :
    ∃ last, vgaPutAll v cs = .ok last ∧ Rests last (cs.foldl printed paper) ∧
      Spared v.memory last.memory := by
  induction cs generalizing v paper with
  | nil => exact ⟨v, rfl, rests, spared_refl⟩
  | cons c cs ih =>
      obtain ⟨next, put, restsNext, spared⟩ := vga_putc_rests rests c
      obtain ⟨last, putRest, restsLast, sparedLast⟩ := ih restsNext
      refine ⟨last, ?_, restsLast, spared_trans spared sparedLast⟩
      unfold vgaPutAll
      rw [put]
      exact putRest

/-- The screen that the loader leaves. -/
theorem booted_rests (fresh : v.inited = false) (onScreen : (findCursor v.crtc).2 < rowCnt) :
    Rests v (paperOf v) := by
  have started : init v = { v with
      inited := true, cx := (findCursor v.crtc).1, cy := (findCursor v.crtc).2 } := by
    unfold init
    rw [fresh]
    rfl
  have column : (findCursor v.crtc).1 < colCnt := Nat.mod_lt _ (by decide)
  constructor
  · rw [started]
    refine ⟨⟨column, Nat.zero_le _, ?_, ?_⟩, rfl, Nat.zero_add _, ?_⟩
    · exact Nat.lt_of_lt_of_eq onScreen (Nat.zero_add _).symm
    · intro line col past
      have height : window.height = rowCnt := rfl
      unfold paperOf at past ⊢
      dsimp only at past ⊢
      rw [if_neg (by omega)]
    · intro y rowOk x _
      unfold paperOf
      dsimp only
      rw [Nat.zero_add, if_pos rowOk]
  · rw [started]

end Runs

/-- Whatever is written, the screen and its cursor are those of the paper on which the characters
have been printed, and no memory outside of the framebuffer changes. -/
theorem screen_shows_paper {v : Vga} (fresh : v.inited = false)
    (onScreen : (findCursor v.crtc).2 < rowCnt) (cs : List Word) :
    ∃ last, vgaPutAll v cs = .ok last ∧
      (∀ y < rowCnt, ∀ x < colCnt, shown last.memory y x =
        (cs.foldl printed (paperOf v)).cell ((cs.foldl printed (paperOf v)).top + y) x) ∧
      (cs.foldl printed (paperOf v)).line =
        (cs.foldl printed (paperOf v)).top + (findCursor last.crtc).2 ∧
      (cs.foldl printed (paperOf v)).col = (findCursor last.crtc).1 ∧
      Spared v.memory last.memory := by
  obtain ⟨last, put, rests, spared⟩ := vga_put_all_rests (booted_rests fresh onScreen) cs
  have cells := rests.shows_.cells
  rw [init_memory] at cells
  refine ⟨last, put, cells, ?_, ?_, spared⟩
  · rw [rests.cursor]
    exact rests.shows_.line.symm
  · rw [rests.cursor]
    exact rests.shows_.column.symm

/-- A screen full of zeros with the cursor at its start. -/
def emptyScreen : Vga where
  memory := fun _ => 0
  crtc := fun _ => 0
  inited := false
  cx := 0
  cy := 0

theorem screen_shows_paper_empty : ∃ last, vgaPutAll emptyScreen [0x41, 0x0a] = .ok last ∧
    findCursor last.crtc = (0, 1) := by
  obtain ⟨last, put, _, line, col, _⟩ :=
    @screen_shows_paper emptyScreen rfl (by decide) [0x41, 0x0a]
  refine ⟨last, put, Prod.ext col.symm ?_⟩
  have first : (([0x41, 0x0a] : List Word).foldl printed (paperOf emptyScreen)).line = 1 := rfl
  have top : (([0x41, 0x0a] : List Word).foldl printed (paperOf emptyScreen)).top = 0 := rfl
  rw [first, top] at line
  omega

end UtSystems.Devices.TextScreen
