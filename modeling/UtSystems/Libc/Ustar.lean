import UtSystems.Lib.Bytes
import UtSystems.Lib.Numerals
import Mathlib.Algebra.BigOperators.Group.List.Basic
import Mathlib.Algebra.Order.BigOperators.Group.List
import Mathlib.Algebra.Order.Ring.Nat

/-!
# Archive headers

`lib/ustar.c` writes the header of a file as a sector of fixed fields and reads it back. Strings
are lists of bytes without their terminating NUL.
-/

namespace UtSystems.Libc.Ustar

open Lib.Bytes Lib.Numerals

set_option autoImplicit false

/-- `USTAR_HEADER_SIZE`. -/
def ustarHeaderSize : Nat := 512

/-- An array of `width` bytes. -/
abbrev Field (width : Nat) := { bytes : List Byte // bytes.length = width }

/-- A zeroed array into which `text` is copied as far as there is room for it and a NUL. -/
def Field.string (width : Nat) (text : List Byte) : Field width where
  val := text.take (width - 1) ++ List.replicate (width - (text.take (width - 1)).length) 0
  property := by
    rw [List.length_append, List.length_replicate, List.length_take]
    omega

def Field.zeros (width : Nat) : Field width := ⟨List.replicate width 0, List.length_replicate⟩

structure UstarHeader where
  name : Field 100
  mode : Field 8
  uid : Field 8
  gid : Field 8
  size : Field 12
  mtime : Field 12
  chksum : Field 8
  typeflag : Field 1
  linkname : Field 100
  magic : Field 6
  version : Field 2
  uname : Field 32
  gname : Field 32
  devmajor : Field 8
  devminor : Field 8
  prefix_ : Field 155
  padding : Field 12

/-- The fields in front of `chksum`. -/
def UstarHeader.front (h : UstarHeader) : List (List Byte) :=
  [h.name.val, h.mode.val, h.uid.val, h.gid.val, h.size.val, h.mtime.val]

/-- The fields behind `chksum`. -/
def UstarHeader.back (h : UstarHeader) : List (List Byte) :=
  [h.typeflag.val, h.linkname.val, h.magic.val, h.version.val, h.uname.val, h.gname.val,
    h.devmajor.val, h.devminor.val, h.prefix_.val, h.padding.val]

def UstarHeader.fields (h : UstarHeader) : List (List Byte) := h.front ++ h.chksum.val :: h.back

def widths : List Nat := [100, 8, 8, 8, 12, 12, 8, 1, 100, 6, 2, 32, 32, 8, 8, 155, 12]

theorem fields_widths (h : UstarHeader) : h.fields.map List.length = widths := by
  simp only [UstarHeader.fields, UstarHeader.front, UstarHeader.back, List.cons_append,
    List.nil_append, List.map_cons, List.map_nil, h.name.property, h.mode.property, h.uid.property,
    h.gid.property, h.size.property, h.mtime.property, h.chksum.property, h.typeflag.property,
    h.linkname.property, h.magic.property, h.version.property, h.uname.property, h.gname.property,
    h.devmajor.property, h.devminor.property, h.prefix_.property, h.padding.property, widths]

theorem front_length (h : UstarHeader) : h.front.flatten.length = 148 := by
  have sizes : h.front.map List.length = widths.take 6 := by
    rw [← fields_widths h, ← List.map_take]
    rfl
  rw [List.length_flatten, sizes]
  rfl

/-- The header in memory. -/
def UstarHeader.bytes (h : UstarHeader) : Field ustarHeaderSize where
  val := h.fields.flatten
  property := by
    rw [List.length_flatten, fields_widths]
    rfl

def cut (bytes : Field ustarHeaderSize) (ofs width : Nat)
    (inside : ofs + width ≤ ustarHeaderSize) : Field width where
  val := (bytes.val.drop ofs).take width
  property := by
    rw [List.length_take, List.length_drop, bytes.property]
    omega

/-- The fields of a header in memory. -/
def ustarHeader (bytes : Field ustarHeaderSize) : UstarHeader where
  name := cut bytes 0 100 (by decide)
  mode := cut bytes 100 8 (by decide)
  uid := cut bytes 108 8 (by decide)
  gid := cut bytes 116 8 (by decide)
  size := cut bytes 124 12 (by decide)
  mtime := cut bytes 136 12 (by decide)
  chksum := cut bytes 148 8 (by decide)
  typeflag := cut bytes 156 1 (by decide)
  linkname := cut bytes 157 100 (by decide)
  magic := cut bytes 257 6 (by decide)
  version := cut bytes 263 2 (by decide)
  uname := cut bytes 265 32 (by decide)
  gname := cut bytes 297 32 (by decide)
  devmajor := cut bytes 329 8 (by decide)
  devminor := cut bytes 337 8 (by decide)
  prefix_ := cut bytes 345 155 (by decide)
  padding := cut bytes 500 12 (by decide)

theorem cut_field (h : UstarHeader) {ofs width : Nat} {inside : ofs + width ≤ ustarHeaderSize}
    (index : Nat) (before : (widths.take index).sum = ofs) {field : Field width}
    (here : h.fields[index]? = some field.val) : cut h.bytes ofs width inside = field := by
  apply Subtype.ext
  obtain ⟨within, eq⟩ := List.getElem?_eq_some_iff.mp here
  change (h.fields.flatten.drop ofs).take width = field.val
  rw [← before, ← fields_widths h, List.drop_sum_flatten, List.drop_eq_getElem_cons within,
    List.flatten_cons, eq]
  exact List.take_left' field.property

theorem ustar_header_bytes (h : UstarHeader) : ustarHeader h.bytes = h := by
  obtain ⟨name, mode, uid, gid, size, mtime, chksum, typeflag, linkname, magic, version, uname,
    gname, devmajor, devminor, prefix_, padding⟩ := h
  unfold ustarHeader
  congr 1
  · exact cut_field _ 0 rfl rfl
  · exact cut_field _ 1 rfl rfl
  · exact cut_field _ 2 rfl rfl
  · exact cut_field _ 3 rfl rfl
  · exact cut_field _ 4 rfl rfl
  · exact cut_field _ 5 rfl rfl
  · exact cut_field _ 6 rfl rfl
  · exact cut_field _ 7 rfl rfl
  · exact cut_field _ 8 rfl rfl
  · exact cut_field _ 9 rfl rfl
  · exact cut_field _ 10 rfl rfl
  · exact cut_field _ 11 rfl rfl
  · exact cut_field _ 12 rfl rfl
  · exact cut_field _ 13 rfl rfl
  · exact cut_field _ 14 rfl rfl
  · exact cut_field _ 15 rfl rfl
  · exact cut_field _ 16 rfl rfl

/-! ## Checksums -/

/-- `offsetof (struct ustar_header, chksum)` and the end of that field. -/
def chksumStart : Nat := 148
def chksumEnd : Nat := 156

def calculateChksum (header : Field ustarHeaderSize) : Nat :=
  ((List.range ustarHeaderSize).map fun i =>
    if chksumStart ≤ i ∧ i < chksumEnd then 0x20 else (header.val.getD i 0).toNat).sum

/-- The checksum does not depend on the checksum field. -/
theorem chksum_without (h : UstarHeader) (chksum : Field 8) :
    calculateChksum { h with chksum := chksum }.bytes = calculateChksum h.bytes := by
  refine congrArg List.sum (List.map_congr_left ?_)
  intro i _
  by_cases inField : chksumStart ≤ i ∧ i < chksumEnd
  · rw [if_pos inField, if_pos inField]
  · rw [if_neg inField, if_neg inField]
    congr 1
    have size := front_length h
    have split : ∀ chksum : Field 8, { h with chksum := chksum }.bytes.val =
        h.front.flatten ++ (chksum.val ++ h.back.flatten) := by
      intro chksum
      change (h.front ++ chksum.val :: h.back).flatten = _
      rw [List.flatten_append, List.flatten_cons]
    have same := split h.chksum
    change h.bytes.val = _ at same
    rw [split, same, List.getD_eq_getElem?_getD, List.getD_eq_getElem?_getD]
    unfold chksumStart chksumEnd at inField
    by_cases before : i < 148
    · rw [List.getElem?_append_left (by omega), List.getElem?_append_left (by omega)]
    · have past : ∀ chksum : Field 8, (h.front.flatten ++ (chksum.val ++ h.back.flatten))[i]? =
          h.back.flatten[i - 148 - 8]? := by
        intro chksum
        have width := chksum.property
        rw [List.getElem?_append_right (by omega), List.getElem?_append_right (by omega), width, size]
      rw [past, past]

theorem chksum_bound (header : Field ustarHeaderSize) : calculateChksum header < 8 ^ 7 := by
  have each : ∀ value ∈ (List.range ustarHeaderSize).map fun i =>
      if chksumStart ≤ i ∧ i < chksumEnd then 0x20 else (header.val.getD i 0).toNat,
      value ≤ 255 := by
    intro value member
    obtain ⟨i, _, eq⟩ := List.mem_map.mp member
    rw [← eq]
    split
    · decide
    · have bound := (header.val.getD i 0).isLt
      omega
  have most := List.sum_le_card_nsmul _ 255 each
  rw [List.length_map, List.length_range] at most
  exact Nat.lt_of_le_of_lt most (by decide)

/-! ## Octal fields -/

/-- What `%0<width>o` prints of a number below `8 ^ width`. -/
def octal (width value : Nat) : List Byte :=
  (digits 8 width value).map fun digit => BitVec.ofNat 8 (0x30 + digit)

/-- `ULONG_MAX`. -/
def ulongMax : Nat := 2 ^ 32 - 1

/-- The loop of `parse_octal_field`, from the offset `ofs` on. -/
def parseOctalLoop : List Byte → Nat → Nat → Option Nat
  | [], _, _ => none
  | c :: rest, ofs, value =>
      if 0x30 ≤ c ∧ c ≤ 0x37 then
        if ulongMax / 8 < value then none
        else parseOctalLoop rest (ofs + 1) (c.toNat - 0x30 + value * 8)
      else if c = 0x20 ∨ c = 0 then
        if 0 < ofs then some value else none
      else none

def parseOctalField (s : List Byte) : Option Nat := parseOctalLoop s 0 0

theorem parse_octal_loop_digits {numeral : List Nat} {ofs value : Nat}
    (small : ∀ digit ∈ numeral, digit < 8) (fits : readDigits 8 value numeral < 2 ^ 32)
    (positive : 0 < ofs + numeral.length) (rest : List Byte) :
    parseOctalLoop ((numeral.map fun digit => BitVec.ofNat 8 (0x30 + digit)) ++ 0 :: rest) ofs
      value = some (readDigits 8 value numeral) := by
  induction numeral generalizing ofs value with
  | nil =>
      have begun : 0 < ofs := by simpa using positive
      simp [parseOctalLoop, readDigits, begun]
  | cons digit numeral induction =>
      have digitSmall := small digit List.mem_cons_self
      have isDigit : (BitVec.ofNat 8 (0x30 + digit)).toNat = 0x30 + digit := by
        rw [BitVec.toNat_ofNat]
        omega
      have inRange : (0x30 : Byte) ≤ BitVec.ofNat 8 (0x30 + digit) ∧
          BitVec.ofNat 8 (0x30 + digit) ≤ (0x37 : Byte) := by
        rw [BitVec.le_def, BitVec.le_def, isDigit]
        exact ⟨by simp, by simp; omega⟩
      rw [read_digits_cons] at fits
      have grows := read_digits_mono (by decide : 0 < 8) (value * 8 + digit) numeral
      have noOverflow : ¬ulongMax / 8 < value := by
        unfold ulongMax
        omega
      rw [List.map_cons, List.cons_append, parseOctalLoop, if_pos inRange, if_neg noOverflow,
        isDigit, Nat.add_sub_cancel_left, Nat.add_comm digit, read_digits_cons]
      exact induction (fun other member => small other (List.mem_cons_of_mem _ member)) fits
        (by omega)

/-- An octal field is read back. -/
theorem parse_octal_field_octal {width value : Nat} (positive : 0 < width)
    (fits : value < 8 ^ width) (small : value < 2 ^ 32) :
    parseOctalField (Field.string (width + 1) (octal width value)).val = some value := by
  have size : (octal width value).length = width := by
    rw [octal, List.length_map, digits_length]
  have whole : (octal width value).take width = octal width value :=
    List.take_of_length_le (Nat.le_of_eq size)
  have bytes : (Field.string (width + 1) (octal width value)).val =
      octal width value ++ 0 :: [] := by
    simp only [Field.string, Nat.add_sub_cancel, whole, size, Nat.add_sub_cancel_left]
    rfl
  have same := read_digits fits
  rw [bytes, parseOctalField, octal, parse_octal_loop_digits, same]
  · exact fun digit member => digit_lt (by decide) member
  · rw [same]
    exact small
  · rw [digits_length]
    omega

/-! ## Names -/

/-- `file_name` begins with a slash, a `./` or a `../`. -/
def antisocial (fileName : List Byte) : Bool :=
  [0x2f].isPrefixOf fileName || [0x2e, 0x2f].isPrefixOf fileName ||
    [0x2e, 0x2e, 0x2f].isPrefixOf fileName

/-- `strchr (file_name, '/') + 1`. -/
def afterSlash (fileName : List Byte) : List Byte := (fileName.dropWhile (· ≠ 0x2f)).drop 1

/-- The loop of `strip_antisocial_prefixes`. Each round makes the name shorter. -/
def stripLoop : Nat → List Byte → List Byte
  | 0, fileName => fileName
  | rounds + 1, fileName =>
      if antisocial fileName then stripLoop rounds (afterSlash fileName) else fileName

def stripAntisocialPrefixes (fileName : List Byte) : List Byte :=
  let stripped := stripLoop fileName.length fileName
  if stripped = [] ∨ stripped = [0x2e, 0x2e] then [0x2e] else stripped

theorem after_slash_shorter {fileName : List Byte} (there : fileName ≠ []) :
    (afterSlash fileName).length < fileName.length := by
  have positive := List.length_pos_iff.mpr there
  have less := (List.dropWhile_sublist (fun byte : Byte => decide (byte ≠ 0x2f)) (l := fileName)).length_le
  rw [afterSlash, List.length_drop]
  omega

theorem strip_loop_social {rounds : Nat} {fileName : List Byte} (enough : fileName.length ≤ rounds) :
    antisocial (stripLoop rounds fileName) = false := by
  induction rounds generalizing fileName with
  | zero =>
      rw [List.length_eq_zero_iff.mp (Nat.le_zero.mp enough)]
      rfl
  | succ rounds induction =>
      unfold stripLoop
      cases bad : antisocial fileName with
      | false => exact bad
      | true =>
          rw [if_pos rfl]
          apply induction
          have there : fileName ≠ [] := by
            intro empty
            rw [empty] at bad
            cases bad
          have shorter := after_slash_shorter there
          omega

/-- What is left has no antisocial prefix. -/
theorem strip_social (fileName : List Byte) :
    antisocial (stripAntisocialPrefixes fileName) = false := by
  unfold stripAntisocialPrefixes
  dsimp only
  split
  · rfl
  · exact strip_loop_social (Nat.le_refl _)

/-! ## Headers of files -/

/-- The types of entries, `USTAR_REGULAR` and `USTAR_DIRECTORY`. -/
inductive UstarType where
  | regular
  | directory
  deriving DecidableEq, Repr

def UstarType.flag : UstarType → Byte
  | .regular => 0x30
  | .directory => 0x35

def UstarType.mode : UstarType → Nat
  | .regular => 0o644
  | .directory => 0o755

/-- `"ustar"` with its NUL. -/
def ustarMagic : List Byte := [0x75, 0x73, 0x74, 0x61, 0x72, 0x00]

/-- The header except for its checksum. -/
def blankHeader (fileName : List Byte) (type : UstarType) (size : Word) : UstarHeader where
  name := .string 100 fileName
  mode := .string 8 (octal 7 type.mode)
  uid := .string 8 [0x30, 0x30, 0x30, 0x30, 0x30, 0x30, 0x30]
  gid := .string 8 [0x30, 0x30, 0x30, 0x30, 0x30, 0x30, 0x30]
  size := .string 12 (octal 11 size.toNat)
  mtime := .string 12 (octal 11 1136102400)
  chksum := .zeros 8
  typeflag := ⟨[type.flag], rfl⟩
  linkname := .zeros 100
  magic := ⟨ustarMagic, rfl⟩
  version := ⟨[0x30, 0x30], rfl⟩
  uname := .string 32 [0x72, 0x6f, 0x6f, 0x74]
  gname := .string 32 [0x72, 0x6f, 0x6f, 0x74]
  devmajor := .zeros 8
  devminor := .zeros 8
  prefix_ := .zeros 155
  padding := .zeros 12

/-- `none` is the result false, for a name that is too long. -/
def ustarMakeHeader (fileName : List Byte) (type : UstarType) (size : Word) :
    Option (Field ustarHeaderSize) :=
  let fileName := stripAntisocialPrefixes fileName
  if 99 < fileName.length then none
  else
    let h := blankHeader fileName type size
    some { h with chksum := .string 8 (octal 7 (calculateChksum h.bytes)) }.bytes

/-- `eof` is `USTAR_EOF`, with a null name and size zero. -/
inductive Entry where
  | eof
  | file (fileName : List Byte) (type : UstarType) (size : Nat)
  deriving DecidableEq, Repr

def isAllZeros (block : List Byte) : Bool := block.all (· = 0)

/-- `*size` of a header with `typeflag`. -/
def parseSize (h : UstarHeader) : Except String Nat :=
  match parseOctalField h.size.val with
  | none => .error "corrupt file size field"
  | some size => if 2 ^ 31 - 1 < size then .error "file too large" else .ok size

/-- The string in an array that ends with a NUL. -/
def cString (bytes : List Byte) : List Byte := bytes.takeWhile (· ≠ 0)

def ustarParseHeader (header : Field ustarHeaderSize) : Except String Entry :=
  if isAllZeros header.val then .ok .eof
  else
    let h := ustarHeader header
    if h.magic.val ≠ ustarMagic then .error "not a ustar archive"
    else if h.version.val ≠ [0x30, 0x30] then .error "invalid ustar version"
    else
      match parseOctalField h.chksum.val with
      | none => .error "corrupt chksum field"
      | some chksum =>
          if chksum ≠ calculateChksum header then .error "checksum mismatch"
          else if h.name.val.getD 99 0 ≠ 0 ∨ h.prefix_.val.getD 0 0 ≠ 0 then
            .error "file name too long"
          else
            let fileName := stripAntisocialPrefixes (cString h.name.val)
            if h.typeflag.val = [UstarType.regular.flag] then
              match parseSize h with
              | .error error => .error error
              | .ok size => .ok (.file fileName .regular size)
            else if h.typeflag.val = [UstarType.directory.flag] then
              .ok (.file fileName .directory 0)
            else .error "unimplemented file type"

/-! ## The header of a file is read back -/

/-- A name that fits and that an archive takes over as it is. -/
structure Plain (fileName : List Byte) : Prop where
  noNul : (0 : Byte) ∉ fileName
  short : fileName.length ≤ 99
  kept : stripAntisocialPrefixes fileName = fileName

theorem string_fits {width : Nat} {text : List Byte} (fits : text.length < width) :
    (Field.string width text).val = text ++ List.replicate (width - text.length) 0 := by
  have whole : text.take (width - 1) = text := List.take_of_length_le (by omega)
  simp only [Field.string, whole]

theorem c_string_field {width : Nat} {text : List Byte} (noNul : (0 : Byte) ∉ text)
    (fits : text.length < width) : cString (Field.string width text).val = text := by
  have nonzero : ∀ byte ∈ text, decide (byte ≠ 0) = true := by
    intro byte member
    rw [decide_eq_true_eq]
    intro zero
    rw [zero] at member
    exact noNul member
  obtain ⟨rest, positive⟩ : ∃ rest, width - text.length = rest + 1 :=
    ⟨width - text.length - 1, by omega⟩
  rw [string_fits fits, positive, List.replicate_succ, cString,
    List.takeWhile_append_of_pos nonzero]
  simp

section RoundTrip

variable {fileName : List Byte} {type : UstarType} {size : Word}

/-- The header `ustar_make_header` writes. -/
def fileHeader (fileName : List Byte) (type : UstarType) (size : Word) : UstarHeader :=
  let h := blankHeader fileName type size
  { h with chksum := .string 8 (octal 7 (calculateChksum h.bytes)) }

theorem make_header (short : (stripAntisocialPrefixes fileName).length ≤ 99) :
    ustarMakeHeader fileName type size =
      some (fileHeader (stripAntisocialPrefixes fileName) type size).bytes :=
  if_neg (Nat.not_lt.mpr short)

theorem make_header_none :
    ustarMakeHeader fileName type size = none ↔
      99 < (stripAntisocialPrefixes fileName).length := by
  constructor
  · intro failed
    by_contra short
    rw [make_header (Nat.not_lt.mp short)] at failed
    cases failed
  · intro long
    exact if_pos long

theorem header_not_zeros (fileName : List Byte) (type : UstarType) (size : Word) :
    isAllZeros (fileHeader fileName type size).bytes.val = false := by
  rw [isAllZeros, List.all_eq_false]
  refine ⟨0x75, ?_, by decide⟩
  refine List.mem_flatten.mpr ⟨ustarMagic, ?_, List.mem_cons_self⟩
  simp [UstarHeader.fields, UstarHeader.back, fileHeader, blankHeader]

theorem file_header_chksum (fileName : List Byte) (type : UstarType) (size : Word) :
    parseOctalField (fileHeader fileName type size).chksum.val =
      some (calculateChksum (fileHeader fileName type size).bytes) := by
  have bound := chksum_bound (blankHeader fileName type size).bytes
  have same : calculateChksum (fileHeader fileName type size).bytes =
      calculateChksum (blankHeader fileName type size).bytes := chksum_without _ _
  rw [same]
  exact parse_octal_field_octal (by decide) bound (Nat.lt_trans bound (by decide))

theorem file_header_size (nonneg : 0 ≤ size.toInt) :
    parseSize (fileHeader fileName type size) = .ok size.toNat := by
  have small : size.toNat < 2 ^ 31 := by
    rw [BitVec.toInt_eq_toNat_cond] at nonneg
    split at nonneg
    · omega
    · have bound := size.isLt
      omega
  have read : parseOctalField (fileHeader fileName type size).size.val = some size.toNat :=
    parse_octal_field_octal (by decide) (Nat.lt_trans small (by decide))
      (Nat.lt_trans small (by decide))
  unfold parseSize
  rw [read]
  exact if_neg (by omega)

/-- The size that `ustar_parse_header` finds in a header made for `size`. -/
def UstarType.parsedSize (type : UstarType) (size : Word) : Nat :=
  match type with
  | .regular => size.toNat
  | .directory => 0

/-- A header read back stands for the file it was made for. -/
theorem parse_file_header (plain : Plain fileName) (nonneg : 0 ≤ size.toInt) :
    ustarParseHeader (fileHeader fileName type size).bytes =
      .ok (.file fileName type (type.parsedSize size)) := by
  have name : (fileHeader fileName type size).name.val =
      fileName ++ List.replicate (100 - fileName.length) 0 :=
    string_fits (Nat.lt_succ_of_le plain.short)
  have nameEnd : (fileHeader fileName type size).name.val.getD 99 0 = 0 := by
    rw [name, List.getD_eq_getElem?_getD, List.getElem?_append_right plain.short,
      List.getElem?_replicate]
    split
    · rfl
    · rfl
  have string : cString (fileHeader fileName type size).name.val = fileName :=
    c_string_field plain.noNul (Nat.lt_succ_of_le plain.short)
  unfold ustarParseHeader
  rw [header_not_zeros, if_neg (by decide), ustar_header_bytes]
  dsimp only
  have magic : (fileHeader fileName type size).magic.val = ustarMagic := rfl
  have version : (fileHeader fileName type size).version.val = [0x30, 0x30] := rfl
  have prefix_ : (fileHeader fileName type size).prefix_.val.getD 0 0 = 0 := rfl
  have flag : (fileHeader fileName type size).typeflag.val = [type.flag] := rfl
  rw [if_neg (not_not.mpr magic), if_neg (not_not.mpr version), file_header_chksum]
  dsimp only
  rw [if_neg (not_not.mpr rfl), if_neg (by simp only [nameEnd, prefix_, ne_eq, not_true, or_self,
    not_false_eq_true]), string, plain.kept, flag]
  cases type with
  | regular =>
      rw [if_pos rfl, file_header_size nonneg]
      rfl
  | directory =>
      rw [if_neg (by decide), if_pos rfl]
      rfl

end RoundTrip

/-! ## Stripped names -/

section Stripped

variable {fileName : List Byte}

theorem after_slash_suffix (fileName : List Byte) : afterSlash fileName <:+ fileName :=
  (List.drop_suffix _ _).trans (List.dropWhile_suffix _)

theorem strip_loop_suffix (rounds : Nat) (fileName : List Byte) :
    stripLoop rounds fileName <:+ fileName := by
  induction rounds generalizing fileName with
  | zero => exact List.suffix_rfl
  | succ rounds induction =>
      unfold stripLoop
      split
      · exact (induction (afterSlash fileName)).trans (after_slash_suffix fileName)
      · exact List.suffix_rfl

theorem strip_no_nul (noNul : (0 : Byte) ∉ fileName) :
    (0 : Byte) ∉ stripAntisocialPrefixes fileName := by
  unfold stripAntisocialPrefixes
  dsimp only
  split
  · decide
  · exact fun member => noNul ((strip_loop_suffix _ fileName).subset member)

theorem strip_nonempty (fileName : List Byte) : stripAntisocialPrefixes fileName ≠ [] := by
  unfold stripAntisocialPrefixes
  dsimp only
  split
  · decide
  · next other => exact fun empty => other (.inl empty)

theorem strip_not_parent (fileName : List Byte) :
    stripAntisocialPrefixes fileName ≠ [0x2e, 0x2e] := by
  unfold stripAntisocialPrefixes
  dsimp only
  split
  · decide
  · next other => exact fun parent => other (.inr parent)

/-- A name without an antisocial prefix stays as it is. -/
theorem strip_of_social (social : antisocial fileName = false) (there : fileName ≠ [])
    (notParent : fileName ≠ [0x2e, 0x2e]) : stripAntisocialPrefixes fileName = fileName := by
  have kept : stripLoop fileName.length fileName = fileName := by
    cases fileName with
    | nil => rfl
    | cons byte rest =>
        rw [List.length_cons, stripLoop, social]
        exact if_neg (by decide)
  unfold stripAntisocialPrefixes
  dsimp only
  rw [kept]
  exact if_neg (not_or.mpr ⟨there, notParent⟩)

theorem strip_idempotent (fileName : List Byte) :
    stripAntisocialPrefixes (stripAntisocialPrefixes fileName) = stripAntisocialPrefixes fileName :=
  strip_of_social (strip_social fileName) (strip_nonempty fileName) (strip_not_parent fileName)

theorem strip_plain (noNul : (0 : Byte) ∉ fileName)
    (short : (stripAntisocialPrefixes fileName).length ≤ 99) :
    Plain (stripAntisocialPrefixes fileName) :=
  ⟨strip_no_nul noNul, short, strip_idempotent fileName⟩

/-- The prefixes that `strip_antisocial_prefixes` drops. -/
def antisocialPrefixes : List (List Byte) := [[0x2f], [0x2e, 0x2f], [0x2e, 0x2e, 0x2f]]

theorem social_iff :
    antisocial fileName = false ↔ ∀ front ∈ antisocialPrefixes, ¬front <+: fileName := by
  unfold antisocial antisocialPrefixes
  simp only [Bool.or_eq_false_iff, List.mem_cons, List.not_mem_nil, or_false, forall_eq_or_imp,
    forall_eq, ← List.isPrefixOf_iff_prefix, Bool.not_eq_true, and_assoc]

end Stripped

theorem headers_are_read_back (fileName : List Byte) (noNul : (0 : Byte) ∉ fileName)
    (type : UstarType) (size : Word) (nonneg : 0 ≤ size.toInt) :
    (∀ header, ustarMakeHeader fileName type size = some header →
      ustarParseHeader header =
        .ok (.file (stripAntisocialPrefixes fileName) type (type.parsedSize size))) ∧
    (∀ front ∈ antisocialPrefixes, ¬front <+: stripAntisocialPrefixes fileName) ∧
    stripAntisocialPrefixes fileName ≠ [] ∧
    stripAntisocialPrefixes fileName ≠ [0x2e, 0x2e] ∧
    stripAntisocialPrefixes (stripAntisocialPrefixes fileName) = stripAntisocialPrefixes fileName ∧
    (ustarMakeHeader fileName type size = none ↔
      99 < (stripAntisocialPrefixes fileName).length) := by
  refine ⟨?_, social_iff.mp (strip_social fileName), strip_nonempty fileName,
    strip_not_parent fileName, strip_idempotent fileName, make_header_none⟩
  intro header made
  have short : (stripAntisocialPrefixes fileName).length ≤ 99 := by
    by_contra long
    rw [make_header_none.mpr (Nat.not_le.mp long)] at made
    cases made
  rw [make_header short] at made
  rw [← Option.some.inj made]
  exact parse_file_header (strip_plain noNul short) nonneg

/-- A directory `../a` of seven bytes. -/
theorem headers_are_read_back_parent :
    ∃ header, ustarMakeHeader [0x2e, 0x2e, 0x2f, 0x61] .directory 7 = some header ∧
      ustarParseHeader header = .ok (.file [0x61] .directory 0) := by
  have made := @make_header [0x2e, 0x2e, 0x2f, 0x61] .directory 7 (by decide)
  exact ⟨_, made, (headers_are_read_back _ (by decide) .directory 7 (by decide)).1 _ made⟩

/-- No header leads an extraction out of its directory. -/
theorem parsed_name_social {header : Field ustarHeaderSize} {fileName : List Byte}
    {type : UstarType} {size : Nat}
    (parsed : ustarParseHeader header = .ok (.file fileName type size)) :
    antisocial fileName = false := by
  unfold ustarParseHeader at parsed
  dsimp only at parsed
  repeat' split at parsed
  all_goals cases parsed
  all_goals exact strip_social _

theorem c_string_no_nul (bytes : List Byte) : (0 : Byte) ∉ cString bytes := by
  intro member
  have nonzero : (bytes.takeWhile (· ≠ 0)).all (· ≠ 0) = true := List.all_takeWhile
  exact absurd rfl (of_decide_eq_true (List.all_eq_true.mp nonzero 0 member))

theorem parse_size_small {h : UstarHeader} {size : Nat} (parsed : parseSize h = .ok size) :
    size < 2 ^ 31 := by
  unfold parseSize at parsed
  cases octal : parseOctalField h.size.val with
  | none =>
      rw [octal] at parsed
      cases parsed
  | some value =>
      rw [octal] at parsed
      dsimp only at parsed
      split at parsed
      · cases parsed
      · cases parsed
        omega

/-- What is taken from a header is a string, and a size that an `int` holds. -/
theorem parsed_file {header : Field ustarHeaderSize} {fileName : List Byte} {type : UstarType}
    {size : Nat} (parsed : ustarParseHeader header = .ok (.file fileName type size)) :
    (0 : Byte) ∉ fileName ∧ size < 2 ^ 31 := by
  have noNul := strip_no_nul (c_string_no_nul (ustarHeader header).name.val)
  unfold ustarParseHeader at parsed
  dsimp only at parsed
  repeat' split at parsed
  all_goals cases parsed
  · next sized => exact ⟨noNul, parse_size_small sized⟩
  · exact ⟨noNul, by decide⟩

theorem parsed_eof {header : Field ustarHeaderSize} :
    ustarParseHeader header = .ok .eof ↔ isAllZeros header.val = true := by
  constructor
  · intro parsed
    unfold ustarParseHeader at parsed
    dsimp only at parsed
    repeat' split at parsed
    all_goals cases parsed
    assumption
  · intro zeros
    unfold ustarParseHeader
    rw [if_pos zeros]

end UtSystems.Libc.Ustar
