import UtSystems.Filesys.Volume

/-!
# Partition tables

`partition.c` on a device given by its bytes. Each level of `read_partition_table` takes the
depth of recursion that is left, and no result means that it was not enough. `malloc` grants what
is asked of it; what is printed is left out.
-/

namespace UtSystems.Devices.Partition

open Lib.Bytes
open Filesys.Volume (blockSectorSize)

set_option autoImplicit false

structure Device where
  size : Word
  disk : Nat → Byte

structure PartitionTableEntry where
  type : Byte
  offset : Word
  size : Word
  deriving DecidableEq

structure PartitionTable where
  partitions : List PartitionTableEntry
  signature : BitVec 16

def partitionTableEntry (sector : List Byte) (i : Nat) : PartitionTableEntry where
  type := sector.getD (446 + 16 * i + 4) 0
  offset := readWord (sector.drop (446 + 16 * i + 8))
  size := readWord (sector.drop (446 + 16 * i + 12))

def partitionTable (sector : List Byte) : PartitionTable where
  partitions := (List.range 4).map (partitionTableEntry sector)
  signature := sector.getD 511 0 ++ sector.getD 510 0

/-- The table that the sector holds. -/
def Device.table (d : Device) (sector : Nat) : PartitionTable :=
  partitionTable (slice d.disk (sector * blockSectorSize) blockSectorSize)

def PartitionTable.valid (pt : PartitionTable) : Bool := pt.signature = 0xaa55

def PartitionTableEntry.empty (e : PartitionTableEntry) : Bool := e.size = 0 || e.type = 0

def PartitionTableEntry.extended (e : PartitionTableEntry) : Bool :=
  e.type = 0x05 || e.type = 0x0f || e.type = 0x85 || e.type = 0xc5

inductive BlockType where
  | kernel
  | filesys
  | scratch
  | swap
  | foreign
  deriving DecidableEq

def blockType (partType : Byte) : BlockType :=
  if partType = 0x20 then .kernel
  else if partType = 0x21 then .filesys
  else if partType = 0x22 then .scratch
  else if partType = 0x23 then .swap
  else .foreign

/-- A block device made by `block_register`, with the number in its name. -/
structure Registered where
  partNr : Nat
  type : BlockType
  start : Nat
  size : Nat
  deriving DecidableEq

structure Scan where
  partNr : Nat
  registered : List Registered
  deriving DecidableEq

def foundPartition (d : Device) (partType : Byte) (start size : Word) (s : Scan) : Scan :=
  if d.size ≤ start then s
  else if start + size < start ∨ d.size < start + size then s
  else { s with
    registered := s.registered ++ [⟨s.partNr, blockType partType, start.toNat, size.toNat⟩] }

/-- The loop over the entries; `recurse` is `read_partition_table`. -/
def parsePartitions (recurse : Word → Word → Scan → Option Scan) (d : Device)
    (sector primaryExtendedSector : Word) : List PartitionTableEntry → Scan → Option Scan
  | [], s => some s
  | e :: rest, s =>
      if e.empty then parsePartitions recurse d sector primaryExtendedSector rest s
      else if e.extended then
        let inner :=
          if sector = 0 then recurse e.offset e.offset s
          else recurse (e.offset + primaryExtendedSector) primaryExtendedSector s
        inner.bind (parsePartitions recurse d sector primaryExtendedSector rest)
      else
        parsePartitions recurse d sector primaryExtendedSector rest
          (foundPartition d e.type (e.offset + sector) e.size { s with partNr := s.partNr + 1 })

def readPartitionTable (d : Device) : Nat → Word → Word → Scan → Option Scan
  | 0, _, _, _ => none
  | depth + 1, sector, primaryExtendedSector, s =>
      if d.size ≤ sector then some s
      else
        -- `block_read (block, 0, pt)`
        let pt := d.table 0
        if pt.valid then
          parsePartitions (readPartitionTable d depth) d sector primaryExtendedSector pt.partitions s
        else some s

def partitionScan (d : Device) (depth : Nat) : Option Scan :=
  readPartitionTable d depth 0 0 ⟨0, []⟩

/-- `partition_scan` returns with this result. -/
def Scans (d : Device) (s : Scan) : Prop :=
  ∃ limit, ∀ depth, limit ≤ depth → partitionScan d depth = some s

/-! ## What is on the device -/

structure Found where
  type : Byte
  start : Nat
  size : Nat
  deriving DecidableEq

def Found.fits (d : Device) (p : Found) : Bool :=
  p.start < d.size.toNat && p.start + p.size ≤ d.size.toNat

/-- The block devices for partitions in this order. -/
def register (d : Device) (found : List Found) : List Registered :=
  (found.zipIdx 1).filterMap fun (p, partNr) =>
    if p.fits d then some ⟨partNr, blockType p.type, p.start, p.size⟩ else none

/-- The partitions that entries of the table in `sector` stand for, with those of the tables that
are chained to it. Offsets of extended partitions count from the primary one, and those in the
master boot record from the beginning of the device. -/
inductive Chained (d : Device) :
    Nat → Nat → List PartitionTableEntry → List Found → Prop where
  | nil {sector primary : Nat} : Chained d sector primary [] []
  | empty {sector primary : Nat} {e : PartitionTableEntry} {rest : List PartitionTableEntry}
      {found : List Found} (isEmpty : e.empty = true)
      (others : Chained d sector primary rest found) : Chained d sector primary (e :: rest) found
  | partition {sector primary : Nat} {e : PartitionTableEntry} {rest : List PartitionTableEntry}
      {found : List Found} (used : e.empty = false) (plain : e.extended = false)
      (others : Chained d sector primary rest found) :
      Chained d sector primary (e :: rest)
        (⟨e.type, e.offset.toNat + sector, e.size.toNat⟩ :: found)
  | extended {sector primary next origin : Nat} {e : PartitionTableEntry}
      {rest : List PartitionTableEntry} {inner found : List Found} (used : e.empty = false)
      (isExtended : e.extended = true)
      (isNext : next = if sector = 0 then e.offset.toNat else e.offset.toNat + primary)
      (isOrigin : origin = if sector = 0 then e.offset.toNat else primary)
      (onDevice : next < d.size.toNat) (valid : (d.table next).valid = true)
      (chain : Chained d next origin (d.table next).partitions inner)
      (others : Chained d sector primary rest found) :
      Chained d sector primary (e :: rest) (inner ++ found)

/-- The partition tables are in order and stand for these partitions. -/
structure WellFormed (d : Device) (found : List Found) : Prop where
  nonempty : 0 < d.size.toNat
  valid : (d.table 0).valid = true
  chain : Chained d 0 0 (d.table 0).partitions found

def PartitionTableEntry.leads (e : PartitionTableEntry) : Bool := !e.empty && e.extended

/-- The extended partitions of the master boot record. -/
def Device.extended (d : Device) : List PartitionTableEntry :=
  (d.table 0).partitions.filter PartitionTableEntry.leads

/-- The other partitions of the master boot record, as if it were in `sector`. -/
def plainFrom (sector : Word) (entries : List PartitionTableEntry) : List Found :=
  (entries.filter fun e => !e.empty && !e.extended).map fun e =>
    ⟨e.type, (e.offset + sector).toNat, e.size.toNat⟩

/-- The partitions of the master boot record, with another copy of them in place of each extended
partition. -/
def displaced (d : Device) : List Found :=
  (d.table 0).partitions.flatMap fun e =>
    if e.leads then plainFrom e.offset (d.table 0).partitions else plainFrom 0 [e]

/-! ## What is registered -/

def Scan.add (d : Device) (s : Scan) (p : Found) : Scan where
  partNr := s.partNr + 1
  registered :=
    if p.fits d then
      s.registered ++ [⟨s.partNr + 1, blockType p.type, p.start, p.size⟩]
    else s.registered

theorem found_partition_add (d : Device) (partType : Byte) (start size : Word) (s : Scan) :
    foundPartition d partType start size { s with partNr := s.partNr + 1 } =
      s.add d ⟨partType, start.toNat, size.toNat⟩ := by
  unfold foundPartition Scan.add Found.fits
  dsimp only
  by_cases past : d.size ≤ start
  · have past_ : d.size.toNat ≤ start.toNat := past
    rw [if_pos past, if_neg (by
      rw [Bool.and_eq_true, decide_eq_true_eq]
      omega)]
  · have inside : start.toNat < d.size.toNat := by
      rw [BitVec.le_def] at past
      omega
    have bound := d.size.isLt
    have sizeBound := size.isLt
    rw [if_neg past]
    by_cases fits : start.toNat + size.toNat ≤ d.size.toNat
    · have whole : (start + size).toNat = start.toNat + size.toNat := by
        rw [BitVec.toNat_add]
        omega
      rw [if_neg (by rw [BitVec.lt_def, BitVec.lt_def, whole]; omega), if_pos (by
        rw [Bool.and_eq_true, decide_eq_true_eq, decide_eq_true_eq]
        exact ⟨inside, fits⟩)]
    · rw [if_pos (by rw [BitVec.lt_def, BitVec.lt_def, BitVec.toNat_add]; omega), if_neg (by
        rw [Bool.and_eq_true, decide_eq_true_eq, decide_eq_true_eq]
        exact fun both => fits both.2)]

theorem add_all_registered (d : Device) (found : List Found) (s : Scan) :
    (found.foldl (Scan.add d) s).registered =
      s.registered ++ (found.zipIdx (s.partNr + 1)).filterMap fun (p, partNr) =>
        if p.fits d then some ⟨partNr, blockType p.type, p.start, p.size⟩ else none := by
  induction found generalizing s with
  | nil => exact (List.append_nil _).symm
  | cons p found induction =>
      rw [List.foldl_cons, induction, List.zipIdx_cons, List.filterMap_cons]
      unfold Scan.add
      dsimp only
      by_cases fits : p.fits d = true
      · rw [if_pos fits, if_pos fits]
        simp
      · rw [if_neg fits, if_neg fits]

theorem scanned_register (d : Device) (found : List Found) :
    (found.foldl (Scan.add d) ⟨0, []⟩).registered = register d found := by
  rw [add_all_registered]
  rfl

section Parsing

variable {d : Device} {recurse : Word → Word → Scan → Option Scan} {sector primary : Word}
  {e : PartitionTableEntry} {entries rest : List PartitionTableEntry}

/-- Where `read_partition_table` goes for an extended partition. -/
def nested (recurse : Word → Word → Scan → Option Scan) (sector primary : Word)
    (e : PartitionTableEntry) : Scan → Option Scan :=
  if sector = 0 then recurse e.offset e.offset else recurse (e.offset + primary) primary

theorem parse_cons (s : Scan) :
    parsePartitions recurse d sector primary (e :: rest) s =
      if e.leads then
        (nested recurse sector primary e s).bind (parsePartitions recurse d sector primary rest)
      else
        parsePartitions recurse d sector primary rest
          ((plainFrom sector [e]).foldl (Scan.add d) s) := by
  rw [parsePartitions, PartitionTableEntry.leads, nested]
  unfold plainFrom
  cases isEmpty : e.empty with
  | true => simp [isEmpty]
  | false =>
      cases isExtended : e.extended with
      | true =>
          simp only [Bool.false_eq_true, if_false, if_true, Bool.not_false, Bool.and_true]
          split
          · rfl
          · rfl
      | false => simp [isEmpty, isExtended, found_partition_add]

/-- If each nested table adds the partitions in `inner`, the loop adds them in their places. -/
theorem parse_adds {inner : PartitionTableEntry → List Found}
    (adds : ∀ e ∈ entries, e.leads = true → ∀ s,
      nested recurse sector primary e s = some ((inner e).foldl (Scan.add d) s)) (s : Scan) :
    parsePartitions recurse d sector primary entries s =
      some ((entries.flatMap fun e =>
        if e.leads then inner e else plainFrom sector [e]).foldl (Scan.add d) s) := by
  induction entries generalizing s with
  | nil => rfl
  | cons e rest induction =>
      have later := @induction fun other member => adds other (List.mem_cons_of_mem _ member)
      rw [parse_cons, List.flatMap_cons, List.foldl_append]
      cases leads : e.leads with
      | true =>
          rw [if_pos rfl, if_pos rfl, adds e List.mem_cons_self leads s]
          exact later _
      | false =>
          rw [if_neg (by decide), if_neg (by decide)]
          exact later _

/-- If a nested table is never read to its end, neither is this one. -/
theorem parse_diverges (member : e ∈ entries) (leads : e.leads = true)
    (diverges : ∀ s, nested recurse sector primary e s = none) (s : Scan) :
    parsePartitions recurse d sector primary entries s = none := by
  induction entries generalizing s with
  | nil => cases member
  | cons first rest induction =>
      rw [parse_cons]
      cases List.mem_cons.mp member with
      | inl here =>
          rw [← here, if_pos leads, diverges s]
          rfl
      | inr later =>
          split
          · cases nested recurse sector primary first s with
            | none => rfl
            | some middle => exact induction later middle
          · exact induction later _

end Parsing

section Chains

variable {d : Device} {found : List Found}

/-- A chain that is finite leads to sectors of the device, and not back to the master boot
record. -/
theorem chain_leads {sector primary : Nat} {entries : List PartitionTableEntry}
    (chain : Chained d sector primary entries found) (atStart : sector = 0)
    {e : PartitionTableEntry} (member : e ∈ entries) (inRecord : e ∈ (d.table 0).partitions)
    (leads : e.leads = true) : e.offset.toNat ≠ 0 ∧ e.offset.toNat < d.size.toNat := by
  induction chain with
  | nil => cases member
  | empty isEmpty _ induction =>
      cases List.mem_cons.mp member with
      | inl here =>
          rw [here, PartitionTableEntry.leads, isEmpty] at leads
          cases leads
      | inr later => exact induction atStart later
  | partition _ plain _ induction =>
      cases List.mem_cons.mp member with
      | inl here =>
          rw [here, PartitionTableEntry.leads, plain, Bool.and_false] at leads
          cases leads
      | inr later => exact induction atStart later
  | @extended sector primary next origin first rest inner found used isExtended isNext isOrigin
      onDevice valid chain others inside induction =>
      cases List.mem_cons.mp member with
      | inl here =>
          rw [if_pos atStart, ← here] at isNext
          constructor
          · intro zero
            rw [zero] at isNext
            refine (inside isNext ?_).1 zero
            rw [isNext]
            exact inRecord
          · rw [← isNext]
            exact onDevice
      | inr later => exact induction atStart later

/-- Without extended partitions the master boot record says it all. -/
theorem chain_plain {primary : Nat} {entries : List PartitionTableEntry}
    (chain : Chained d 0 primary entries found) (none_ : ∀ e ∈ entries, e.leads = false) :
    found = entries.flatMap fun e => plainFrom 0 [e] := by
  generalize isStart : 0 = sector at chain
  induction chain with
  | nil => rfl
  | empty isEmpty _ induction =>
      rw [List.flatMap_cons, ← induction (fun e member => none_ e (List.mem_cons_of_mem _ member))
        isStart]
      simp [plainFrom, isEmpty]
  | partition used plain _ induction =>
      rw [List.flatMap_cons, ← induction (fun e member => none_ e (List.mem_cons_of_mem _ member))
        isStart]
      simp [plainFrom, used, plain, ← isStart]
  | extended used isExtended =>
      have leads := none_ _ List.mem_cons_self
      rw [PartitionTableEntry.leads, used, isExtended] at leads
      cases leads

end Chains

section Reading

variable {d : Device} {found : List Found} {sector primary : Word}

theorem read_inside (wellFormed : WellFormed d found) (inside : sector < d.size) (depth : Nat)
    (s : Scan) :
    readPartitionTable d (depth + 1) sector primary s =
      parsePartitions (readPartitionTable d depth) d sector primary (d.table 0).partitions s := by
  rw [readPartitionTable, if_neg (BitVec.not_le.mpr inside)]
  exact if_pos wellFormed.valid

theorem read_past (past : d.size ≤ sector) (depth : Nat) (s : Scan) :
    readPartitionTable d (depth + 1) sector primary s = some s := if_pos past

theorem mem_extended {e : PartitionTableEntry} :
    e ∈ d.extended ↔ e ∈ (d.table 0).partitions ∧ e.leads = true := List.mem_filter

theorem extended_offset (wellFormed : WellFormed d found) {e : PartitionTableEntry}
    (member : e ∈ d.extended) : e.offset ≠ 0 ∧ e.offset < d.size := by
  obtain ⟨inRecord, leads⟩ := mem_extended.mp member
  obtain ⟨leaves, onDevice⟩ := chain_leads wellFormed.chain rfl inRecord inRecord leads
  refine ⟨?_, onDevice⟩
  intro zero
  apply leaves
  rw [zero]
  rfl

/-- The sum of two offsets of extended partitions is a sector of the device. -/
def Returns (d : Device) (first second : PartitionTableEntry) : Prop :=
  first ∈ d.extended ∧ second ∈ d.extended ∧ second.offset + first.offset < d.size

/-- Once two offsets add up to a sector of the device, every table leads to another one. -/
theorem read_diverges (wellFormed : WellFormed d found) {first second : PartitionTableEntry}
    (returns : Returns d first second) (depth : Nat) :
    (∀ sector s, sector ≠ 0 → sector < d.size →
      readPartitionTable d depth sector first.offset s = none) ∧
    ∀ primary s, readPartitionTable d depth 0 primary s = none := by
  obtain ⟨firstIn, secondIn, sum⟩ := returns
  obtain ⟨secondRecord, secondLeads⟩ := mem_extended.mp secondIn
  obtain ⟨firstRecord, firstLeads⟩ := mem_extended.mp firstIn
  induction depth with
  | zero => exact ⟨fun _ _ _ _ => rfl, fun _ _ => rfl⟩
  | succ depth induction =>
      obtain ⟨nestedDiverges, startDiverges⟩ := induction
      constructor
      · intro sector s nonzero inside
        rw [read_inside wellFormed inside]
        apply parse_diverges secondRecord secondLeads
        intro s
        rw [nested, if_neg nonzero]
        by_cases zero : second.offset + first.offset = 0
        · rw [zero]
          exact startDiverges _ s
        · exact nestedDiverges _ s zero sum
      · intro primary s
        rw [read_inside wellFormed (by
          rw [BitVec.lt_def]
          exact wellFormed.nonempty)]
        apply parse_diverges firstRecord firstLeads
        intro s
        obtain ⟨nonzero, inside⟩ := extended_offset wellFormed firstIn
        rw [nested, if_pos rfl]
        exact nestedDiverges _ s nonzero inside

theorem flat_map_plain (entries : List PartitionTableEntry) :
    (entries.flatMap fun e => if e.leads then [] else plainFrom sector [e]) =
      plainFrom sector entries := by
  induction entries with
  | nil => rfl
  | cons e rest induction =>
      rw [List.flatMap_cons, induction]
      unfold plainFrom PartitionTableEntry.leads
      cases isEmpty : e.empty with
      | true => simp [isEmpty]
      | false =>
          cases isExtended : e.extended with
          | true => simp [isEmpty, isExtended]
          | false => simp [isEmpty, isExtended]

/-- Otherwise each extended partition stands for another copy of the master boot record. -/
theorem scan_displaced (wellFormed : WellFormed d found)
    (past : ∀ first ∈ d.extended, ∀ second ∈ d.extended,
      d.size ≤ second.offset + first.offset) (depth : Nat) :
    partitionScan d (depth + 3) = some ((displaced d).foldl (Scan.add d) ⟨0, []⟩) := by
  unfold partitionScan
  rw [read_inside wellFormed (by
    rw [BitVec.lt_def]
    exact wellFormed.nonempty)]
  apply parse_adds
  intro first firstRecord firstLeads s
  have firstIn := mem_extended.mpr ⟨firstRecord, firstLeads⟩
  obtain ⟨nonzero, inside⟩ := extended_offset wellFormed firstIn
  rw [nested, if_pos rfl, read_inside wellFormed inside]
  have adds := @parse_adds d (readPartitionTable d (depth + 1)) first.offset first.offset
    (d.table 0).partitions (fun _ => []) (by
      intro second secondRecord secondLeads s
      rw [nested, if_neg nonzero]
      exact read_past (past first firstIn second
        (mem_extended.mpr ⟨secondRecord, secondLeads⟩)) depth s) s
  rw [flat_map_plain] at adds
  exact adds

/-- Without extended partitions nothing is displaced. -/
theorem displaced_plain (wellFormed : WellFormed d found) (none_ : d.extended = []) :
    displaced d = found := by
  have plain : ∀ e ∈ (d.table 0).partitions, e.leads = false := by
    intro e member
    cases leads : e.leads with
    | false => rfl
    | true =>
        have listed := mem_extended.mpr ⟨member, leads⟩
        rw [none_] at listed
        cases listed
  rw [chain_plain wellFormed.chain plain]
  unfold displaced
  apply List.flatMap_congr
  intro e member
  rw [plain e member]
  exact if_neg (by decide)

/-- `partition_scan` finds what is on the device if the master boot record has no extended
partitions, or if no table of tables is reached and the partitions beyond the record are its own,
displaced. -/
theorem scan_registers_iff (wellFormed : WellFormed d found) :
    (∃ s, Scans d s ∧ s.registered = register d found) ↔
      d.extended = [] ∨
        ((∀ first ∈ d.extended, ∀ second ∈ d.extended, d.size ≤ second.offset + first.offset) ∧
          register d (displaced d) = register d found) := by
  constructor
  · rintro ⟨s, ⟨limit, scans⟩, registered⟩
    have past : ∀ first ∈ d.extended, ∀ second ∈ d.extended,
        d.size ≤ second.offset + first.offset := by
      intro first firstIn second secondIn
      by_contra inside
      have diverges := (read_diverges wellFormed
        ⟨firstIn, secondIn, BitVec.not_le.mp inside⟩ limit).2 0 ⟨0, []⟩
      have ends := scans limit (Nat.le_refl _)
      unfold partitionScan at ends
      rw [diverges] at ends
      cases ends
    have result := scans (limit + 3) (by omega)
    rw [scan_displaced wellFormed past] at result
    cases result
    refine Or.inr ⟨past, ?_⟩
    rw [← scanned_register]
    exact registered
  · intro condition
    have displaces : (∀ first ∈ d.extended, ∀ second ∈ d.extended,
        d.size ≤ second.offset + first.offset) ∧
          register d (displaced d) = register d found := by
      rcases condition with none_ | both
      · rw [none_, displaced_plain wellFormed none_]
        exact ⟨fun _ member => (nomatch member), rfl⟩
      · exact both
    obtain ⟨past, same⟩ := displaces
    refine ⟨(displaced d).foldl (Scan.add d) ⟨0, []⟩, ⟨3, ?_⟩, ?_⟩
    · intro depth deep
      obtain ⟨more, rfl⟩ := Nat.exists_eq_add_of_le deep
      rw [Nat.add_comm]
      exact scan_displaced wellFormed past more
    · rw [scanned_register]
      exact same

end Reading

/-- A byte for each listed position, and zeros elsewhere. -/
def image (bytes : List (Nat × Byte)) (position : Nat) : Byte := (bytes.lookup position).getD 0

def plainDevice : Device where
  size := 4
  disk := image [(450, 0x20), (454, 1), (458, 2), (510, 0x55), (511, 0xaa)]

theorem plain_device_registers :
    ∃ s, Scans plainDevice s ∧ s.registered = register plainDevice [⟨0x20, 1, 2⟩] := by
  refine (scan_registers_iff ⟨by decide, by decide +kernel, ?_⟩).mpr (Or.inl (by decide +kernel))
  have entries : (plainDevice.table 0).partitions =
      [⟨0x20, 1, 2⟩, ⟨0, 0, 0⟩, ⟨0, 0, 0⟩, ⟨0, 0, 0⟩] := by decide +kernel
  rw [entries]
  exact .partition (by decide) (by decide)
    (.empty (by decide) (.empty (by decide) (.empty (by decide) .nil)))

/-- The extended partition in sector 1 holds the partition of sectors 2 and 3. -/
def nestedDevice : Device where
  size := 4
  disk := image [(450, 0x05), (454, 1), (458, 3), (510, 0x55), (511, 0xaa),
    (962, 0x20), (966, 1), (970, 2), (1022, 0x55), (1023, 0xaa)]

theorem nested_device_diverges :
    WellFormed nestedDevice [⟨0x20, 2, 2⟩] ∧ ¬ ∃ s, Scans nestedDevice s := by
  have record : (nestedDevice.table 0).partitions =
      [⟨0x05, 1, 3⟩, ⟨0, 0, 0⟩, ⟨0, 0, 0⟩, ⟨0, 0, 0⟩] := by decide +kernel
  have inner : (nestedDevice.table 1).partitions =
      [⟨0x20, 1, 2⟩, ⟨0, 0, 0⟩, ⟨0, 0, 0⟩, ⟨0, 0, 0⟩] := by decide +kernel
  have chain : Chained nestedDevice 1 1 (nestedDevice.table 1).partitions [⟨0x20, 2, 2⟩] := by
    rw [inner]
    exact .partition (by decide) (by decide)
      (.empty (by decide) (.empty (by decide) (.empty (by decide) .nil)))
  have wellFormed : WellFormed nestedDevice [⟨0x20, 2, 2⟩] := by
    refine ⟨by decide, by decide +kernel, ?_⟩
    rw [record]
    exact @Chained.extended nestedDevice 0 0 1 1 _ _ _ [] (by decide) (by decide) rfl rfl
      (by decide) (by decide +kernel) chain
      (.empty (by decide) (.empty (by decide) (.empty (by decide) .nil)))
  have leads : (⟨0x05, 1, 3⟩ : PartitionTableEntry) ∈ nestedDevice.extended := by
    unfold Device.extended
    rw [record]
    decide
  refine ⟨wellFormed, ?_⟩
  rintro ⟨s, limit, scans⟩
  have diverges := (read_diverges wellFormed ⟨leads, leads, by decide⟩ limit).2 0 ⟨0, []⟩
  have ends := scans limit (Nat.le_refl _)
  unfold partitionScan at ends
  rw [diverges] at ends
  cases ends

end UtSystems.Devices.Partition
